import Lidas.Lib.CString
import Lidas.Lib.FreeList
import Lidas.Lib.RedBlack
import Mathlib.Data.Int.Notation

/-!
# The tree of `rbtree.c`

`struct rbtree_t` in a memory of records, their addresses being those of blocks of a cache; `0` is
`NULL`. A leaf is a record of its own with `nil` set and no children.

`rotat_left` and `rotat_right` set the link of the father of the node that they move down, and with
it that of the node that they move up. There is no father at the root, and so the two nodes become
the fathers of each other there.
-/

namespace Lidas

namespace Rbtree

/-- `struct rbtree_t`. -/
structure RbtreeT where
  rChild : ℕ
  lChild : ℕ
  father : ℕ
  color : Color
  nil : Bool
  type : BitVec 4
  key : BitVec 32
  data : ℕ

namespace RbtreeT

/-- A block that `mem_cache_alloc` has cleared. -/
def zero : RbtreeT := ⟨0, 0, 0, .black, false, 0, 0, 0⟩

/-- `l_child` or `r_child`. -/
def child (s : Side) (r : RbtreeT) : ℕ := s.pick r.lChild r.rChild

def setChild (s : Side) (p : ℕ) (r : RbtreeT) : RbtreeT :=
  match s with
  | .left => { r with lChild := p }
  | .right => { r with rChild := p }

def setFather (p : ℕ) (r : RbtreeT) : RbtreeT := { r with father := p }

def setColor (c : Color) (r : RbtreeT) : RbtreeT := { r with color := c }

theorem child_setChild (s s' : Side) (p : ℕ) (r : RbtreeT) :
    (r.setChild s p).child s' = if s' = s then p else r.child s' := by
  cases s <;> cases s' <;> rfl

@[simp] theorem father_setChild (s : Side) (p : ℕ) (r : RbtreeT) :
    (r.setChild s p).father = r.father := by cases s <;> rfl

end RbtreeT

/-- The records by their addresses. -/
abbrev Nodes : Type := ℕ → RbtreeT

namespace Nodes

/-- The record that a pointer points to. -/
def get (m : Nodes) (p : ℕ) : Except Fault RbtreeT :=
  if p = 0 then .error .nullDeref else .ok (m p)

/-- An assignment to the record that a pointer points to. -/
def modify (m : Nodes) (p : ℕ) (f : RbtreeT → RbtreeT) : Except Fault Nodes :=
  if p = 0 then .error .nullDeref else .ok (Function.update m p (f (m p)))

end Nodes

/-- `rbt_rewind`, of no more than the given number of rounds. -/
def rbtRewind (m : Nodes) : ℕ → ℕ → Except Fault ℕ
  | 0, _ => .error .diverges
  | fuel + 1, n => do
    let father := (← m.get n).father
    if father ≠ 0 then rbtRewind m fuel father else return n

/-- `get_uncle`. -/
def getUncle (m : Nodes) (p : ℕ) : Except Fault ℕ := do
  let f := (← m.get p).father
  if f = 0 then return 0
  let g := (← m.get f).father
  if g = 0 then return 0
  let grandfather ← m.get g
  if f = grandfather.lChild then return grandfather.rChild else return grandfather.lChild

/-- `sibling`. -/
def sibling (m : Nodes) (n : ℕ) : Except Fault ℕ := do
  let father ← m.get (← m.get n).father
  if n = father.lChild then return father.rChild else return father.lChild

/-- The branch of `rotat_left` and `rotat_right` for a node that has a father. -/
def linkUp (m : Nodes) (p r f : ℕ) : Except Fault Nodes := do
  let side := if p = (← m.get f).lChild then Side.left else .right
  let m ← m.modify f (.setChild side r)
  m.modify r (.setFather f)

/-- `rotat_left` and `rotat_right`: the node `p` goes down to side `s`. -/
def rotat (s : Side) (p : ℕ) (m : Nodes) : Except Fault Nodes := do
  let r := (← m.get p).child s.other
  let m ← m.modify p (.setChild s.other ((← m.get r).child s))
  let m ← m.modify ((← m.get p).child s.other) (.setFather p)
  let f := (← m.get p).father
  let m ← (if f ≠ 0 then linkUp m p r f else .ok m)
  let m ← m.modify r (.setChild s p)
  let m ← m.modify p (.setFather r)
  let m ← m.modify r (.setColor .black)
  m.modify p (.setColor .red)

/-- `rotat_left`. -/
def rotatLeft : ℕ → Nodes → Except Fault Nodes := rotat .left

/-- `rotat_right`. -/
def rotatRight : ℕ → Nodes → Except Fault Nodes := rotat .right

/-! ### Insertion -/

/-- `insert_case4`; `left` of its condition is read as `l_child`. -/
def insertCase4 (n : ℕ) (m : Nodes) : Except Fault Nodes := do
  let f := (← m.get n).father
  let m ← m.modify f (.setColor .black)
  let g := (← m.get f).father
  let m ← m.modify g (.setColor .red)
  if n = (← m.get f).lChild ∧ f = (← m.get g).lChild then rotatRight g m else rotatLeft g m

/-- `insert_case3`. -/
def insertCase3 (n : ℕ) (m : Nodes) : Except Fault Nodes := do
  let f := (← m.get n).father
  let father ← m.get f
  let inner ← (if n = father.rChild then do
      pure (decide (f = (← m.get father.father).lChild))
    else pure false)
  if inner then
    let m ← rotatLeft f m
    insertCase4 (← m.get n).lChild m
  else
    let inner ← (if n = father.lChild then do
        pure (decide (f = (← m.get father.father).rChild))
      else pure false)
    if inner then
      let m ← rotatRight f m
      insertCase4 (← m.get n).rChild m
    else
      insertCase4 n m

/-- `insert_case2`, for a function `insert_case1`. -/
def insertCase2 (insertCase1 : ℕ → Nodes → Except Fault Nodes) (n : ℕ) (m : Nodes) :
    Except Fault Nodes := do
  let u ← getUncle m n
  let isRed ← (if u ≠ 0 then do pure (decide ((← m.get u).color = .red)) else pure false)
  if isRed then
    let f := (← m.get n).father
    let m ← m.modify f (.setColor .black)
    let m ← m.modify f (.setColor .black)
    let g := (← m.get f).father
    if g ≠ 0 then
      if (← m.get g).father = 0 then
        m.modify g (.setColor .black)
      else
        let m ← m.modify g (.setColor .red)
        insertCase1 g m
    else return m
  else insertCase3 n m

/-- `insert_case1`, of no more than the given number of calls. -/
def insertCase1 : ℕ → ℕ → Nodes → Except Fault Nodes
  | 0, _, _ => .error .diverges
  | fuel + 1, n, m => do
    if (← m.get (← m.get n).father).color = .black then return m
    else insertCase2 (insertCase1 fuel) n m

/-- The loop of `rbtree_insert`: the leaf it stops at, `none` when it meets the key. -/
def descend (m : Nodes) (key : BitVec 32) : ℕ → ℕ → Except Fault (Option ℕ)
  | 0, _ => .error .diverges
  | fuel + 1, p => do
    let r ← m.get p
    if r.nil then return some p
    else if r.key = key then return none
    else if r.key.slt key then descend m key fuel r.rChild
    else if key.slt r.key then descend m key fuel r.lChild
    else descend m key fuel p

/-- The records and the cache that they come from: its head is at `self`, and `last` is the cell
behind its blocks. -/
structure Heap where
  node : Nodes
  pool : FreeList ℕ
  self : ℕ
  last : ℕ

namespace Heap

def get (m : Heap) (p : ℕ) : Except Fault RbtreeT := m.node.get p

def modify (m : Heap) (p : ℕ) (f : RbtreeT → RbtreeT) : Except Fault Heap := do
  return { m with node := ← m.node.modify p f }

/-- `mem_cache_alloc`. The block behind the one that is handed out gets its `prev`, which is where
`r_child` is. -/
def memCacheAlloc (m : Heap) : ℕ × Heap :=
  match m.pool.alloc with
  | none => (0, m)
  | some (a, pool) =>
    let next := pool.free.headD m.last
    let node := Function.update m.node next { m.node next with rChild := m.self }
    (a, { m with node := Function.update node a RbtreeT.zero, pool := pool })

/-- `mem_cache_free`. The links of the block are where `r_child` and `l_child` are. -/
def memCacheFree (p : ℕ) (m : Heap) : Heap :=
  let links := { m.node p with rChild := m.self, lChild := m.pool.free.headD m.last }
  { m with node := Function.update m.node p links, pool := m.pool.release p }

end Heap

/-- The node that `rbtree_insert` sets up: its address, those of its leaves at the right and at the
left, and the memory. -/
def setUp (key : BitVec 32) (data : ℕ) (type : BitVec 4) (m : Heap) :
    Except Fault (ℕ × ℕ × ℕ × Heap) := do
  let (new, m) := m.memCacheAlloc
  let m ← m.modify new fun r =>
    { r with color := .red, nil := false, type := type, key := key, data := data }
  let (rc, m) := m.memCacheAlloc
  let m ← m.modify new (.setChild .right rc)
  let (lc, m) := m.memCacheAlloc
  let m ← m.modify new (.setChild .left lc)
  let m ← m.modify rc (.setColor .black)
  let m ← m.modify lc (.setColor .black)
  let m ← m.modify rc fun r => { r with nil := true }
  let m ← m.modify lc fun r => { r with nil := true }
  return (new, rc, lc, m)

/-- `rbtree_insert`, with `memcpy (p, new)` read as a copy of the whole record: what it returns, the
root and the memory. -/
def rbtreeInsert (fuel h : ℕ) (key : BitVec 32) (data : ℕ) (type : BitVec 4) (m : Heap) :
    Except Fault (ℤ × ℕ × Heap) := do
  let (new, rc, lc, m) ← setUp key data type m
  if h = 0 then
    let m ← m.modify new (.setColor .black)
    let m ← m.modify new (.setFather 0)
    let m ← m.modify lc (.setFather new)
    let m ← m.modify rc (.setFather new)
    return (0, new, m)
  else
    match ← descend m.node key fuel h with
    | none => return (-1, h, m)
    | some p =>
      let m ← m.modify new (.setFather (← m.get p).father)
      let copy ← m.get new
      let m ← m.modify p fun _ => copy
      let m ← m.modify lc (.setFather p)
      let m ← m.modify rc (.setFather p)
      let m := m.memCacheFree new
      let node ← insertCase1 fuel p m.node
      let h ← rbtRewind node fuel p
      return (0, h, { m with node := node })

/-! ### Search -/

/-- `RBT_SEARCH`. -/
def rbtSearch : ℕ := 0

/-- `RBT_DEL`. -/
def rbtDel : ℕ := 1

/-- The loop of `rbtree_search`: the node with the key, or `NULL`. Keys are compared as unsigned
numbers. -/
def searchLoop (m : Nodes) (key : BitVec 32) : ℕ → ℕ → Except Fault ℕ
  | 0, _ => .error .diverges
  | fuel + 1, p => do
    let r ← m.get p
    if r.nil then return 0
    else if key = r.key then return p
    else if r.key.ult key then searchLoop m key fuel r.rChild
    else if key.ult r.key then searchLoop m key fuel r.lChild
    else searchLoop m key fuel p

/-- `rbtree_search`. -/
def rbtreeSearch (m : Nodes) (fuel : ℕ) (key : BitVec 32) (h cmd : ℕ) : Except Fault ℕ := do
  let p ← searchLoop m key fuel h
  if p = 0 then return 0
  else if cmd = rbtSearch then return (← m.get p).data
  else if cmd = rbtDel then return p
  else return 0

/-! ### Deletion -/

/-- `delete_case6`. -/
def deleteCase6 (n : ℕ) (m : Nodes) : Except Fault Nodes := do
  let s ← sibling m n
  let f := (← m.get n).father
  let m ← m.modify s (.setColor (← m.get f).color)
  let m ← m.modify f (.setColor .black)
  if n = (← m.get f).lChild then
    let m ← m.modify (← m.get s).rChild (.setColor .black)
    rotatLeft f m
  else
    let m ← m.modify (← m.get s).lChild (.setColor .black)
    rotatRight f m

/-- Both children of a node are black; the second one is not looked at when the first one is red. -/
def blackChildren (m : Nodes) (s : ℕ) : Except Fault Bool := do
  if (← m.get (← m.get s).lChild).color = .black then
    return decide ((← m.get (← m.get s).rChild).color = .black)
  else return false

/-- The child of a node at side `s` is black and the other one is red. -/
def blackRed (m : Nodes) (p : ℕ) (s : Side) : Except Fault Bool := do
  if (← m.get ((← m.get p).child s)).color = .black then
    return decide ((← m.get ((← m.get p).child s.other)).color = .red)
  else return false

/-- `delete_case5`. -/
def deleteCase5 (n : ℕ) (m : Nodes) : Except Fault Nodes := do
  let s ← sibling m n
  if (← m.get s).color = .black then
    let f ← m.get (← m.get n).father
    let inner ← (if n = f.lChild then blackRed m s .right else pure false)
    if inner then
      let m ← m.modify s (.setColor .red)
      let m ← m.modify (← m.get s).lChild (.setColor .black)
      let m ← rotatRight s m
      deleteCase6 n m
    else
      let inner ← (if n = f.rChild then blackRed m s .left else pure false)
      if inner then
        let m ← m.modify s (.setColor .red)
        let m ← m.modify (← m.get s).rChild (.setColor .black)
        let m ← rotatLeft s m
        deleteCase6 n m
      else deleteCase6 n m
  else deleteCase6 n m

/-- The condition of `delete_case3` and of `delete_case4`: the father has the given colour, and the
sibling and its children are black. -/
def siblingBlack (m : Nodes) (n s : ℕ) (c : Color) : Except Fault Bool := do
  if (← m.get (← m.get n).father).color = c then
    if (← m.get s).color = .black then blackChildren m s else return false
  else return false

/-- `delete_case4`. -/
def deleteCase4 (n : ℕ) (m : Nodes) : Except Fault Nodes := do
  let s ← sibling m n
  if ← siblingBlack m n s .red then
    let m ← m.modify s (.setColor .red)
    m.modify (← m.get n).father (.setColor .black)
  else deleteCase5 n m

/-- `delete_case3`, for a function `delete_case1`. -/
def deleteCase3 (deleteCase1 : ℕ → Nodes → Except Fault Nodes) (n : ℕ) (m : Nodes) :
    Except Fault Nodes := do
  let s ← sibling m n
  if ← siblingBlack m n s .black then
    let m ← m.modify s (.setColor .red)
    deleteCase1 (← m.get n).father m
  else deleteCase4 n m

/-- `delete_case2`, for a function `delete_case1`. -/
def deleteCase2 (deleteCase1 : ℕ → Nodes → Except Fault Nodes) (n : ℕ) (m : Nodes) :
    Except Fault Nodes := do
  let s ← sibling m n
  if (← m.get s).color = .red then
    let f := (← m.get n).father
    let m ← m.modify f (.setColor .red)
    let m ← m.modify n (.setColor .black)
    let father ← m.get f
    let m ← (if n = father.lChild then rotatLeft f m else rotatRight f m)
    deleteCase3 deleteCase1 n m
  else deleteCase3 deleteCase1 n m

/-- `delete_case1`, of no more than the given number of calls. -/
def deleteCase1 : ℕ → ℕ → Nodes → Except Fault Nodes
  | 0, _, _ => .error .diverges
  | fuel + 1, n, m => do
    if (← m.get n).father ≠ 0 then deleteCase2 (deleteCase1 fuel) n m else return m

/-- The `for` loop of `rbtree_delete`. -/
def findReplace (m : Nodes) : ℕ → ℕ → Except Fault ℕ
  | 0, _ => .error .diverges
  | fuel + 1, t => do
    let r ← m.get t
    if (← m.get r.lChild).nil then return t else findReplace m fuel r.rChild

/-- What `rbtree_delete` comes to: what it returns, the root and the memory, and the data that the
cleaner was called on. -/
structure Deleted where
  ret : ℤ
  root : ℕ
  heap : Heap
  cleaned : List ℕ

/-- The branch of `rbtree_delete` for a node with two leaves. -/
def deleteLeaf (p h : ℕ) (m : Heap) (cleaned : List ℕ) : Except Fault Deleted := do
  let cleaned := cleaned ++ [(← m.get p).data]
  let m ← m.modify p fun r => { r with color := .black, nil := true, data := 0 }
  let m := m.memCacheFree (← m.get p).lChild
  let m := m.memCacheFree (← m.get p).rChild
  let m ← m.modify p (.setChild .left 0)
  let m ← m.modify p (.setChild .right 0)
  return { ret := 0, root := h, heap := m, cleaned := cleaned }

/-- The links that `rbtree_delete` sets when `t` takes the place of `p`, the father being `f`. -/
def relink (p t f : ℕ) (m : Heap) : Except Fault Heap :=
  if f = 0 then m.modify t (.setFather 0)
  else do
    let m ← m.modify t (.setFather f)
    let side := if p = (← m.get f).lChild then Side.left else .right
    m.modify f (.setChild side t)

/-- What `rbtree_delete` does about the colour of `t`, which has taken the place of a black node. -/
def recolor (fuel t : ℕ) (m : Heap) : Except Fault Heap := do
  if (← m.get t).color = .red then m.modify t (.setColor .black)
  else return { m with node := ← deleteCase1 fuel t m.node }

/-- The branch of `rbtree_delete` for a node with one leaf, which is at side `s`. -/
def deleteOne (fuel : ℕ) (s : Side) (p : ℕ) (m : Heap) (cleaned : List ℕ) :
    Except Fault Deleted := do
  let t := (← m.get p).child s.other
  let cleaned := cleaned ++ [(← m.get p).data]
  let m := m.memCacheFree ((← m.get p).child s)
  let m ← relink p t (← m.get p).father m
  let color := (← m.get p).color
  let m ← (if color = .black then recolor fuel t m else .ok m)
  let m := m.memCacheFree p
  return { ret := 0, root := ← rbtRewind m.node fuel t, heap := m, cleaned := cleaned }

/-- `rbtree_delete` from its label `DEL_START` on. -/
def delStart : ℕ → ℕ → ℕ → Heap → List ℕ → Except Fault Deleted
  | 0, _, _, _, _ => .error .diverges
  | fuel + 1, p, h, m, cleaned => do
    let r ← m.get p
    let l ← m.get r.lChild
    let rc ← m.get r.rChild
    match l.nil, rc.nil with
    | true, true => deleteLeaf p h m cleaned
    | true, false => deleteOne fuel .left p m cleaned
    | false, true => deleteOne fuel .right p m cleaned
    | false, false =>
      let cleaned := cleaned ++ [r.data]
      let t ← findReplace m.node fuel r.lChild
      let replace ← m.get t
      let m ← m.modify p fun r => { r with data := replace.data, key := replace.key }
      delStart fuel t h m cleaned

/-- `rbtree_delete`. -/
def rbtreeDelete (fuel : ℕ) (key : BitVec 32) (h : ℕ) (m : Heap) : Except Fault Deleted := do
  let p ← rbtreeSearch m.node fuel key h rbtDel
  if p = 0 then return { ret := -1, root := h, heap := m, cleaned := [] }
  else delStart fuel p h m []

/-! ### Purge -/

/-- `rbtree_ergodic`, with the stack as an argument of its calls. The address of a key is that of
its node, and the last address pushed comes first. -/
def rbtreeErgodic (m : Nodes) (handler : ℕ → Bool) : ℕ → ℕ → List ℕ → Except Fault (List ℕ)
  | 0, _, _ => .error .diverges
  | fuel + 1, h, stack => do
    if h = 0 then return stack
    let r ← m.get h
    if r.nil then return stack
    let stack := if handler r.data then h :: stack else stack
    let stack ← rbtreeErgodic m handler fuel r.lChild stack
    rbtreeErgodic m handler fuel r.rChild stack

/-- `rbtree_stack_del`: the root it has in the end, the memory, and the data that the cleaner was
called on. -/
def rbtreeStackDel (fuel : ℕ) : List ℕ → ℕ → Heap → List ℕ → Except Fault (ℕ × Heap × List ℕ)
  | [], h, m, cleaned => .ok (h, m, cleaned)
  | k :: stack, h, m, cleaned => do
    let d ← rbtreeDelete fuel (← m.get k).key h m
    rbtreeStackDel fuel stack d.root d.heap (cleaned ++ d.cleaned)

end Rbtree

end Lidas
