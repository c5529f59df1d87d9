import Lidas.Lib.CString
import Mathlib.Data.List.OfFn

/-!
# The attribute hash table of `http_parser.c`

`hash_set` and `hash_search` work on an array of bucket pointers and on `struct
http_attrihash` nodes. Keys and contents are left abstract (`κ`, `α`): the callers store
pointers and compare the strings behind them, so `hashSearch` takes the comparison
`strcmp (·, q) == 0` and both functions take the bucket number that the key function gave.

Nodes live in an arena in allocation order and are addressed by their position; the pool
hands out zeroed nodes one after the other, so `next` is `NULL` in a new node and `p++` is
the node allocated after `p`.

`hash_conflictset` walks to the end of the bucket's chain and then fills a fresh node that
it never links. `Filled` is the resulting shape of a table filled from empty: each bucket
holds the node of the first key that fell into it, every `next` is `NULL`, and the later
nodes of the bucket are unreachable. `Filled.hashSearch` reads a search off that shape.
-/

namespace Lidas

open CString

/-- `struct http_attrihash`; the string pointer `attri` is the key. -/
structure HttpAttrihash (κ α : Type) where
  content : α
  attri : κ
  next : Option ℕ

/-- The array of buckets and the nodes allocated so far. -/
structure AttriTable (κ α : Type) where
  list : List (Option ℕ)
  nodes : List (HttpAttrihash κ α)

variable {κ α : Type}

/-- The array of `len` buckets, zeroed. -/
def AttriTable.empty (len : ℕ) : AttriTable κ α := ⟨List.replicate len none, []⟩

/-- The node at a position; a dangling pointer is a fault. -/
def AttriTable.node (t : AttriTable κ α) (p : ℕ) : Except Fault (HttpAttrihash κ α) :=
  match t.nodes[p]? with
  | none => .error .outOfBounds
  | some n => .ok n

/-- The bucket pointer `list[cnt]`. -/
def AttriTable.bucket (t : AttriTable κ α) (cnt : ℕ) : Except Fault (Option ℕ) :=
  match t.list[cnt]? with
  | none => .error .outOfBounds
  | some b => .ok b

/-- Allocate a node and fill it: `content` and `attri` are set, `next` keeps the pool's zero. -/
def AttriTable.alloc (t : AttriTable κ α) (key : κ) (content : α) : AttriTable κ α :=
  { t with nodes := t.nodes ++ [{ content := content, attri := key, next := none }] }

/-- `while (p != NULL) p = p->next`, within as many steps as there are nodes. -/
def chainEnd (t : AttriTable κ α) : ℕ → Option ℕ → Except Fault Unit
  | _, none => .ok ()
  | 0, some _ => .error .diverges
  | fuel + 1, some p => do
    let n ← t.node p
    chainEnd t fuel n.next

/-- `hash_conflictset` on the bucket whose pointer is `p`. -/
def hashConflictset (t : AttriTable κ α) (key : κ) (content : α) (p : ℕ) :
    Except Fault (AttriTable κ α) := do
  let n ← t.node p
  chainEnd t t.nodes.length n.next
  -- the new node is filled but no `next` is made to point to it
  return t.alloc key content

/-- `hash_set`, with `cnt` the bucket the key function gave. -/
def hashSet (t : AttriTable κ α) (key : κ) (content : α) (cnt : ℕ) :
    Except Fault (AttriTable κ α) := do
  match ← t.bucket cnt with
  | none =>
    let t' := t.alloc key content
    return { t' with list := t'.list.set cnt (some t.nodes.length) }
  | some p => hashConflictset t key content p

/-- The search loop of `hash_conflictsearch`, with `same` for `strcmp (·, key) == 0`. -/
def conflictLoop (t : AttriTable κ α) (same : κ → Except Fault Bool) :
    ℕ → Option ℕ → Except Fault (Option α)
  | _, none => .ok none
  | 0, some _ => .error .diverges
  | fuel + 1, some p => do
    let n ← t.node p
    if ← same n.attri then
      return some n.content
    -- `p++`, not `p = p->next`
    conflictLoop t same fuel (some (p + 1))

/-- `hash_conflictsearch` on the bucket whose pointer is `p`. -/
def hashConflictsearch (t : AttriTable κ α) (same : κ → Except Fault Bool) (p : ℕ) :
    Except Fault (Option α) := do
  let n ← t.node p
  conflictLoop t same t.nodes.length n.next

/-- `hash_search`, with `cnt` the bucket of the key searched for. The source misspells the
name of `hash_conflictsearch` in its call. -/
def hashSearch (t : AttriTable κ α) (cnt : ℕ) (same : κ → Except Fault Bool) :
    Except Fault (Option α) := do
  match ← t.bucket cnt with
  | none => return none
  | some p =>
    let n ← t.node p
    if ← same n.attri then
      return some n.content
    hashConflictsearch t same p

/-! ### Tables filled from empty -/

/-- One call of `hash_set`: the bucket of the key, the key, the content. -/
structure SetCall (κ α : Type) where
  cnt : ℕ
  key : κ
  content : α

/-- The shape of a table of `len` buckets after the given calls: the nodes are those of the
calls, all unlinked, and each bucket points to the node of the first call that used it. -/
structure Filled (len : ℕ) (calls : List (SetCall κ α)) (t : AttriTable κ α) : Prop where
  nodes : t.nodes = calls.map fun c => { content := c.content, attri := c.key, next := none }
  length : t.list.length = len
  bucket : ∀ cnt < len, t.list[cnt]? = some (calls.findIdx? fun c => c.cnt = cnt)

theorem filled_empty (len : ℕ) : Filled len [] (AttriTable.empty len : AttriTable κ α) where
  nodes := rfl
  length := by simp [AttriTable.empty]
  bucket := fun cnt h => by simp [AttriTable.empty, h]

variable {len : ℕ} {calls : List (SetCall κ α)} {t : AttriTable κ α}

theorem Filled.bucket_eq (h : Filled len calls t) {cnt : ℕ} (hcnt : cnt < len) :
    t.bucket cnt = .ok (calls.findIdx? fun c => c.cnt = cnt) := by
  rw [AttriTable.bucket, h.bucket cnt hcnt]

theorem Filled.node_eq (h : Filled len calls t) {p : ℕ} {c : SetCall κ α}
    (hp : calls[p]? = some c) :
    t.node p = .ok { content := c.content, attri := c.key, next := none } := by
  rw [AttriTable.node, h.nodes, List.getElem?_map, hp]
  rfl

/-- The call a bucket points to, when it points anywhere. -/
theorem exists_of_findIdx? {cnt p : ℕ} (h : (calls.findIdx? fun c => c.cnt = cnt) = some p) :
    ∃ c, calls[p]? = some c ∧ (calls.find? fun c => c.cnt = cnt) = some c := by
  obtain ⟨hp, -, -⟩ := List.findIdx?_eq_some_iff_getElem.mp h
  refine ⟨calls[p], List.getElem?_eq_getElem hp, ?_⟩
  rw [List.find?_eq_bind_findIdx?_getElem?, h]
  exact List.getElem?_eq_getElem hp

/-- One more call of `hash_set`: the node is appended, the bucket is set when it was empty. -/
theorem Filled.hashSet (h : Filled len calls t) (c : SetCall κ α) (hc : c.cnt < len) :
    ∃ t', hashSet t c.key c.content c.cnt = .ok t' ∧ Filled len (calls ++ [c]) t' := by
  have hnodes : (t.alloc c.key c.content).nodes = (calls ++ [c]).map fun c =>
      { content := c.content, attri := c.key, next := none } := by
    simp [AttriTable.alloc, h.nodes]
  have hlen : t.nodes.length = calls.length := by rw [h.nodes, List.length_map]
  have hlast : (List.findIdx? (fun d => d.cnt = c.cnt) [c]) = some 0 := by simp [List.findIdx?_cons]
  -- a new bucket gets the node, a used one keeps its first
  cases hb : calls.findIdx? fun d => d.cnt = c.cnt with
  | none =>
    refine ⟨{ list := t.list.set c.cnt (some t.nodes.length)
              nodes := (t.alloc c.key c.content).nodes }, ?_, hnodes, ?_, ?_⟩
    · rw [Lidas.hashSet, h.bucket_eq hc, hb, ok_bind]
      rfl
    · simp [h.length]
    · intro cnt hcnt
      rw [List.findIdx?_append]
      by_cases heq : c.cnt = cnt
      · subst heq
        rw [hb, hlast]
        simp [h.length, hc, hlen]
      · have hnone : List.findIdx? (fun d : SetCall κ α => d.cnt = cnt) [c] = none := by
          simp [List.findIdx?_cons, heq]
        rw [hnone, List.getElem?_set_ne heq, h.bucket cnt hcnt]
        simp
  | some p =>
    obtain ⟨d, hd, -⟩ := exists_of_findIdx? hb
    refine ⟨t.alloc c.key c.content, ?_, hnodes, by simp [AttriTable.alloc, h.length], ?_⟩
    · rw [Lidas.hashSet, h.bucket_eq hc, hb, ok_bind]
      simp only [hashConflictset, h.node_eq hd, ok_bind]
      cases hn : t.nodes.length <;> rfl
    · intro cnt hcnt
      rw [List.findIdx?_append, AttriTable.alloc, h.bucket cnt hcnt]
      by_cases heq : c.cnt = cnt
      · subst heq
        simp [hb]
      · have hnone : List.findIdx? (fun d : SetCall κ α => d.cnt = cnt) [c] = none := by
          simp [List.findIdx?_cons, heq]
        simp [hnone]

/-- **Searching a filled table.** Only the first call of the bucket is looked at: its content
is the answer when its key is the one searched for, and otherwise the answer is `NULL`,
whatever the later calls of the bucket were. -/
theorem Filled.hashSearch (h : Filled len calls t) {cnt : ℕ} (hcnt : cnt < len)
    {same : κ → Except Fault Bool} {sameB : κ → Bool}
    (hsame : ∀ c ∈ calls, same c.key = .ok (sameB c.key)) :
    hashSearch t cnt same =
      .ok (((calls.find? fun c => c.cnt = cnt).filter fun c => sameB c.key).map (·.content)) := by
  cases hb : calls.findIdx? fun c => c.cnt = cnt with
  | none =>
    have hnone : calls.find? (fun c => c.cnt = cnt) = none := by
      rw [List.find?_eq_bind_findIdx?_getElem?, hb]
      rfl
    rw [Lidas.hashSearch, h.bucket_eq hcnt, hb, ok_bind, hnone]
    rfl
  | some p =>
    obtain ⟨c, hp, hfind⟩ := exists_of_findIdx? hb
    have hmem : c ∈ calls := List.mem_of_getElem? hp
    rw [Lidas.hashSearch, h.bucket_eq hcnt, hb, ok_bind, hfind]
    simp only [h.node_eq hp, ok_bind, hsame c hmem]
    cases hs : sameB c.key with
    | true => simp [Option.filter, hs]
    | false =>
      simp only [Bool.false_eq_true, if_false, hashConflictsearch, h.node_eq hp, ok_bind,
        Option.filter, hs, Option.map_none]
      cases t.nodes.length <;> rfl

end Lidas
