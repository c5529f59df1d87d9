import Lidas.Rbtree.Insert

/-!
# Insertion

`rbtree_insert` as a whole. It sets up a node with its two leaves, goes down to the leaf in whose
record the node is copied, gives the block of the node back and rebalances. `insertTree` is what the
call makes of a tree, if it returns, and `rbtreeInsert_spec` says that the records follow it.

A key that is met on the way down is refused, with the three blocks already taken.
-/

namespace Lidas

namespace Rbtree

open RbTree

section Cache

/-- The cache hands out blocks that are not out, and neither `NULL` nor the cell behind them. -/
structure PoolOk (m : Heap) : Prop where
  sound : m.pool.Sound
  ne_zero : 0 ∉ m.pool.free
  last_free : m.last ∉ m.pool.free
  last_out : m.last ∉ m.pool.out

variable {m m' : Heap} {a b c p : ℕ} {rest : List ℕ}

/-- The heap with a record replaced. -/
def Heap.put (m : Heap) (p : ℕ) (r : RbtreeT) : Heap :=
  { m with node := Function.update m.node p r }

@[simp] theorem pool_put (r : RbtreeT) : (m.put p r).pool = m.pool := rfl

theorem node_put_self (r : RbtreeT) : (m.put p r).node p = r := Function.update_self ..

theorem node_put_of_ne {x : ℕ} (hne : x ≠ p) (r : RbtreeT) : (m.put p r).node x = m.node x :=
  Function.update_of_ne hne ..

theorem heap_modify_of_ne (hp : p ≠ 0) (g : RbtreeT → RbtreeT) :
    m.modify p g = .ok (m.put p (g (m.node p))) := by
  rw [Heap.modify, modify_of_ne hp]
  rfl

/-- A write to a record leaves the cache as it is. -/
theorem PoolOk.put (hm : PoolOk m) (r : RbtreeT) : PoolOk (m.put p r) :=
  ⟨hm.sound, hm.ne_zero, hm.last_free, hm.last_out⟩

/-- What an allocation leaves. -/
structure Allocated (m m' : Heap) (a : ℕ) (rest : List ℕ) : Prop where
  eq : m.memCacheAlloc = (a, m')
  ok : PoolOk m'
  pool : m'.pool = ⟨rest, insert a m.pool.out⟩
  ne_zero : a ≠ 0
  fresh : a ∉ m.pool.out
  zero : m'.node a = RbtreeT.zero
  same : ∀ x ∈ m.pool.out, m'.node x = m.node x

/-- A call of `mem_cache_alloc` with a free block. -/
theorem allocated (hm : PoolOk m) (hfree : m.pool.free = a :: rest) :
    ∃ m', Allocated m m' a rest := by
  have halloc : m.pool.alloc = some (a, ⟨rest, insert a m.pool.out⟩) := by
    rw [FreeList.alloc, hfree]
  have hfresh := hm.sound.not_mem_of_alloc halloc
  have hlast : m.last ∉ a :: rest := hfree ▸ hm.last_free
  have hzero : 0 ∉ a :: rest := hfree ▸ hm.ne_zero
  have hnext : rest.headD m.last ∉ m.pool.out := by
    cases rest with
    | nil => exact hm.last_out
    | cons b rest => exact hm.sound.disjoint b (hfree ▸ by simp)
  simp only [List.mem_cons, not_or] at hlast hzero
  refine ⟨_, by rw [Heap.memCacheAlloc, halloc], ⟨hm.sound.alloc halloc, hzero.2, hlast.2, ?_⟩, rfl,
    Ne.symm hzero.1, hfresh, Function.update_self .., fun x hx => ?_⟩
  · simpa [hlast.1] using hm.last_out
  · dsimp only
    rw [Function.update_of_ne (ne_of_mem_of_not_mem hx hfresh),
      Function.update_of_ne (ne_of_mem_of_not_mem hx hnext)]

/-- Without a free block it returns `NULL`. -/
theorem memCacheAlloc_nil (hfree : m.pool.free = []) : m.memCacheAlloc = (0, m) := by
  rw [Heap.memCacheAlloc, FreeList.alloc, hfree]

/-- A block that is out can be given back. -/
theorem PoolOk.memCacheFree (hm : PoolOk m) (hp : p ∈ m.pool.out) (hp0 : p ≠ 0) :
    PoolOk (m.memCacheFree p) := by
  refine ⟨hm.sound.release hp, ?_, ?_, fun hlast => hm.last_out (Finset.mem_of_mem_erase hlast)⟩
  · exact fun hzero => (List.mem_cons.mp hzero).elim (fun heq => hp0 heq.symm) hm.ne_zero
  · exact fun hlast => (List.mem_cons.mp hlast).elim
      (fun heq => hm.last_out (by rwa [show m.last = p from heq])) hm.last_free

/-- Of the records, only that of the block given back is written. -/
theorem node_memCacheFree {x : ℕ} (hne : x ≠ p) : (m.memCacheFree p).node x = m.node x :=
  Function.update_of_ne hne ..

/-- The record of a leaf whose block is new. -/
def newLeaf : RbtreeT := { RbtreeT.zero with nil := true }

/-- What is set up for a new node: its record and those of its leaves, and the cache. -/
structure NewNode (m m' : Heap) (a b c : ℕ) (rest : List ℕ) (r : RbtreeT) : Prop where
  ok : PoolOk m'
  pool : m'.pool = ⟨rest, insert c (insert b (insert a m.pool.out))⟩
  node : m'.node a = r
  right : m'.node b = newLeaf
  left : m'.node c = newLeaf
  same : ∀ x ∈ m.pool.out, m'.node x = m.node x
  nodup : [a, b, c].Nodup
  fresh : ∀ x ∈ [a, b, c], x ≠ 0 ∧ x ∉ m.pool.out

/-- The new node and its leaves, with three free blocks. -/
theorem setUp_eq (key : BitVec 32) (data : ℕ) (type : BitVec 4) (hm : PoolOk m)
    (hfree : m.pool.free = a :: b :: c :: rest) :
    ∃ m', setUp key data type m = .ok (a, b, c, m') ∧
      NewNode m m' a b c rest ⟨b, c, 0, .red, false, type, key, data⟩ := by
  obtain ⟨m₁, h₁⟩ := allocated hm hfree
  obtain ⟨m₂, h₂⟩ := allocated (m := m₁.put a _) (h₁.ok.put ⟨0, 0, 0, .red, false, type, key, data⟩)
    (a := b) (congrArg FreeList.free h₁.pool)
  obtain ⟨m₃, h₃⟩ := allocated (m := m₂.put a _) (h₂.ok.put ⟨b, 0, 0, .red, false, type, key, data⟩)
    (a := c) (congrArg FreeList.free h₂.pool)
  -- the three blocks differ from each other and from all that was out
  have hout₁ (x : ℕ) : x ∈ m₁.pool.out ↔ x = a ∨ x ∈ m.pool.out := by simp [h₁.pool]
  have hout₂ (x : ℕ) : x ∈ m₂.pool.out ↔ x = b ∨ x = a ∨ x ∈ m.pool.out := by
    simp [h₂.pool, h₁.pool]
  have hb := h₂.fresh
  have hc := h₃.fresh
  simp only [pool_put, hout₁, hout₂, not_or] at hb hc
  have ha₂ : m₂.node a = ⟨0, 0, 0, .red, false, type, key, data⟩ :=
    (h₂.same a ((hout₁ a).mpr (.inl rfl))).trans (node_put_self _)
  have ha₃ : m₃.node a = ⟨b, 0, 0, .red, false, type, key, data⟩ :=
    (h₃.same a ((hout₂ a).mpr (.inr (.inl rfl)))).trans (node_put_self _)
  have hb₃ : m₃.node b = RbtreeT.zero :=
    (h₃.same b ((hout₂ b).mpr (.inl rfl))).trans ((node_put_of_ne hb.1 _).trans h₂.zero)
  -- the old nodes are untouched by the allocations
  have hsame (x : ℕ) (hx : x ∈ m.pool.out) : m₃.node x = m.node x := by
    have hxa : x ≠ a := ne_of_mem_of_not_mem hx h₁.fresh
    rw [h₃.same x ((hout₂ x).mpr (.inr (.inr hx))), node_put_of_ne hxa,
      h₂.same x ((hout₁ x).mpr (.inr hx)), node_put_of_ne hxa, h₁.same x hx]
  refine ⟨((((m₃.put a ⟨b, c, 0, .red, false, type, key, data⟩).put b RbtreeT.zero).put c
    RbtreeT.zero).put b newLeaf).put c newLeaf, ?_, ?_⟩
  · have hne₁ : b ≠ a := hb.1
    have hne₂ : c ≠ a := hc.2.1
    have hne₃ : c ≠ b := hc.1
    simp only [setUp, h₁.eq, h₂.eq, h₃.eq, heap_modify_of_ne h₁.ne_zero,
      heap_modify_of_ne h₂.ne_zero, heap_modify_of_ne h₃.ne_zero, ok_bind, h₁.zero, ha₂, ha₃, hb₃,
      h₃.zero, node_put_self, node_put_of_ne hne₁, node_put_of_ne hne₂, node_put_of_ne hne₃,
      node_put_of_ne hne₃.symm, RbtreeT.zero, RbtreeT.setChild, RbtreeT.setColor,
      pure_eq_ok, newLeaf]
  · refine ⟨((((h₃.ok.put _).put _).put _).put _).put _, ?_, ?_, ?_, node_put_self _,
      fun x hx => ?_, ?_, ?_⟩
    · simp only [pool_put, h₁.pool, h₂.pool, h₃.pool]
    · grind [node_put_of_ne, node_put_self]
    · grind [node_put_of_ne, node_put_self]
    · have := hsame x hx
      have := h₁.fresh
      grind [node_put_of_ne, node_put_self]
    · grind
    · have := h₁.fresh
      have := h₁.ne_zero
      have := h₂.ne_zero
      have := h₃.ne_zero
      grind

/-- Three blocks are out that were free. -/
theorem NewNode.card_out {r : RbtreeT} (h : NewNode m m' a b c rest r) :
    m'.pool.out.card = m.pool.out.card + 3 := by
  have hnodup := h.nodup
  have hfresh := h.fresh
  simp only [List.nodup_cons, List.mem_cons, List.not_mem_nil, or_false, not_or] at hnodup hfresh
  rw [h.pool, Finset.card_insert_of_notMem, Finset.card_insert_of_notMem,
    Finset.card_insert_of_notMem]
  · exact (hfresh a (.inl rfl)).2
  · have hb := (hfresh b (.inr (.inl rfl))).2
    simp only [Finset.mem_insert, not_or]
    exact ⟨fun heq => hnodup.1.1 heq.symm, hb⟩
  · have hc := (hfresh c (.inr (.inr rfl))).2
    simp only [Finset.mem_insert, not_or]
    exact ⟨fun heq => hnodup.2.1 heq.symm, fun heq => hnodup.1.2 heq.symm, hc⟩

/-- The same, counted in the free blocks. -/
theorem NewNode.length_free {r : RbtreeT} (h : NewNode m m' a b c rest r)
    (hfree : m.pool.free = a :: b :: c :: rest) :
    m'.pool.free.length + 3 = m.pool.free.length := by
  rw [h.pool, hfree]
  rfl

/-- With less than three free blocks a null pointer is followed. -/
theorem setUp_error (key : BitVec 32) (data : ℕ) (type : BitVec 4) (hm : PoolOk m)
    (hlt : m.pool.free.length < 3) :
    setUp key data type m = .error .nullDeref := by
  have hmodify (m : Heap) (g : RbtreeT → RbtreeT) : m.modify 0 g = .error .nullDeref := rfl
  match hfree : m.pool.free with
  | [] => simp only [setUp, memCacheAlloc_nil hfree, hmodify, error_bind]
  | [a] =>
    obtain ⟨m₁, h₁⟩ := allocated hm hfree
    have hnil (r : RbtreeT) (m₂ : Heap) (hpool : m₂.pool = m₁.pool) :
        (m₂.put a r).memCacheAlloc = (0, m₂.put a r) :=
      memCacheAlloc_nil (by rw [pool_put, hpool, h₁.pool])
    simp only [setUp, h₁.eq, heap_modify_of_ne h₁.ne_zero, ok_bind, hnil, hmodify, error_bind]
  | [a, b] =>
    obtain ⟨m₁, h₁⟩ := allocated hm hfree
    obtain ⟨m₂, h₂⟩ := allocated (m := m₁.put a _)
      (h₁.ok.put
        { m₁.node a with color := .red, nil := false, type := type, key := key, data := data })
      (a := b) (congrArg FreeList.free h₁.pool)
    have hnil (r : RbtreeT) : (m₂.put a r).memCacheAlloc = (0, m₂.put a r) :=
      memCacheAlloc_nil (by rw [pool_put, h₂.pool])
    simp only [setUp, h₁.eq, heap_modify_of_ne h₁.ne_zero, ok_bind, h₂.eq, hnil,
      heap_modify_of_ne h₂.ne_zero, hmodify, error_bind]
  | a :: b :: c :: rest =>
    rw [hfree, List.length_cons, List.length_cons, List.length_cons] at hlt
    omega

end Cache

/-! ### The descent -/

/-- The place of a key, and the leaf there; `none` if the key is met before. -/
def seek (key : BitVec 32) : Place → Tree → Option (Place × ℕ)
  | fs, .leaf a => some (fs, a)
  | fs, .node c v l r =>
    if v.key = key then none
    else if v.key.slt key then seek key (⟨.right, c, v, l⟩ :: fs) r
    else seek key (⟨.left, c, v, r⟩ :: fs) l

section Descent

variable {m : Nodes} {key : BitVec 32} {fs fs' : Place} {t : Tree} {p : ℕ}

/-- The descent only looks for the place. -/
theorem plug_seek (h : seek key fs t = some (fs', p)) : plug fs' (.leaf p) = plug fs t := by
  induction t generalizing fs with
  | leaf a =>
    obtain ⟨rfl, rfl⟩ := Prod.mk.inj (Option.some.inj h)
    rfl
  | node c v l r ihl ihr =>
    rw [seek] at h
    split_ifs at h
    · exact ihr h
    · exact ihl h

theorem slt_of_not_slt {x y : BitVec 32} (hne : x ≠ y) (hlt : ¬x.slt y) : y.slt x := by
  rw [BitVec.slt_iff_toInt_lt] at hlt ⊢
  have hint : x.toInt ≠ y.toInt := fun heq => hne (BitVec.toInt_inj.mp heq)
  omega

/-- The loop of `rbtree_insert` on the records of a tree. -/
theorem descend_spec (key : BitVec 32) (fs : Place) (h : Holds m (plug fs t)) (fuel : ℕ) :
    descend m key fuel (addr t) = .ok ((seek key fs t).map Prod.snd) ∨
      descend m key fuel (addr t) = .error .diverges ∧ fuel ≤ t.height := by
  induction t generalizing fs fuel with
  | leaf a =>
    cases fuel with
    | zero => exact .inr ⟨rfl, Nat.zero_le _⟩
    | succ fuel =>
      left
      rw [descend, h.get_focus, ok_bind, addr_leaf, if_pos h.focus.nil]
      rfl
  | node c v l r ihl ihr =>
    cases fuel with
    | zero => exact .inr ⟨rfl, Nat.zero_le _⟩
    | succ fuel =>
      obtain ⟨hnil, hkey, -, hl, hr⟩ := h.focus.record
      have hright : Holds m (plug (⟨.right, c, v, l⟩ :: fs) r) := h
      have hleft : Holds m (plug (⟨.left, c, v, r⟩ :: fs) l) := h
      rw [descend, h.get_focus, ok_bind, addr_node, hnil, if_neg Bool.false_ne_true, hkey, hl, hr,
        seek]
      by_cases heq : v.key = key
      · rw [if_pos heq, if_pos heq]
        exact .inl rfl
      · rw [if_neg heq, if_neg heq]
        by_cases hlt : v.key.slt key
        · rw [if_pos hlt, if_pos hlt]
          refine (ihr _ hright fuel).imp_right fun hlow => ⟨hlow.1, ?_⟩
          rw [height]
          omega
        · rw [if_neg hlt, if_neg hlt, if_pos (slt_of_not_slt heq hlt)]
          refine (ihl _ hleft fuel).imp_right fun hlow => ⟨hlow.1, ?_⟩
          rw [height]
          omega

end Descent

/-! ### The way back to the root -/

section Rewind

variable {m : Nodes} {t : Tree} {a father : ℕ}

/-- From every record of a tree it is at most the height of the tree to its root. -/
theorem Sub.rewind (h : Sub m father t) (ha : a ∈ addrs t) (h0 : ∀ b ∈ addrs t, b ≠ 0) :
    ∃ k ≤ t.height, (∀ fuel ≤ k, rbtRewind m fuel a = .error .diverges) ∧
      ∀ fuel, rbtRewind m (fuel + k) a = rbtRewind m fuel (addr t) := by
  induction t generalizing father with
  | leaf b =>
    obtain rfl : a = b := by simpa [addrs, addrsOf, inorder] using ha
    exact ⟨0, le_rfl, fun fuel hle => by rw [Nat.le_zero.mp hle]; rfl, fun fuel => rfl⟩
  | node c v l r ihl ihr =>
    obtain ⟨-, hl, hr⟩ := h
    have hmem (b : ℕ) := (addrs_fork .left c v l r).mem_iff (a := b)
    simp only [fork, List.mem_cons, List.mem_append] at hmem
    have hv0 : v.addr ≠ 0 := h0 _ ((hmem _).mpr (.inl rfl))
    -- one more round from the root of a subtree
    have hup {x : Tree} (hx : Sub m v.addr x) (hx0 : addr x ≠ 0)
        (hheight : x.height < (node c v l r).height)
        (hrec : ∃ k ≤ x.height, (∀ fuel ≤ k, rbtRewind m fuel a = .error .diverges) ∧
          ∀ fuel, rbtRewind m (fuel + k) a = rbtRewind m fuel (addr x)) :
        ∃ k ≤ (node c v l r).height, (∀ fuel ≤ k, rbtRewind m fuel a = .error .diverges) ∧
          ∀ fuel, rbtRewind m (fuel + k) a = rbtRewind m fuel v.addr := by
      obtain ⟨k, hk, hlow, hhigh⟩ := hrec
      have hround (fuel : ℕ) : rbtRewind m (fuel + (k + 1)) a = rbtRewind m fuel v.addr := by
        rw [show fuel + (k + 1) = fuel + 1 + k by omega, hhigh, rbtRewind, get_of_ne hx0, ok_bind,
          hx.father_eq, if_pos hv0]
      refine ⟨k + 1, by omega, fun fuel hle => ?_, hround⟩
      rcases Nat.le_succ_iff.mp hle with hle | rfl
      · exact hlow fuel hle
      · have hzero := hround 0
        rw [Nat.zero_add] at hzero
        exact hzero
    rcases (hmem a).mp ha with rfl | ha | ha
    · exact ⟨0, Nat.zero_le _, fun fuel hle => by rw [Nat.le_zero.mp hle]; rfl, fun fuel => rfl⟩
    · have hl0 (b : ℕ) (hb : b ∈ addrs l) : b ≠ 0 := h0 b ((hmem b).mpr (.inr (.inl hb)))
      exact hup hl (hl0 _ (addr_mem_addrs l)) (Nat.lt_succ_of_le (Nat.le_max_left _ _))
        (ihl hl ha hl0)
    · have hr0 (b : ℕ) (hb : b ∈ addrs r) : b ≠ 0 := h0 b ((hmem b).mpr (.inr (.inr hb)))
      exact hup hr (hr0 _ (addr_mem_addrs r)) (Nat.lt_succ_of_le (Nat.le_max_right _ _))
        (ihr hr ha hr0)

/-- `rbt_rewind` gets to the root if it has as many rounds as the tree is high. -/
theorem Holds.rewind (h : Holds m t) (ha : a ∈ addrs t) (fuel : ℕ) :
    rbtRewind m fuel a = .ok (addr t) ∨
      rbtRewind m fuel a = .error .diverges ∧ fuel ≤ t.height := by
  obtain ⟨k, hk, hlow, hhigh⟩ := h.sub.rewind ha h.ne_zero
  by_cases hle : fuel ≤ k
  · exact .inr ⟨hlow fuel hle, hle.trans hk⟩
  · obtain ⟨n, rfl⟩ := Nat.exists_eq_add_of_lt (not_le.mp hle)
    have hroot : (m (addr t)).father = 0 := h.sub.father_eq
    left
    rw [show k + n + 1 = n + 1 + k by omega, hhigh, rbtRewind,
      get_of_ne (h.ne_zero _ (addr_mem_addrs t)), ok_bind, hroot]
    rfl

end Rewind

/-! ### The call -/

/-- The tree that a memory has at a root, or none at `NULL`. -/
def Rooted (m : Heap) (h : ℕ) : Option Tree → Prop
  | none => h = 0
  | some t => h = addr t ∧ Holds m.node t ∧ ∀ a ∈ addrs t, a ∈ m.pool.out

/-- What `rbtree_insert` returns, and what it makes of a tree, if it returns. `a` is the block for
the new node, `b` and `c` are those for its leaves. -/
def insertTree (key : BitVec 32) (data : ℕ) (type : BitVec 4) (a b c : ℕ) :
    Option Tree → Option (ℤ × Tree)
  | none => some (0, .node .black ⟨a, type, key, data⟩ (.leaf c) (.leaf b))
  | some t =>
    match seek key [] t with
    | none => some (-1, t)
    | some (fs, p) =>
      (insertFix fs (.node .red ⟨p, type, key, data⟩ (.leaf c) (.leaf b))).map (Prod.mk 0)

/-- The number of rounds that an insertion needs. -/
def insertRounds : Option Tree → ℕ
  | none => 0
  | some t => t.size + 1

/-- The blocks that a call takes from the cache. -/
def insertBlocks (o : Option Tree) (ret : ℤ) : ℕ := if o.isSome ∧ ret = 0 then 2 else 3

/-- What an insertion leaves: a tree, and so many blocks less in the cache. -/
structure Inserted (m m' : Heap) (h : ℕ) (t : Tree) (blocks : ℕ) : Prop where
  ok : PoolOk m'
  rooted : Rooted m' h (some t)
  free : m'.pool.free.length + blocks = m.pool.free.length
  out : m'.pool.out.card = m.pool.out.card + blocks

section Call

variable {m : Heap} {h a b c : ℕ} {rest : List ℕ} {key : BitVec 32} {data : ℕ} {type : BitVec 4}
  {o : Option Tree}

/-- The three blocks of a new node. -/
theorem addrs_new (col : Color) (v : NodeVal) :
    addrs (.node col v (.leaf c) (.leaf b)) = [c, v.addr, b] := rfl

/-- The record of a leaf that is set up. -/
theorem isLeaf_newLeaf (father : ℕ) : IsLeaf father (newLeaf.setFather father) :=
  ⟨fun s => by cases s <;> rfl, rfl, rfl, rfl⟩

/-- An insertion into an empty tree. -/
theorem rbtreeInsert_null (key : BitVec 32) (data : ℕ) (type : BitVec 4) (hm : PoolOk m)
    (hfree : m.pool.free = a :: b :: c :: rest) (fuel : ℕ) :
    ∃ m', rbtreeInsert fuel 0 key data type m = .ok (0, a, m') ∧
      Inserted m m' a (.node .black ⟨a, type, key, data⟩ (.leaf c) (.leaf b)) 3 := by
  obtain ⟨m₁, hset, h₁⟩ := setUp_eq key data type hm hfree
  obtain ⟨ha, hb, hc⟩ : a ≠ 0 ∧ b ≠ 0 ∧ c ≠ 0 := by
    have := h₁.fresh
    grind
  obtain ⟨hba, hca, hcb⟩ : b ≠ a ∧ c ≠ a ∧ c ≠ b := by
    have := h₁.nodup
    grind
  refine ⟨(((m₁.put a ⟨b, c, 0, .black, false, type, key, data⟩).put a
    ⟨b, c, 0, .black, false, type, key, data⟩).put c (newLeaf.setFather a)).put b
      (newLeaf.setFather a), ?_, ?_⟩
  · simp only [rbtreeInsert, hset, ok_bind, if_true, heap_modify_of_ne ha, heap_modify_of_ne hb,
      heap_modify_of_ne hc, h₁.node, h₁.right, h₁.left, node_put_self, node_put_of_ne hba,
      node_put_of_ne hca, node_put_of_ne hcb.symm, RbtreeT.setColor, RbtreeT.setFather, pure_eq_ok]
  · have haddrs := addrs_new (b := b) (c := c) .black ⟨a, type, key, data⟩
    have hleaf := isLeaf_newLeaf a
    refine ⟨(((h₁.ok.put _).put _).put _).put _, ⟨rfl, ⟨⟨?_, ?_, ?_⟩, ?_, ?_⟩, ?_⟩, ?_, ?_⟩
    · exact (node_put_of_ne hba.symm _).trans
        ((node_put_of_ne hca.symm _).trans (node_put_self _))
    · rwa [Sub, node_put_of_ne hcb, node_put_self]
    · rwa [Sub, node_put_self]
    · rw [haddrs]
      grind
    · rw [haddrs]
      grind
    · rw [haddrs]
      simp [h₁.pool]
    · exact h₁.length_free hfree
    · exact h₁.card_out

variable {t : Tree}

/-- The new node in the place of a leaf. -/
theorem Inserted.of_newNode {m₁ : Heap} {r : RbtreeT} (h₁ : NewNode m m₁ a b c rest r)
    (hr : Rooted m h (some t)) (hfree : m.pool.free = a :: b :: c :: rest) :
    Inserted m m₁ h t 3 := by
  obtain ⟨hroot, hholds, hout⟩ := hr
  refine ⟨h₁.ok, ⟨hroot, hholds.congr fun x hx => h₁.same x (hout x hx), fun x hx => ?_⟩,
    h₁.length_free hfree, h₁.card_out⟩
  simp [h₁.pool, hout x hx]

/-- An insertion of a key that is in the tree. -/
theorem rbtreeInsert_met (data : ℕ) (type : BitVec 4) (hm : PoolOk m)
    (hr : Rooted m h (some t)) (hfree : m.pool.free = a :: b :: c :: rest)
    (hmet : seek key [] t = none) (fuel : ℕ) :
    (∃ m', rbtreeInsert fuel h key data type m = .ok (-1, h, m') ∧ Inserted m m' h t 3) ∨
      (∃ e, rbtreeInsert fuel h key data type m = .error e) ∧ fuel ≤ t.size + 1 := by
  obtain ⟨m₁, hset, h₁⟩ := setUp_eq key data type hm hfree
  have hins := Inserted.of_newNode h₁ hr hfree
  obtain ⟨rfl, hholds, -⟩ := hins.rooted
  have ht0 : addr t ≠ 0 := hholds.ne_zero _ (addr_mem_addrs t)
  rcases descend_spec key [] hholds fuel with hdesc | ⟨hdesc, hle⟩
  · refine .inl ⟨m₁, ?_, hins⟩
    simp only [rbtreeInsert, hset, ok_bind, if_neg ht0, hdesc, hmet, Option.map_none, pure_eq_ok]
  · refine .inr ⟨⟨.diverges, ?_⟩, hle.trans (height_le_size t |>.trans (Nat.le_succ _))⟩
    simp only [rbtreeInsert, hset, ok_bind, if_neg ht0, hdesc, error_bind]

/-- The memory in which the node is in its place, before the rebalancing. -/
theorem rbtreeInsert_placed {m₁ : Heap} {fs : Place} {p : ℕ} (hr : Rooted m h (some t))
    (hfree : m.pool.free = a :: b :: c :: rest)
    (hset : setUp key data type m = .ok (a, b, c, m₁))
    (h₁ : NewNode m m₁ a b c rest ⟨b, c, 0, .red, false, type, key, data⟩)
    (hplug : plug fs (.leaf p) = t) (fuel : ℕ)
    (hdesc : descend m₁.node key fuel h = .ok (some p)) :
    let new : Tree := .node .red ⟨p, type, key, data⟩ (.leaf c) (.leaf b)
    ∃ m' : Heap, Holds m'.node (plug fs new) ∧ PoolOk m' ∧
      (∀ x ∈ addrs (plug fs new), x ∈ m'.pool.out) ∧
      m'.pool.free.length + 2 = m.pool.free.length ∧
      m'.pool.out.card = m.pool.out.card + 2 ∧
      rbtreeInsert fuel h key data type m = (do
        let node ← insertCase1 fuel p m'.node
        let h ← rbtRewind node fuel p
        return (0, h, { m' with node := node })) := by
  intro new
  have hins := Inserted.of_newNode h₁ hr hfree
  obtain ⟨rfl, hholds, hout⟩ := hr
  have hholds₁ : Holds m₁.node (plug fs (.leaf p)) := hplug ▸ hins.rooted.2.1
  have hpout : p ∈ m.pool.out := hout p (hplug ▸ (addrs_plug fs (.leaf p)).mem_iff.mpr
    (List.mem_append_left _ (addr_mem_addrs (.leaf p))))
  have haround (x : ℕ) (hx : x ∈ around fs) : x ∈ m.pool.out ∧ x ≠ p := by
    refine ⟨hout x (hplug ▸ (addrs_plug fs (.leaf p)).mem_iff.mpr (List.mem_append_right _ hx)), ?_⟩
    rintro rfl
    exact List.disjoint_of_nodup_append hholds₁.nodup_plug (addr_mem_addrs (.leaf x)) hx
  have ht0 : addr t ≠ 0 := hholds.ne_zero _ (addr_mem_addrs t)
  have hp0 : p ≠ 0 := hholds₁.focus_ne_zero (addr_mem_addrs (.leaf p))
  have hfather : (m₁.node p).father = up fs := hholds₁.father_eq
  have hfresh := h₁.fresh
  have hnodup := h₁.nodup
  simp only [List.nodup_cons, List.mem_cons, List.not_mem_nil, or_false, not_or] at hnodup hfresh
  obtain ⟨ha0, ha⟩ := hfresh a (.inl rfl)
  obtain ⟨hb0, hb⟩ := hfresh b (.inr (.inl rfl))
  obtain ⟨hc0, hc⟩ := hfresh c (.inr (.inr rfl))
  obtain ⟨⟨hab, hac⟩, hbc, -⟩ := hnodup
  -- the leaf and the three new blocks are four different ones
  have hpa : p ≠ a := ne_of_mem_of_not_mem hpout ha
  have hpb : p ≠ b := ne_of_mem_of_not_mem hpout hb
  have hpc : p ≠ c := ne_of_mem_of_not_mem hpout hc
  -- the new node is copied into the leaf, and its own block is given back
  set r : RbtreeT := ⟨b, c, up fs, .red, false, type, key, data⟩ with hrdef
  set m₂ := (((m₁.put a r).put p r).put c (newLeaf.setFather p)).put b (newLeaf.setFather p)
    with hm₂
  have hok₂ : PoolOk m₂ := (((h₁.ok.put _).put _).put _).put _
  have hpool₂ : m₂.pool = ⟨rest, insert c (insert b (insert a m.pool.out))⟩ := h₁.pool
  have hmem : a ∈ m₂.pool.out := by simp [hpool₂]
  have hperm : (addrs (plug fs new)).Perm ([c, p, b] ++ around fs) := addrs_plug fs new
  have hnode (x : ℕ) (hxa : x ≠ a) : (m₂.memCacheFree a).node x = m₂.node x := node_memCacheFree hxa
  have hcard : m₂.pool.out.card = m.pool.out.card + 3 := h₁.card_out
  refine ⟨m₂.memCacheFree a, ⟨?_, ?_, fun x hx => ?_⟩, hok₂.memCacheFree hmem ha0, fun x hx => ?_,
    ?_, ?_, ?_⟩
  · -- what is around the leaf is not written
    refine sub_plug_replace hholds₁.sub rfl (fun x hx => ?_) ⟨?_, ?_, ?_⟩
    · obtain ⟨hxout, hxp⟩ := haround x hx
      rw [hnode x (ne_of_mem_of_not_mem hxout ha), node_put_of_ne (ne_of_mem_of_not_mem hxout hb),
        node_put_of_ne (ne_of_mem_of_not_mem hxout hc), node_put_of_ne hxp,
        node_put_of_ne (ne_of_mem_of_not_mem hxout ha)]
    · exact (hnode p hpa).trans ((node_put_of_ne hpb _).trans
        ((node_put_of_ne hpc _).trans (node_put_self _)))
    · rw [Sub, hnode c (Ne.symm hac), node_put_of_ne (Ne.symm hbc), node_put_self]
      exact isLeaf_newLeaf p
    · rw [Sub, hnode b (Ne.symm hab), node_put_self]
      exact isLeaf_newLeaf p
  · refine hperm.nodup_iff.mpr (List.nodup_append.mpr ⟨?_, hholds₁.nodup_plug.of_append_right, ?_⟩)
    · grind
    · intro x hx y hy
      have := haround y hy
      grind
  · rcases List.mem_append.mp (hperm.mem_iff.mp hx) with hx | hx
    · grind
    · exact hholds₁.around_ne_zero hx
  · have hout₂ : (m₂.memCacheFree a).pool.out = m₂.pool.out.erase a := rfl
    rw [hout₂, hpool₂]
    rcases List.mem_append.mp (hperm.mem_iff.mp hx) with hx | hx
    · grind
    · have := haround x hx
      grind
  · have hlength := h₁.length_free hfree
    rw [show (m₂.memCacheFree a).pool.free = a :: m₁.pool.free from rfl, List.length_cons]
    omega
  · rw [show (m₂.memCacheFree a).pool.out = m₂.pool.out.erase a from rfl,
      Finset.card_erase_of_mem hmem, hcard]
    omega
  · simp only [rbtreeInsert, hset, ok_bind, if_neg ht0, hdesc, Heap.get, get_of_ne hp0,
      get_of_ne ha0, heap_modify_of_ne ha0, heap_modify_of_ne hp0, heap_modify_of_ne hb0,
      heap_modify_of_ne hc0, h₁.node, h₁.right, h₁.left, hfather, node_put_self,
      node_put_of_ne (Ne.symm hpc), node_put_of_ne (Ne.symm hac), node_put_of_ne hbc,
      node_put_of_ne (Ne.symm hpb), node_put_of_ne (Ne.symm hab), RbtreeT.setFather, pure_eq_ok,
      hm₂, hrdef]

/-- The end of an insertion: the rebalancing and the way back to the root. -/
theorem rebalance_spec {m : Nodes} {fs : Place} {t : Tree} (hne : ∀ k, t ≠ .leaf k)
    (hm : Holds m (plug fs t)) (fuel : ℕ) :
    (∃ m' t', insertCase1 fuel (addr t) m = .ok m' ∧ insertFix fs t = some t' ∧ Holds m' t' ∧
      rbtRewind m' fuel (addr t) = .ok (addr t')) ∨
    (∃ e, ∀ {β : Type} (k : Nodes → ℕ → β), (do
        let m' ← insertCase1 fuel (addr t) m
        let h ← rbtRewind m' fuel (addr t)
        return k m' h) = .error e) ∧ (insertFix fs t = none ∨ fuel ≤ (plug fs t).size) := by
  have hfix := insertCase1_spec fs fuel hne hm
  have hmem : addr t ∈ addrs (plug fs t) :=
    (addrs_plug fs t).mem_iff.mpr (List.mem_append_left _ (addr_mem_addrs t))
  have hlength := length_add_height_le fs t
  have hheight := height_le_size (plug fs t)
  cases hcase : insertCase1 fuel (addr t) m with
  | error e =>
    rw [hcase] at hfix
    exact .inr ⟨⟨e, fun k => rfl⟩, hfix.imp_right fun hle => by omega⟩
  | ok m' =>
    rw [hcase] at hfix
    cases hresult : insertFix fs t with
    | none =>
      rw [hresult] at hfix
      have hrewind := hfix.rbtRewind hmem fuel
      exact .inr ⟨⟨.diverges, fun k => by rw [ok_bind, hrewind, error_bind]⟩, .inl rfl⟩
    | some t' =>
      rw [hresult] at hfix
      have hword := inorder_insertFix hne hresult
      have hsize := size_eq_of_inorder hword
      have hheight' := height_le_size t'
      rcases hfix.rewind (addrs_congr hword ▸ hmem) fuel with hrewind | ⟨hrewind, hle⟩
      · exact .inl ⟨m', t', rfl, rfl, hfix, hrewind⟩
      · exact .inr ⟨⟨.diverges, fun k => by rw [ok_bind, hrewind, error_bind]⟩,
          .inr (by omega)⟩

/-- The call follows `insertTree`: it returns what that says, and where it does not return there is
nothing to return or the rounds were not enough. -/
theorem rbtreeInsert_spec (key : BitVec 32) (data : ℕ) (type : BitVec 4) (hm : PoolOk m)
    (hr : Rooted m h o) (hfree : m.pool.free = a :: b :: c :: rest) (fuel : ℕ) :
    (∃ ret t' h' m', rbtreeInsert fuel h key data type m = .ok (ret, h', m') ∧
      insertTree key data type a b c o = some (ret, t') ∧
      Inserted m m' h' t' (insertBlocks o ret)) ∨
    (∃ e, rbtreeInsert fuel h key data type m = .error e) ∧
      (insertTree key data type a b c o = none ∨ fuel ≤ insertRounds o) := by
  cases o with
  | none =>
    obtain rfl : h = 0 := hr
    obtain ⟨m', hcall, hins⟩ := rbtreeInsert_null key data type hm hfree fuel
    exact .inl ⟨0, _, a, m', hcall, rfl, hins⟩
  | some t =>
    cases hseek : seek key [] t with
    | none =>
      refine (rbtreeInsert_met data type hm hr hfree hseek fuel).imp ?_
        fun hlow => ⟨hlow.1, .inr hlow.2⟩
      rintro ⟨m', hcall, hins⟩
      exact ⟨-1, t, h, m', hcall, by rw [insertTree, hseek], hins⟩
    | some place =>
      obtain ⟨fs, p⟩ := place
      obtain ⟨m₁, hset, h₁⟩ := setUp_eq key data type hm hfree
      have hins := Inserted.of_newNode h₁ hr hfree
      have hplug : plug fs (.leaf p) = t := plug_seek hseek
      have hplaced := rbtreeInsert_placed hr hfree hset h₁ hplug fuel
      obtain ⟨rfl, hholds, -⟩ := hins.rooted
      have hlength := length_add_height_le fs (.leaf p : Tree)
      have hheight := height_le_size t
      rw [hplug] at hlength
      have htree : insertTree key data type a b c (some t) =
          (insertFix fs (.node .red ⟨p, type, key, data⟩ (.leaf c) (.leaf b))).map (Prod.mk 0) := by
        rw [insertTree, hseek]
      have hrounds : insertRounds (some t) = t.size + 1 := rfl
      -- the new cells are not read by the descent
      rcases descend_spec key [] hholds fuel with hdesc | ⟨hdesc, hle⟩
      · rw [hseek] at hdesc
        obtain ⟨m', hholds', hok', hout', hfree', hcard', hcall⟩ := hplaced hdesc
        have hsize := size_plug_add fs (.node .red ⟨p, type, key, data⟩ (.leaf c) (.leaf b))
          (.leaf p : Tree)
        rw [hplug, show (leaf p : Tree).size = 0 from rfl,
          show (node .red (⟨p, type, key, data⟩ : NodeVal) (leaf c) (leaf b)).size = 1 from rfl]
          at hsize
        rw [hcall, htree]
        rcases rebalance_spec (fun k heq => by cases heq) hholds' fuel with
          ⟨node, t', hcase, hfix, ht', hrewind⟩ | ⟨⟨e, herror⟩, hlow⟩
        · rw [addr_node] at hcase hrewind
          have hword := inorder_insertFix (fun k heq => by cases heq) hfix
          refine .inl ⟨0, t', addr t', { m' with node := node }, ?_, by rw [hfix]; rfl, ?_,
            ⟨rfl, ht', by rwa [addrs_congr hword]⟩, hfree', hcard'⟩
          · rw [hcase, ok_bind, hrewind]
            rfl
          · exact ⟨hok'.sound, hok'.ne_zero, hok'.last_free, hok'.last_out⟩
        · refine .inr ⟨⟨e, herror fun n h => ((0 : ℤ), h, ({ m' with node := n } : Heap))⟩, ?_⟩
          -- the rounds of the rebalancing are bounded by the height of the tree
          exact hlow.imp (fun hnone => by rw [hnone]; rfl) fun hle => by omega
      · refine .inr ⟨⟨.diverges, ?_⟩, .inr (by omega)⟩
        have ht0 : addr t ≠ 0 := hholds.ne_zero _ (addr_mem_addrs t)
        simp only [rbtreeInsert, hset, ok_bind, if_neg ht0, hdesc, error_bind]

theorem exists_of_three_le {l : List ℕ} (hle : 3 ≤ l.length) :
    ∃ a b c rest, l = a :: b :: c :: rest := by
  match l with
  | a :: b :: c :: rest => exact ⟨a, b, c, rest, rfl⟩
  | [] | [_] | [_, _] => simp at hle

/-- A call that returns has had its blocks, and returns what `insertTree` says. -/
theorem rbtreeInsert_ok {fuel h' : ℕ} {ret : ℤ} {m' : Heap} (hm : PoolOk m) (hr : Rooted m h o)
    (hcall : rbtreeInsert fuel h key data type m = .ok (ret, h', m')) :
    ∃ a b c rest t', m.pool.free = a :: b :: c :: rest ∧
      insertTree key data type a b c o = some (ret, t') ∧
      Inserted m m' h' t' (insertBlocks o ret) := by
  have hroom : 3 ≤ m.pool.free.length := by
    by_contra hlt
    rw [rbtreeInsert, setUp_error key data type hm (not_le.mp hlt)] at hcall
    cases hcall
  obtain ⟨a, b, c, rest, hfree⟩ := exists_of_three_le hroom
  rcases rbtreeInsert_spec key data type hm hr hfree fuel with
    ⟨ret', t', h'', m'', hok, htree, hins⟩ | ⟨⟨e, herror⟩, -⟩
  · rw [hcall] at hok
    obtain ⟨rfl, hrest⟩ := Prod.mk.inj (Except.ok.inj hok)
    obtain ⟨rfl, rfl⟩ := Prod.mk.inj hrest
    exact ⟨a, b, c, rest, t', hfree, htree, hins⟩
  · rw [hcall] at herror
    cases herror

end Call

end Rbtree

end Lidas
