import Lidas.Rbtree.Bindings
import Lidas.Rbtree.Deletion
import Lidas.Rbtree.Sequences

/-!
# Deletions from red-black trees

What `rbtree_delete` does to one binding of a valid tree. A node with two children is the wrong one
to delete: the cleaner is called on the data of its replacement, too. So is a black node with two
leaves: its place is a black node short then, or the tree is a leaf, into which nothing can be
inserted. In a red-black tree a node with one child is black and the child red, so that
`delete_case1` is never called for a node that goes right.
-/

namespace Lidas

namespace Rbtree

open RbTree

/-- An insertion at a place asks for the father of the root, or for a rotation at the root. -/
def Turns : Place → Prop
  | [] => True
  | [f] => f.color = .red
  | f :: g :: gs => f.color = .red ∧ if g.sib.color = .red then gs ≠ [] ∧ Turns gs else gs = []

theorem insertFix_eq_none : ∀ {fs : Place} {t : Tree}, insertFix fs t = none ↔ Turns fs
  | [], t => iff_of_true rfl trivial
  | [f], t => by
    rw [insertFix, Turns]
    split_ifs with hblack
    · simp [hblack]
    · exact iff_of_true rfl (Color.ne_black.mp hblack)
  | f :: g :: gs, t => by
    rw [insertFix, Turns]
    by_cases hblack : f.color = .black
    · simp [hblack]
    · rw [if_neg hblack, and_iff_right (Color.ne_black.mp hblack)]
      by_cases huncle : g.sib.color = .red
      · rw [if_pos huncle, if_pos huncle]
        by_cases hroot : gs = []
        · simp [hroot]
        · rw [if_neg hroot, insertFix_eq_none, and_iff_right hroot]
      · rw [if_neg huncle, if_neg huncle, rotated]
        by_cases hroot : gs = []
        · simp [hroot]
        · simp [hroot]

section Shapes

variable {s : Side} {c : Color} {v : NodeVal} {x t : Tree} {fs : Place} {a : ℕ}

/-- The only child of a node is red, and the node black. -/
theorem one_child (h : Colored (plug fs (fork s c v (.leaf a) x))) (hx : ∀ k, x ≠ .leaf k) :
    c = .black ∧ x.color = .red := by
  obtain ⟨n, hn⟩ := h.balanced
  obtain ⟨k, hk⟩ := blackHeight_of_plug hn
  obtain ⟨m, hleaf, hxm, -⟩ := blackHeight_fork.mp hk
  obtain rfl : 0 = m := Option.some.inj hleaf
  have hred : x.color = .red := by
    cases x with
    | leaf k => exact absurd rfl (hx k)
    | node cx vx l r =>
      obtain ⟨m', -, -, hheight⟩ := blackHeight_node.mp hxm
      cases cx with
      | black => cases hheight
      | red => rfl
  refine ⟨Color.ne_red.mp fun hc => ?_, hred⟩
  have hblack := ((noRedRed_fork.mp (NoRedRed.of_plug h.noRedRed)).1 hc).2
  rw [hred] at hblack
  cases hblack

end Shapes

/-! ### The values that are left -/

section Values

variable {s : Side} {c : Color} {v : NodeVal} {x t t' : Tree} {fs : Place} {a : ℕ}
  {pre post : List NodeVal}

/-- The value of the node is taken out. -/
theorem values_removeOne (h : removeOne fs (fork s c v (.leaf a) x) = some t') :
    ∃ pre post, (plug fs (fork s c v (.leaf a) x)).values = pre ++ v :: post ∧
      t'.values = pre ++ post := by
  have hrest : t'.values = (plug fs x).values := by
    cases x with
    | leaf b =>
      rw [removeOne_leaf] at h
      rw [← Option.some.inj h, values_plug, values_plug]
      rfl
    | node cx vx lx rx =>
      rw [removeOne_node fun k heq => by cases heq] at h
      exact values_eq_of_inorder (inorder_unlink h)
  rw [hrest, values_plug, values_plug]
  cases s with
  | left =>
    exact ⟨(before fs).filterMap Sum.getLeft?, x.values ++ (after fs).filterMap Sum.getLeft?,
      by simp [fork], by simp⟩
  | right =>
    exact ⟨(before fs).filterMap Sum.getLeft? ++ x.values, (after fs).filterMap Sum.getLeft?,
      by simp [fork], by simp⟩

/-- The keys with their data. -/
def pairs (t : Tree) : List (BitVec 32 × ℕ) := t.values.map fun v => (v.key, v.data)

theorem keys_eq_map_pairs (t : Tree) : keys t = (pairs t).map Prod.fst := by
  simp [keys, pairs]

theorem Ordered.of_removed (hord : Ordered t) (hvalues : t.values = pre ++ v :: post)
    (hrest : t'.values = pre ++ post) : Ordered t' := by
  refine List.Pairwise.sublist (List.Sublist.map _ ?_) hord
  rw [hvalues, hrest]
  exact (List.sublist_cons_self v post).append_left pre

/-- The binding of the node is taken out. -/
theorem pairs_removed (hord : Ordered t) (hvalues : t.values = pre ++ v :: post)
    (hrest : t'.values = pre ++ post) :
    (pairs t').Perm ((pairs t).filter fun b => b.1 ≠ v.key) := by
  have hnodup : (keys t).Nodup := hord.imp ne_of_slt
  have hperm : (pairs t).Perm ((v.key, v.data) :: pairs t') := by
    rw [pairs, pairs, hvalues, hrest, ← List.map_cons (f := fun v : NodeVal => (v.key, v.data))]
    exact List.perm_middle.map _
  rw [keys_eq_map_pairs, (hperm.map Prod.fst).nodup_iff, List.map_cons, List.nodup_cons] at hnodup
  refine (List.Perm.trans ?_ (hperm.filter _).symm)
  rw [List.filter_cons_of_neg (by simp), List.filter_eq_self.mpr]
  intro b hb
  have hne : b.1 ≠ v.key := fun heq => hnodup.1 (List.mem_map.mpr ⟨b, hb, heq⟩)
  simpa using hne

end Values

/-! ### The deletion -/

/-- A red node with two leaves, or a node with one child, at a place, and the tree without it. -/
inductive Removable (fs : Place) : Tree → Tree → Prop
  | red (v : NodeVal) (a b : ℕ) :
    Removable fs (.node .red v (.leaf a) (.leaf b)) (plug fs (.leaf v.addr))
  | one (s : Side) (c : Color) (v : NodeVal) (a : ℕ) (cx : Color) (w : NodeVal) (l r : Tree) :
    Removable fs (fork s c v (.leaf a) (.node cx w l r)) (plug fs (.node .black w l r))

/-- Every pointer in the records of a tree is `NULL` or to a block that is not in the cache. -/
def NoDangling (m : Heap) (t : Tree) : Prop :=
  ∀ a ∈ addrs t, (m.node a).father ∉ m.pool.free ∧ (m.node a).lChild ∉ m.pool.free ∧
    (m.node a).rChild ∉ m.pool.free

/-- A new key can be inserted. -/
def TakesMore (m : Heap) (root : ℕ) (t : Tree) : Prop :=
  ∀ key data type, key ∉ keys t →
    ∃ fuel root' m', rbtreeInsert fuel root key data type m = .ok (0, root', m')

/-- What a deletion has to leave, `rest` being the other bindings. -/
structure LeavesValid (d : Deleted) (rest : List (BitVec 32 × ℕ)) (t : Tree) : Prop where
  rooted : Rooted d.heap d.root (some t)
  ordered : Ordered t
  colored : Colored t
  rest : (pairs t).Perm rest
  noDangling : NoDangling d.heap t
  takesMore : TakesMore d.heap d.root t

/-- A red-black tree, or none at a null pointer. -/
structure ValidTree where
  heap : Heap
  ok : PoolOk heap
  root : ℕ
  tree : Option Tree
  rooted : Rooted heap root tree
  ordered : ∀ t ∈ tree, Ordered t
  colored : ∀ t ∈ tree, Colored t

section Lemmas

variable {m : Heap} {root : ℕ} {t t' z : Tree} {fs : Place} {key : BitVec 32} {data : List ℕ}

theorem noDangling (hm : PoolOk m) (h : Rooted m root (some t)) : NoDangling m t := by
  obtain ⟨-, hholds, hout⟩ := h
  have hfree (p : ℕ) (hp : p = 0 ∨ p ∈ addrs t) : p ∉ m.pool.free := by
    rcases hp with rfl | hp
    · exact hm.ne_zero
    · exact fun hmem => hm.sound.disjoint p hmem (hout p hp)
  intro a ha
  obtain ⟨hfather, hchild⟩ := hholds.sub.links ha
  refine ⟨hfree _ ?_, hfree _ (hchild .left), hfree _ (hchild .right)⟩
  rcases hfather with rfl | hfather
  · exact .inl hholds.sub.father_eq
  · exact .inr hfather

/-- The insertions that return are those with enough blocks that do not turn the root. -/
theorem takesMore_iff (hm : PoolOk m) (h : Rooted m root (some t)) (hord : Ordered t)
    (hnew : ∃ k, k ∉ keys t) : TakesMore m root t ↔
      3 ≤ m.pool.free.length ∧
        ∀ k ∉ keys t, ∀ fs p, seek k [] t = some (fs, p) → ¬Turns fs := by
  constructor
  · intro htakes
    have hcalls (k : BitVec 32) (hk : k ∉ keys t) : ∃ a b c rest t',
        m.pool.free = a :: b :: c :: rest ∧ insertTree k 0 0 a b c (some t) = some (0, t') := by
      obtain ⟨fuel, root', m', hcall⟩ := htakes k 0 0 hk
      obtain ⟨a, b, c, rest, t', hfree, htree, -⟩ := rbtreeInsert_ok hm h hcall
      exact ⟨a, b, c, rest, t', hfree, htree⟩
    constructor
    · obtain ⟨k, hk⟩ := hnew
      obtain ⟨a, b, c, rest, -, hfree, -⟩ := hcalls k hk
      rw [hfree]
      exact Nat.le_add_left 3 rest.length
    · intro k hk fs p hseek hturns
      obtain ⟨a, b, c, rest, t', -, htree⟩ := hcalls k hk
      rw [insertTree, hseek] at htree
      dsimp only at htree
      rw [insertFix_eq_none.mpr hturns] at htree
      cases htree
  · rintro ⟨hroom, hturns⟩ k data type hk
    -- with three free blocks only a turn can keep the insertion from its end
    obtain ⟨a, b, c, rest, hfree⟩ := exists_of_three_le hroom
    rcases rbtreeInsert_spec k data type hm h hfree (insertRounds (some t) + 1) with
      ⟨ret, t', h', m', hok, htree, -⟩ | ⟨-, hnone | hle⟩
    · rcases insertTree_ordered (by simpa using hord) htree with ⟨-, heq, hmem⟩ | ⟨rfl, -⟩
      · obtain rfl := Option.some.inj heq
        exact absurd hmem hk
      · exact ⟨_, h', m', hok⟩
    · rw [insertTree] at hnone
      cases hseek : seek k [] t with
      | none => exact absurd ((seek_eq_none k hord []).mp hseek) hk
      | some place =>
        rw [hseek] at hnone
        exact absurd (insertFix_eq_none.mp (Option.map_eq_none_iff.mp hnone))
          (hturns k hk place.1 place.2 hseek)
    · exact absurd hle (Nat.not_succ_le_self _)

/-- A black node with two leaves cannot go. -/
theorem not_removable {v : NodeVal} {a b : ℕ} (hz : z = .node .black v (.leaf a) (.leaf b)) :
    ¬Removable fs z t' := by
  rintro (⟨v', a', b'⟩ | ⟨s, c, v', a', cx, w, l, r⟩)
  · cases hz
  · cases s <;> cases hz

/-- What is deleted of a red-black tree when a node goes that can. -/
theorem Removable.spec (h : Removable fs z t') (hcolored : Colored (plug fs z)) :
    Colored t' ∧ ∃ v pre post, deleteAt fs z = some (t', [v.data]) ∧
      (plug fs z).values = pre ++ v :: post ∧ t'.values = pre ++ post ∧
      ∃ c l r, z = .node c v l r := by
  cases h with
  | red v a b =>
    have hremove : removeOne fs (fork .left .red v (.leaf a) (.leaf b)) =
        some (plug fs (.leaf v.addr)) := removeOne_leaf b
    obtain ⟨pre, post, hvalues, hrest⟩ := values_removeOne hremove
    refine ⟨hcolored.replace rfl trivial rfl, v, pre, post, ?_, hvalues, hrest, _, _, _, rfl⟩
    exact deleteAt_fork fs .left .red v a (.leaf b)
  | one s c v a cx w l r =>
    obtain ⟨rfl, rfl⟩ : c = .black ∧ cx = .red := one_child hcolored fun k heq => by cases heq
    have hremove : removeOne fs (fork s .black v (.leaf a) (.node .red w l r)) =
        some (plug fs (.node .black w l r)) := removeOne_node fun k heq => by cases heq
    obtain ⟨pre, post, hvalues, hrest⟩ := values_removeOne hremove
    obtain ⟨n, hn⟩ := hcolored.balanced
    obtain ⟨k, hk⟩ := blackHeight_of_plug hn
    obtain ⟨m, hleaf, hx, -⟩ := blackHeight_fork.mp hk
    obtain rfl : 0 = m := Option.some.inj hleaf
    obtain ⟨m', hl, hr, hheight⟩ := blackHeight_node.mp hx
    obtain rfl : 0 = m' := hheight
    have hheights : (node .black w l r).blackHeight =
        (fork s .black v (.leaf a) (.node .red w l r)).blackHeight := by
      rw [blackHeight_node.mpr ⟨0, hl, hr, rfl⟩, blackHeight_fork.mpr ⟨0, hleaf, hx, rfl⟩]
    have hred := (noRedRed_fork.mp hcolored.noRedRed.of_plug).2.2.2
    refine ⟨hcolored.replace hheights ⟨fun hc => (by cases hc), hred⟩ rfl, v, pre, post, ?_,
      hvalues, hrest, .black, ?_⟩
    · rw [deleteAt_fork, hremove]
      rfl
    · cases s <;> exact ⟨_, _, rfl⟩

/-- A red-black tree is left only when a node goes that can, and not the last one. -/
theorem removable_of_deleteAt {d : ℕ} (hcolored : Colored (plug fs z))
    (hat : deleteAt fs z = some (t', [d])) (hcolored' : Colored t') (hleaf : ∀ a, t' ≠ .leaf a) :
    Removable fs z t' := by
  -- a node with a leaf at one side
  have hone {s : Side} {c : Color} {v : NodeVal} {a : ℕ} {x : Tree}
      (hcolored : Colored (plug fs (fork s c v (.leaf a) x)))
      (hat : deleteAt fs (fork s c v (.leaf a) x) = some (t', [d])) :
      Removable fs (fork s c v (.leaf a) x) t' := by
    rw [deleteAt_fork] at hat
    obtain ⟨t, hremove, heq⟩ := Option.map_eq_some_iff.mp hat
    obtain ⟨rfl, -⟩ := Prod.mk.inj heq
    cases x with
    | leaf b =>
      rw [removeOne_leaf] at hremove
      obtain rfl := Option.some.inj hremove
      cases c with
      | red =>
        cases s
        · exact .red v a b
        · exact .red v b a
      | black =>
        cases fs with
        | nil => exact absurd rfl (hleaf v.addr)
        | cons f fs =>
          -- the place is a black node short
          obtain ⟨n, hn⟩ := hcolored.balanced
          obtain ⟨n', hn'⟩ := hcolored'.balanced
          have heights := blackHeight_eq_of_plug hn hn'
          rw [blackHeight_fork.mpr ⟨0, rfl, rfl, rfl⟩] at heights
          cases heights
    | node cx w l r =>
      obtain ⟨rfl, rfl⟩ : c = .black ∧ cx = .red := one_child hcolored fun k heq => by cases heq
      have hremove' : removeOne fs (fork s .black v (.leaf a) (.node .red w l r)) =
          some (plug fs (.node .black w l r)) := removeOne_node fun k heq => by cases heq
      obtain rfl := Option.some.inj (hremove'.symm.trans hremove)
      exact .one s .black v a .red w l r
  cases z with
  | leaf a => cases hat
  | node c v l r =>
    cases l with
    | leaf a => exact hone (s := .left) hcolored hat
    | node cl vl ll lr =>
      cases r with
      | leaf b => exact hone (s := .right) hcolored hat
      | node cr vr rl rr =>
        obtain ⟨rel, cw, w, a, x, -, -, hdata⟩ := of_deleteAt_two hat
        cases hdata

end Lemmas

namespace ValidTree

variable (T : ValidTree) (key : BitVec 32)

/-- One binding is deleted, or nothing happens if there is none. -/
def Deletes : Prop :=
  ∃ fuel d, rbtreeDelete fuel key T.root T.heap = .ok d ∧
    match T.tree.bind (bound key) with
    | none => d.ret = -1 ∧ d.root = T.root ∧ d.heap = T.heap ∧ d.cleaned = []
    | some v => d.ret = 0 ∧ d.cleaned = [v.data] ∧
      ∃ t, LeavesValid d ((T.tree.elim [] pairs).filter fun b => b.1 ≠ key) t

/-- The node is found and can be removed, and no insertion of a new key turns the root of the tree
without it. -/
def Clears (t : Tree) : Prop :=
  T.heap.pool.free ≠ [] ∧ ∃ fs z t', search key [] t = some (fs, z) ∧ Removable fs z t' ∧
    ∀ k ∉ keys t', ∀ fs' p, seek k [] t' = some (fs', p) → ¬Turns fs'

variable {T key}

theorem rooted_of (T : ValidTree) {t : Tree} (ht : T.tree = some t) :
    Rooted T.heap T.root (some t) := ht ▸ T.rooted

/-- A key that is not in the tree is not found. -/
theorem deletes_of_notMem {t : Tree} (ht : T.tree = some t) (hkey : key ∉ keys t) :
    T.Deletes key := by
  have hsearch : search key [] t = none := by
    rw [← Option.not_isSome_iff_eq_none, isSome_search_iff (T.ordered t ht)]
    exact fun h => hkey h.1
  have htree : deleteTree key t = some (-1, t, []) := by rw [deleteTree, hsearch]
  rcases rbtreeDelete_spec key T.ok (T.rooted_of ht) (t.size + 3) with
    ⟨d, t', hcall, hd, her⟩ | ⟨-, hnone | hle⟩
  · rw [htree] at hd
    obtain ⟨hret, hrest⟩ := Prod.mk.inj (Option.some.inj hd)
    refine ⟨_, d, hcall, ?_⟩
    rw [ht, Option.bind_some, bound_eq_none.mpr hkey]
    exact ⟨hret.symm, (her.same hret.symm).2, (her.same hret.symm).1, (Prod.mk.inj hrest).2.symm⟩
  · rw [htree] at hnone
    cases hnone
  · omega

/-- The condition is enough: what is left is ordered and coloured, and takes the key again. -/
theorem deletes_of_clears {t : Tree} (ht : T.tree = some t) (h : T.Clears key t) :
    T.Deletes key := by
  obtain ⟨hfree, fs, z, t', hsearch, hremovable, hturns⟩ := h
  have hplug : plug fs z = t := (of_search hsearch).1
  have hord := T.ordered t ht
  obtain ⟨hcolored, v, pre, post, hat, hvalues, hrest, c, l, r, rfl⟩ :=
    hremovable.spec (hplug ▸ T.colored t ht)
  have hvkey : v.key = key := by
    obtain ⟨-, c', v', l', r', heq, hkey⟩ := of_search hsearch
    cases heq
    exact hkey
  subst hvkey
  rw [hplug] at hvalues
  have htree : deleteTree v.key t = some (0, t', [v.data]) := by
    rw [deleteTree, hsearch]
    dsimp only
    rw [hat]
    rfl
  have hbound : bound v.key t = some v := (bound_eq_some hord).mpr (by simp [hvalues])
  rcases rbtreeDelete_spec v.key T.ok (T.rooted_of ht) (t.size + 3) with
    ⟨d, t₁, hcall, hd, her⟩ | ⟨-, hnone | hle⟩
  · rw [htree] at hd
    obtain ⟨hret, hpair⟩ := Prod.mk.inj (Option.some.inj hd)
    obtain ⟨rfl, hdata⟩ := Prod.mk.inj hpair
    refine ⟨_, d, hcall, ?_⟩
    rw [ht, Option.bind_some, hbound, Option.elim_some]
    have hord' := hord.of_removed hvalues hrest
    have hpairs := pairs_removed hord hvalues hrest
    -- the key is not in the tree that is left, so that it can be inserted again
    have hnew : v.key ∉ keys t' := by
      rw [keys_eq_map_pairs]
      intro hmem
      obtain ⟨b, hb, heq⟩ := List.mem_map.mp ((hpairs.map Prod.fst).subset hmem)
      exact absurd heq (by simpa using (List.mem_filter.mp hb).2)
    refine ⟨hret.symm, hdata.symm, t', her.rooted, hord', hcolored, hpairs,
      noDangling her.ok her.rooted, ?_⟩
    refine (takesMore_iff her.ok her.rooted hord' ⟨v.key, hnew⟩).mpr ⟨?_, hturns⟩
    have hlength := her.free
    have hpos : 0 < T.heap.pool.free.length := List.length_pos_iff.mpr hfree
    rw [← hret, if_pos rfl] at hlength
    omega
  · rw [htree] at hnone
    cases hnone
  · omega

/-- The condition is needed: a tree that takes more has a free block, and its root does not turn. -/
theorem clears_of_deletes {t : Tree} (ht : T.tree = some t) (hkey : key ∈ keys t)
    (h : T.Deletes key) : T.Clears key t := by
  obtain ⟨fuel, d, hcall, hres⟩ := h
  have hord := T.ordered t ht
  rw [ht, Option.bind_some] at hres
  cases hbound : bound key t with
  | none => exact absurd hkey (bound_eq_none.mp hbound)
  | some v =>
    rw [hbound] at hres
    obtain ⟨hret, hdata, t', hleaves⟩ := hres
    obtain ⟨t₁, htree, her⟩ := rbtreeDelete_ok T.ok (T.rooted_of ht) hcall
    obtain rfl := her.rooted.unique hleaves.rooted
    rw [hret, hdata, deleteTree] at htree
    cases hsearch : search key [] t with
    | none =>
      rw [hsearch] at htree
      cases htree
    | some place =>
      obtain ⟨fs, z⟩ := place
      rw [hsearch] at htree
      have hplug : plug fs z = t := (of_search hsearch).1
      obtain ⟨⟨t₂, data⟩, hat, heq⟩ := Option.map_eq_some_iff.mp htree
      obtain ⟨-, hpair⟩ := Prod.mk.inj heq
      obtain ⟨rfl, rfl⟩ := Prod.mk.inj hpair
      -- the key has left the tree, so inserting it again has to be possible
      have hnew : key ∉ keys t₂ := by
        rw [keys_eq_map_pairs]
        intro hmem
        obtain ⟨b, hb, heq⟩ := List.mem_map.mp ((hleaves.rest.map Prod.fst).subset hmem)
        exact absurd heq (by simpa using (List.mem_filter.mp hb).2)
      obtain ⟨hroom, hturns⟩ := (takesMore_iff her.ok her.rooted hleaves.ordered
        ⟨key, hnew⟩).mp hleaves.takesMore
      have hlength := her.free
      rw [hret, if_pos rfl] at hlength
      refine ⟨fun hnil => ?_, fs, z, t₂, hsearch, removable_of_deleteAt (hplug ▸ T.colored t ht)
        hat hleaves.colored fun a hleaf => ?_, hturns⟩
      · rw [hnil, List.length_nil] at hlength
        omega
      · -- nothing can be inserted into a leaf
        subst hleaf
        exact hturns key hnew [] a rfl trivial

/-- One binding is deleted if the key is absent, or its node is one that can go. -/
theorem deletes_iff (T : ValidTree) (key : BitVec 32) :
    T.Deletes key ↔ ∃ t, T.tree = some t ∧ (key ∈ keys t → T.Clears key t) := by
  constructor
  · intro h
    cases ht : T.tree with
    | none =>
      obtain ⟨fuel, d, hcall, -⟩ := h
      have hroot : T.root = 0 := by
        have hrooted := T.rooted
        rwa [ht] at hrooted
      rw [hroot] at hcall
      cases fuel <;> cases hcall
    | some t => exact ⟨t, rfl, fun hkey => clears_of_deletes ht hkey h⟩
  · rintro ⟨t, ht, hclears⟩
    by_cases hkey : key ∈ keys t
    · exact deletes_of_clears ht (hclears hkey)
    · exact deletes_of_notMem ht hkey

/-- One key. -/
def oneKey : Tree := .node .black ⟨1, 0, 5, 7⟩ (.leaf 2) (.leaf 3)

/-- The tree of one key, with three free blocks. -/
def lastKey : ValidTree where
  heap := ⟨layout 0 oneKey, ⟨[4, 5, 6], {1, 2, 3}⟩, 10, 11⟩
  ok := ⟨⟨by decide, by decide⟩, by decide, by decide, by decide⟩
  root := 1
  tree := some oneKey
  rooted := ⟨rfl, holds_layout (by decide) (by decide), by decide⟩
  ordered := by simpa using (by decide : Ordered oneKey)
  colored := by simpa using ⟨rfl, by decide, 1, rfl⟩

/-- Its last key is deleted from a tree, and nothing can be inserted any more. -/
theorem not_forall_deletes : ¬∀ (T : ValidTree) (key : BitVec 32), T.Deletes key := by
  intro h
  obtain ⟨-, fs, z, t', hsearch, hremovable, -⟩ :=
    clears_of_deletes (T := lastKey) rfl (List.mem_singleton.mpr rfl) (h lastKey 5)
  obtain ⟨-, rfl⟩ := Prod.mk.inj (Option.some.inj (hsearch.symm.trans rfl))
  exact not_removable rfl hremovable

end ValidTree

end Rbtree

end Lidas
