import Lidas.Rbtree.Insertion

/-!
# Search

`rbtree_search` compares keys as unsigned numbers, and `rbtree_insert` as signed ones. At a node
whose key has the other top bit, the two go different ways; so a key is found if every node above it
has a key with the same top bit, and not otherwise (`right_iff`). At the root of an empty tree, a
null pointer is followed.
-/

namespace Lidas

namespace Rbtree

open RbTree

/-! ### Orders of keys -/

section Keys

variable {x y z : BitVec 32}

theorem slt_trans (h : x.slt y) (h' : y.slt z) : x.slt z := by
  rw [BitVec.slt_iff_toInt_lt] at *
  exact h.trans h'

theorem ne_of_slt (h : x.slt y) : x ≠ y := by
  rintro rfl
  exact lt_irrefl _ (BitVec.slt_iff_toInt_lt.mp h)

theorem not_slt_of_slt (h : x.slt y) : ¬y.slt x := by
  rw [BitVec.slt_iff_toInt_lt] at *
  exact h.le.not_gt

theorem ult_of_not_ult (hne : x ≠ y) (h : ¬x.ult y) : y.ult x := by
  rw [BitVec.ult_iff_toNat_lt] at h ⊢
  have hnat : x.toNat ≠ y.toNat := fun heq => hne (BitVec.toNat_inj.mp heq)
  omega

/-- The two orders agree on keys with the same top bit. -/
theorem slt_iff_ult (h : x.msb = y.msb) : x.slt y ↔ x.ult y := by
  rw [BitVec.slt_eq_ult, h]
  simp

/-- Where both orders agree, the top bits are equal. -/
theorem msb_eq_of_slt (h : x.ult y) (h' : x.slt y) : x.msb = y.msb := by
  rw [BitVec.slt_eq_ult, h] at h'
  simpa using h'

end Keys

/-- The keys of a tree, in order. -/
def keys (t : Tree) : List (BitVec 32) := t.values.map NodeVal.key

/-- The keys are in the order of `rbtree_insert`. -/
def Ordered (t : Tree) : Prop := (keys t).Pairwise fun x y => x.slt y

instance (t : Tree) : Decidable (Ordered t) := inferInstanceAs (Decidable (List.Pairwise _ _))

section Ordered

variable {c : Color} {v : NodeVal} {l r : Tree} {key : BitVec 32}

theorem keys_node : keys (.node c v l r) = keys l ++ v.key :: keys r := by simp [keys]

theorem mem_keys_node : key ∈ keys (.node c v l r) ↔ key ∈ keys l ∨ key = v.key ∨ key ∈ keys r := by
  rw [keys_node, List.mem_append, List.mem_cons]

/-- A tree is ordered if its subtrees are, and the root's key is between theirs. -/
theorem ordered_node : Ordered (.node c v l r) ↔
    Ordered l ∧ Ordered r ∧ (∀ x ∈ keys l, x.slt v.key) ∧ ∀ x ∈ keys r, v.key.slt x := by
  rw [Ordered, keys_node, List.pairwise_append, List.pairwise_cons]
  constructor
  · rintro ⟨hl, ⟨hvr, hr⟩, hlr⟩
    exact ⟨hl, hr, fun x hx => hlr x hx _ List.mem_cons_self, hvr⟩
  · rintro ⟨hl, hr, hlv, hvr⟩
    refine ⟨hl, ⟨hvr, hr⟩, fun x hx y hy => ?_⟩
    rcases List.mem_cons.mp hy with rfl | hy
    · exact hlv x hx
    · exact slt_trans (hlv x hx) (hvr y hy)

/-- The order is one of the inorder walk. -/
theorem Ordered.congr {t t' : Tree} (h : Ordered t) (hword : t'.inorder = t.inorder) :
    Ordered t' := by
  rwa [Ordered, keys, values_eq_of_inorder hword]

end Ordered

/-! ### The search -/

/-- The place and the tree that the loop of `rbtree_search` stops at, if it meets the key. -/
def search (key : BitVec 32) : Place → Tree → Option (Place × Tree)
  | _, .leaf _ => none
  | fs, .node c v l r =>
    if key = v.key then some (fs, .node c v l r)
    else if v.key.ult key then search key (⟨.right, c, v, l⟩ :: fs) r
    else search key (⟨.left, c, v, r⟩ :: fs) l

/-- Each node above one with the given key has a key with the same top bit. -/
def SameSign (key : BitVec 32) : Tree → Prop
  | .leaf _ => True
  | .node _ v l r =>
    (key ∈ keys l ∨ key ∈ keys r → v.key.msb = key.msb) ∧ SameSign key l ∧ SameSign key r

section Search

variable {m : Nodes} {key : BitVec 32} {fs fs' : Place} {t t' : Tree}

/-- What is found is the node with the key, at its place. -/
theorem of_search (h : search key fs t = some (fs', t')) :
    plug fs' t' = plug fs t ∧ ∃ c v l r, t' = .node c v l r ∧ v.key = key := by
  induction t generalizing fs with
  | leaf a => cases h
  | node c v l r ihl ihr =>
    rw [search] at h
    split_ifs at h with heq
    · obtain ⟨rfl, rfl⟩ := Prod.mk.inj (Option.some.inj h)
      exact ⟨rfl, c, v, l, r, rfl, heq.symm⟩
    · exact ihr h
    · exact ihl h

/-- The loop of `rbtree_search` on the records of a tree. -/
theorem searchLoop_spec (key : BitVec 32) (fs : Place) (h : Holds m (plug fs t)) (fuel : ℕ) :
    searchLoop m key fuel (addr t) = .ok ((search key fs t).elim 0 fun z => addr z.2) ∨
      searchLoop m key fuel (addr t) = .error .diverges ∧ fuel ≤ t.height := by
  induction t generalizing fs fuel with
  | leaf a =>
    cases fuel with
    | zero => exact .inr ⟨rfl, Nat.zero_le _⟩
    | succ fuel =>
      left
      rw [searchLoop, h.get_focus, ok_bind, addr_leaf, if_pos h.focus.nil]
      rfl
  | node c v l r ihl ihr =>
    cases fuel with
    | zero => exact .inr ⟨rfl, Nat.zero_le _⟩
    | succ fuel =>
      obtain ⟨hnil, hkey, -, hl, hr⟩ := h.focus.record
      have hright : Holds m (plug (⟨.right, c, v, l⟩ :: fs) r) := h
      have hleft : Holds m (plug (⟨.left, c, v, r⟩ :: fs) l) := h
      rw [searchLoop, h.get_focus, ok_bind, addr_node, hnil, if_neg Bool.false_ne_true, hkey, hl,
        hr, search]
      by_cases heq : key = v.key
      · rw [if_pos heq, if_pos heq]
        exact .inl rfl
      · rw [if_neg heq, if_neg heq]
        by_cases hlt : v.key.ult key
        · rw [if_pos hlt, if_pos hlt]
          refine (ihr _ hright fuel).imp_right fun hlow => ⟨hlow.1, ?_⟩
          rw [height]
          omega
        · rw [if_neg hlt, if_neg hlt, if_pos (ult_of_not_ult (Ne.symm heq) hlt)]
          refine (ihl _ hleft fuel).imp_right fun hlow => ⟨hlow.1, ?_⟩
          rw [height]
          omega

/-- There is no node above a key that is not there. -/
theorem sameSign_of_notMem (h : key ∉ keys t) : SameSign key t := by
  induction t with
  | leaf a => trivial
  | node c v l r ihl ihr =>
    rw [mem_keys_node, not_or, not_or] at h
    exact ⟨fun hmem => absurd hmem (not_or.mpr ⟨h.1, h.2.2⟩), ihl h.1, ihr h.2.2⟩

/-- In an ordered tree a key is found if it is there, with no key of the other sign above it. -/
theorem isSome_search_iff (hord : Ordered t) (fs : Place) :
    (search key fs t).isSome ↔ key ∈ keys t ∧ SameSign key t := by
  induction t generalizing fs with
  | leaf a => simp [search, keys]
  | node c v l r ihl ihr =>
    obtain ⟨hl, hr, hlv, hvr⟩ := ordered_node.mp hord
    have hnotl (hlt : v.key.slt key) : key ∉ keys l := fun hmem =>
      not_slt_of_slt hlt (hlv key hmem)
    have hnotr (hlt : key.slt v.key) : key ∉ keys r := fun hmem =>
      not_slt_of_slt hlt (hvr key hmem)
    rw [search, mem_keys_node, SameSign]
    by_cases heq : key = v.key
    · subst heq
      have hl' : v.key ∉ keys l := fun hmem => ne_of_slt (hlv _ hmem) rfl
      have hr' : v.key ∉ keys r := fun hmem => ne_of_slt (hvr _ hmem) rfl
      rw [if_pos rfl]
      exact iff_of_true rfl ⟨.inr (.inl rfl), fun _ => rfl, sameSign_of_notMem hl',
        sameSign_of_notMem hr'⟩
    · rw [if_neg heq]
      -- the search goes by the unsigned order, the tree is in the signed one
      by_cases hlt : v.key.ult key
      · rw [if_pos hlt, ihr hr]
        constructor
        · rintro ⟨hmem, hsame⟩
          exact ⟨.inr (.inr hmem), fun _ => msb_eq_of_slt hlt (hvr key hmem),
            sameSign_of_notMem fun hmem' => not_slt_of_slt (hvr key hmem) (hlv key hmem'), hsame⟩
        · rintro ⟨hmem, hroot, -, hsame⟩
          have hmem : key ∈ keys l ∨ key ∈ keys r := by tauto
          have hslt : v.key.slt key := (slt_iff_ult (hroot hmem)).mpr hlt
          exact ⟨hmem.resolve_left (hnotl hslt), hsame⟩
      · rw [if_neg hlt, ihl hl]
        have hlt := ult_of_not_ult (Ne.symm heq) hlt
        constructor
        · rintro ⟨hmem, hsame⟩
          exact ⟨.inl hmem, fun _ => (msb_eq_of_slt hlt (hlv key hmem)).symm, hsame,
            sameSign_of_notMem fun hmem' => not_slt_of_slt (hlv key hmem) (hvr key hmem')⟩
        · rintro ⟨hmem, hroot, hsame, -⟩
          have hmem : key ∈ keys l ∨ key ∈ keys r := by tauto
          have hslt : key.slt v.key := (slt_iff_ult (hroot hmem).symm).mpr hlt
          exact ⟨hmem.resolve_right (hnotr hslt), hsame⟩

/-- The node with a key. -/
def bound (key : BitVec 32) (t : Tree) : Option NodeVal := t.values.find? (·.key = key)

/-- No node has a key that is not there. -/
theorem bound_eq_none : bound key t = none ↔ key ∉ keys t := by
  simp [bound, keys]

/-- In an ordered tree there is one node with a key. -/
theorem bound_eq_some {v : NodeVal} (hord : Ordered t) :
    bound v.key t = some v ↔ v ∈ t.values := by
  refine ⟨List.mem_of_find?_eq_some, fun hmem => ?_⟩
  cases hb : bound v.key t with
  | none => exact absurd (List.mem_map_of_mem hmem) (bound_eq_none.mp hb)
  | some w =>
    have hkey : w.key = v.key := by simpa using List.find?_some hb
    have hnodup : (keys t).Nodup := hord.imp ne_of_slt
    rw [List.inj_on_of_nodup_map hnodup (List.mem_of_find?_eq_some hb) hmem hkey]

/-- A node's address is one of the tree's. -/
theorem mem_addrs_of_mem_values {v : NodeVal} (h : v ∈ t.values) : v.addr ∈ addrs t := by
  have hinl : Sum.inl v ∈ t.inorder := by simpa [values] using h
  exact List.mem_map_of_mem (f := Sum.elim NodeVal.addr id) hinl

/-- A node of a subtree is one of the whole tree. -/
theorem mem_values_plug {c : Color} {v : NodeVal} {l r : Tree} (fs : Place) :
    v ∈ (plug fs (.node c v l r)).values := by
  simp [values, inorder_plug, inorder]

/-- What the program finds. -/
def found (key : BitVec 32) (t : Tree) : Option NodeVal :=
  match search key [] t with
  | some (_, .node _ v _ _) => some v
  | _ => none

/-- What `rbtree_search` returns for a node that it finds, or for none. -/
def answer (cmd : ℕ) (o : Option NodeVal) : ℕ :=
  o.elim 0 fun v => if cmd = rbtSearch then v.data else if cmd = rbtDel then v.addr else 0

/-- On keys of one sign the two orders agree, so the program goes the right way at each node. -/
theorem found_of_sameSign (hord : Ordered t) (hsame : SameSign key t) :
    found key t = bound key t := by
  cases hsearch : search key [] t with
  | none =>
    have hkey : key ∉ keys t := fun hmem => by
      have hsome := (isSome_search_iff hord []).mpr ⟨hmem, hsame⟩
      rw [hsearch] at hsome
      exact Bool.false_ne_true hsome
    rw [found, hsearch, bound_eq_none.mpr hkey]
  | some z =>
    obtain ⟨fs, t'⟩ := z
    obtain ⟨hplug, c, v, l, r, rfl, rfl⟩ := of_search hsearch
    have hmem : v ∈ t.values := by
      have hv := mem_values_plug (c := c) (v := v) (l := l) (r := r) fs
      rwa [hplug] at hv
    rw [found, hsearch, (bound_eq_some hord).mpr hmem]

/-- At the first node of the other sign the program goes to the wrong side, where the key is not. -/
theorem found_of_not_sameSign (hord : Ordered t) (hsame : ¬SameSign key t) :
    found key t = none ∧ bound key t ≠ none := by
  refine ⟨?_, fun hnone => hsame (sameSign_of_notMem (bound_eq_none.mp hnone))⟩
  have hnone : search key [] t = none := by
    rw [← Option.not_isSome_iff_eq_none, isSome_search_iff hord]
    exact fun h => hsame h.2
  rw [found, hnone]

/-- `rbtree_search` on the records of a tree. -/
theorem rbtreeSearch_spec (key : BitVec 32) (h : Holds m t) (fuel cmd : ℕ) :
    rbtreeSearch m fuel key (addr t) cmd = .ok (answer cmd (found key t)) ∨
      rbtreeSearch m fuel key (addr t) cmd = .error .diverges ∧ fuel ≤ t.height := by
  rcases searchLoop_spec key [] h fuel with hloop | ⟨hloop, hle⟩
  · left
    rw [rbtreeSearch, hloop, ok_bind]
    cases hsearch : search key [] t with
    | none =>
      rw [found, hsearch]
      rfl
    | some z =>
      obtain ⟨fs, t'⟩ := z
      obtain ⟨hplug, c, v, l, r, rfl, -⟩ := of_search hsearch
      have hv : Holds m (plug fs (.node c v l r)) := by rwa [hplug]
      have hv0 : v.addr ≠ 0 := hv.focus_ne_zero (addr_mem_addrs (.node c v l r))
      rw [found, hsearch, Option.elim_some, addr_node, if_neg hv0, answer, Option.elim_some,
        get_of_ne hv0, ok_bind, hv.focus.record.2.2.1]
      split_ifs <;> rfl
  · exact .inr ⟨by rw [rbtreeSearch, hloop, error_bind], hle⟩

end Search

/-- A tree in the memory, with its keys in the order of `rbtree_insert`; `none` is the tree of a
null pointer. -/
structure OrderedTree where
  node : Nodes
  root : ℕ
  tree : Option Tree
  holds : tree.elim (root = 0) fun t => root = addr t ∧ Holds node t
  ordered : ∀ t ∈ tree, Ordered t

namespace OrderedTree

variable (T : OrderedTree) (key : BitVec 32)

/-- The two searches return what belongs to the node with the key, or `NULL`. -/
def Finds : Prop :=
  ∃ fuel, rbtreeSearch T.node fuel key T.root rbtSearch =
      .ok ((T.tree.bind (bound key)).elim 0 NodeVal.data) ∧
    rbtreeSearch T.node fuel key T.root rbtDel =
      .ok ((T.tree.bind (bound key)).elim 0 NodeVal.addr)

variable {T key}

/-- So both searches return what they should. -/
theorem finds_of_sameSign {t : Tree} (ht : T.tree = some t) (hsame : SameSign key t) :
    T.Finds key := by
  obtain ⟨hroot, hholds⟩ : T.root = addr t ∧ Holds T.node t := by
    have h := T.holds
    rwa [ht] at h
  have hspec (cmd : ℕ) := (rbtreeSearch_spec key hholds (t.height + 1) cmd).resolve_right
    fun hlow => Nat.not_succ_le_self _ hlow.2
  refine ⟨t.height + 1, ?_⟩
  rw [hroot, hspec, hspec, found_of_sameSign (T.ordered t ht) hsame, ht]
  exact ⟨rfl, rfl⟩

/-- A search that returns what it should has met no node of the other sign. -/
theorem Finds.sameSign (h : T.Finds key) : ∃ t, T.tree = some t ∧ SameSign key t := by
  obtain ⟨fuel, -, hdel⟩ := h
  have hholds := T.holds
  cases ht : T.tree with
  | none =>
    have hroot : T.root = 0 := by rwa [ht] at hholds
    rw [hroot] at hdel
    cases fuel <;> cases hdel
  | some t =>
    obtain ⟨hroot, hholds⟩ : T.root = addr t ∧ Holds T.node t := by rwa [ht] at hholds
    refine ⟨t, rfl, by_contra fun hsame => ?_⟩
    obtain ⟨hfound, hbound⟩ := found_of_not_sameSign (T.ordered t ht) hsame
    obtain ⟨v, hv⟩ := Option.ne_none_iff_exists'.mp hbound
    have hv0 : v.addr ≠ 0 :=
      hholds.ne_zero _ (mem_addrs_of_mem_values (List.mem_of_find?_eq_some hv))
    rw [ht, Option.bind_some, hv, hroot] at hdel
    rcases rbtreeSearch_spec key hholds fuel rbtDel with hspec | ⟨hspec, -⟩
    · rw [hspec, hfound] at hdel
      exact hv0 (Except.ok.inj hdel).symm
    · rw [hspec] at hdel
      cases hdel

/-- The search finds what the tree binds, if there is a tree, and no key above the one searched for
has another sign. -/
theorem finds_iff (T : OrderedTree) (key : BitVec 32) :
    T.Finds key ↔ ∃ t, T.tree = some t ∧ SameSign key t :=
  ⟨Finds.sameSign, fun ⟨_, ht, hsame⟩ => finds_of_sameSign ht hsame⟩

/-- The tree after the keys 1 and -1. -/
def mixed : Tree :=
  .node .black ⟨1, 0, 1, 7⟩ (.node .red ⟨2, 0, -1, 8⟩ (.leaf 3) (.leaf 4)) (.leaf 5)

/-- The key -1 is not found there: as an unsigned number it is the greater one. -/
theorem not_forall_finds : ¬∀ (T : OrderedTree) (key : BitVec 32), T.Finds key := by
  intro h
  obtain ⟨t, ht, hsame⟩ := Finds.sameSign (h ⟨layout 0 mixed, 1, some mixed,
    ⟨rfl, holds_layout (by decide) (by decide)⟩, by simpa using (by decide : Ordered mixed)⟩ (-1))
  obtain rfl : mixed = t := Option.some.inj ht
  exact absurd (hsame.1 (by decide)) (by decide)

end OrderedTree

end Rbtree

end Lidas
