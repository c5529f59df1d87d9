import Lidas.Lib.Assoc
import Lidas.Rbtree.Search

/-!
# What an insertion binds

`insertTree` on a tree in the order of the keys. The descent stops at the leaf where the key belongs
(`Between.seek`), or it meets the key. So a call that returns either refuses a key that is bound, or
it adds one binding, `insertTree_ordered`; it keeps the order of the keys.
-/

namespace Lidas

namespace Rbtree

open RbTree

/-- A key with its data and its type. -/
abbrev Entry : Type := BitVec 32 × ℕ × BitVec 4

def NodeVal.entry (v : NodeVal) : Entry := (v.key, v.data, v.type)

/-- The bindings of a tree, in the order of the keys. -/
def bindings (t : Tree) : List Entry := t.values.map NodeVal.entry

/-- The bindings at a root. -/
def bindingsOf (o : Option Tree) : List Entry := o.elim [] bindings

/-- The keys are those of the bindings. -/
theorem keys_eq_map_bindings (t : Tree) : keys t = (bindings t).map Prod.fst := by
  simp [keys, bindings, NodeVal.entry]

/-- The bindings depend on the inorder walk only. -/
theorem bindings_congr {t t' : Tree} (h : t'.inorder = t.inorder) : bindings t' = bindings t := by
  rw [bindings, values_eq_of_inorder h, bindings]

/-- The keys of a word. -/
def keysOf (w : List (NodeVal ⊕ ℕ)) : List (BitVec 32) := (w.filterMap Sum.getLeft?).map NodeVal.key

/-- A key belongs at a place. -/
def Between (key : BitVec 32) (fs : Place) : Prop :=
  (∀ x ∈ keysOf (before fs), x.slt key) ∧ ∀ x ∈ keysOf (after fs), key.slt x

section Descent

variable {key : BitVec 32} {fs fs' : Place} {t : Tree} {p : ℕ} {c : Color} {v : NodeVal}

theorem keysOf_append (w w' : List (NodeVal ⊕ ℕ)) : keysOf (w ++ w') = keysOf w ++ keysOf w' := by
  simp [keysOf]

/-- The keys of a subtree stand together in those of the whole. -/
theorem keys_plug (fs : Place) (t : Tree) :
    keys (plug fs t) = keysOf (before fs) ++ keys t ++ keysOf (after fs) := by
  rw [keys, values, inorder_plug, ← keysOf, keysOf_append, keysOf_append]
  rfl

theorem values_plug (fs : Place) (t : Tree) :
    (plug fs t).values = (before fs).filterMap Sum.getLeft? ++ t.values ++
      (after fs).filterMap Sum.getLeft? := by
  rw [values, inorder_plug, List.filterMap_append, List.filterMap_append]
  rfl

theorem between_nil (key : BitVec 32) : Between key [] := by simp [Between, keysOf, before, after]

/-- To the right of a node a larger key may stand. -/
theorem Between.right {l : Tree} (h : Between key fs) (hl : ∀ x ∈ keys l, x.slt v.key)
    (hlt : v.key.slt key) : Between key (⟨.right, c, v, l⟩ :: fs) := by
  refine ⟨fun x hx => ?_, h.2⟩
  have hbefore : keysOf (before (⟨.right, c, v, l⟩ :: fs)) =
      keysOf (before fs) ++ (keys l ++ [v.key]) := by
    simp only [before, Side.pick, keysOf_append]
    rfl
  rw [hbefore, List.mem_append, List.mem_append, List.mem_singleton] at hx
  rcases hx with hx | hx | rfl
  · exact h.1 x hx
  · exact slt_trans (hl x hx) hlt
  · exact hlt

/-- To the left a smaller one may. -/
theorem Between.left {r : Tree} (h : Between key fs) (hr : ∀ x ∈ keys r, v.key.slt x)
    (hlt : key.slt v.key) : Between key (⟨.left, c, v, r⟩ :: fs) := by
  refine ⟨?_, fun x hx => ?_⟩
  · have hbefore : keysOf (before (⟨.left, c, v, r⟩ :: fs)) = keysOf (before fs) := by
      simp [before, Side.pick]
    rw [hbefore]
    exact h.1
  · have hafter : keysOf (after (⟨.left, c, v, r⟩ :: fs)) =
        v.key :: (keys r ++ keysOf (after fs)) := by
      simp only [after, Side.pick, keysOf_append]
      rfl
    rw [hafter, List.mem_cons, List.mem_append] at hx
    rcases hx with rfl | hx | hx
    · exact hlt
    · exact slt_trans hlt (hr x hx)
    · exact h.2 x hx

/-- The descent stops where the key belongs. -/
theorem Between.seek (h : Between key fs) (hord : Ordered t)
    (hseek : Rbtree.seek key fs t = some (fs', p)) : Between key fs' := by
  induction t generalizing fs with
  | leaf a =>
    obtain ⟨rfl, rfl⟩ := Prod.mk.inj (Option.some.inj hseek)
    exact h
  | node c v l r ihl ihr =>
    obtain ⟨hl, hr, hlv, hvr⟩ := ordered_node.mp hord
    rw [Rbtree.seek] at hseek
    split_ifs at hseek with heq hlt
    · exact ihr (h.right hlv hlt) hr hseek
    · exact ihl (h.left hvr (slt_of_not_slt heq hlt)) hl hseek

/-- The descent meets the keys of the tree. -/
theorem seek_eq_none (key : BitVec 32) (hord : Ordered t) (fs : Place) :
    seek key fs t = none ↔ key ∈ keys t := by
  induction t generalizing fs with
  | leaf a => simp [seek, keys]
  | node c v l r ihl ihr =>
    obtain ⟨hl, hr, hlv, hvr⟩ := ordered_node.mp hord
    rw [seek, mem_keys_node]
    split_ifs with heq hlt
    · exact iff_of_true rfl (.inr (.inl heq.symm))
    · rw [ihr hr]
      refine ⟨fun h => .inr (.inr h), ?_⟩
      rintro (h | rfl | h)
      · exact absurd (hlv key h) (not_slt_of_slt hlt)
      · exact absurd rfl heq
      · exact h
    · rw [ihl hl]
      refine ⟨.inl, ?_⟩
      rintro (h | rfl | h)
      · exact h
      · exact absurd rfl heq
      · exact absurd (hvr key h) hlt

/-- A node at the place of its key. -/
theorem Ordered.plug (hord : Ordered (RbTree.plug fs (.leaf p))) (h : Between v.key fs)
    (a b : ℕ) : Ordered (RbTree.plug fs (.node c v (.leaf a) (.leaf b))) := by
  have hleaf : keys (.leaf p) = [] := rfl
  have hnode : keys (.node c v (.leaf a) (.leaf b)) = [v.key] := rfl
  rw [Ordered, keys_plug, hleaf, List.append_nil, List.pairwise_append] at hord
  obtain ⟨hbefore, hafter, hcross⟩ := hord
  rw [Ordered, keys_plug, hnode, List.append_assoc, List.pairwise_append]
  refine ⟨hbefore, List.pairwise_cons.mpr ⟨h.2, hafter⟩, fun x hx y hy => ?_⟩
  rcases List.mem_cons.mp hy with rfl | hy
  · exact h.1 x hx
  · exact hcross x hx y hy

/-- A new node adds its binding. -/
theorem bindings_plug_new (fs : Place) (c : Color) (v : NodeVal) (a b p : ℕ) :
    (bindings (plug fs (.node c v (.leaf a) (.leaf b)))).Perm
      (v.entry :: bindings (plug fs (.leaf p))) := by
  have hleaf : (.leaf p : Tree).values = [] := rfl
  have hnode : (.node c v (.leaf a) (.leaf b) : Tree).values = [v] := rfl
  rw [bindings, bindings, values_plug, values_plug, hleaf, hnode, List.append_nil,
    List.append_assoc, ← List.map_cons]
  exact List.perm_middle.map NodeVal.entry

end Descent

section Insertion

variable {key : BitVec 32} {data a b c : ℕ} {type : BitVec 4} {o : Option Tree} {ret : ℤ} {t : Tree}

/-- What an insertion returns, and what the tree binds then. -/
theorem insertTree_ordered (hord : ∀ t ∈ o, Ordered t)
    (h : insertTree key data type a b c o = some (ret, t)) :
    (ret = -1 ∧ o = some t ∧ key ∈ keys t) ∨
      ret = 0 ∧ key ∉ (bindingsOf o).map Prod.fst ∧ Ordered t ∧
        (bindings t).Perm ((key, data, type) :: bindingsOf o) := by
  cases o with
  | none =>
    obtain ⟨rfl, rfl⟩ := Prod.mk.inj (Option.some.inj h)
    exact .inr ⟨rfl, List.not_mem_nil, List.pairwise_singleton _ _, List.Perm.refl _⟩
  | some t₀ =>
    have hord₀ : Ordered t₀ := hord t₀ rfl
    have hnone := seek_eq_none key hord₀ []
    rw [insertTree] at h
    cases hseek : seek key [] t₀ with
    | none =>
      rw [hseek] at h
      obtain ⟨rfl, rfl⟩ := Prod.mk.inj (Option.some.inj h)
      exact .inl ⟨rfl, rfl, hnone.mp hseek⟩
    | some z =>
      obtain ⟨fs, p⟩ := z
      rw [hseek] at h
      obtain ⟨t', hfix, heq⟩ := Option.map_eq_some_iff.mp h
      obtain ⟨rfl, rfl⟩ := Prod.mk.inj heq
      have hplug : plug fs (.leaf p) = t₀ := plug_seek hseek
      have hword := inorder_insertFix (fun k heq => by cases heq) hfix
      have hbetween : Between key fs := Between.seek (between_nil key) hord₀ hseek
      right
      refine ⟨rfl, ?_, Ordered.congr (Ordered.plug (hplug ▸ hord₀) hbetween c b) hword, ?_⟩
      · rw [bindingsOf, Option.elim_some, ← keys_eq_map_bindings, ← hnone, hseek]
        exact Option.some_ne_none _
      · rw [bindings_congr hword, bindingsOf, Option.elim_some, ← hplug]
        exact bindings_plug_new fs .red ⟨p, type, key, data⟩ c b p

end Insertion

end Rbtree

end Lidas
