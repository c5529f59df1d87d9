import Lidas.Rbtree.Delete
import Lidas.Rbtree.Search

/-!
# Deletion

`rbtree_delete` as a whole. A node with two leaves becomes a leaf; one with one leaf is unlinked and
its other child rebalanced; one with two children gets the key and the data of another node, which
is deleted in its place, and the cleaner is called a second time. `deleteTree` is what the call
makes of a tree, if it returns, and `rbtreeDelete_spec` says that the records follow it.
-/

namespace Lidas

namespace Rbtree

open RbTree

/-- What a place is left with when a node of colour `c` there has gone, and its child is `x`. -/
def unlink (fs : Place) (c : Color) (x : Tree) : Option Tree :=
  if c = .red then some (plug fs x)
  else if x.color = .red then some (plug fs (x.paint .black))
  else deleteFix fs x

/-- A node with at most one child is deleted. -/
def removeOne (fs : Place) : Tree → Option Tree
  | .leaf _ => none
  | .node _ v (.leaf _) (.leaf _) => some (plug fs (.leaf v.addr))
  | .node c _ (.leaf _) r => unlink fs c r
  | .node c _ l (.leaf _) => unlink fs c l
  | _ => none

/-- The node that the `for` loop of `rbtree_delete` finds, with the way to it. -/
def replacement : Place → Tree → Option (Place × Tree)
  | _, .leaf _ => none
  | fs, .node c v (.leaf a) r => some (fs, .node c v (.leaf a) r)
  | fs, .node c v l r => replacement (⟨.right, c, v, l⟩ :: fs) r

/-- What `rbtree_delete` makes of a node at a place: the tree, and the data for the cleaner. -/
def deleteAt (fs : Place) : Tree → Option (Tree × List ℕ)
  | .node c v (.node cl vl ll lr) (.node cr vr rl rr) =>
    match replacement [] (.node cl vl ll lr) with
    | some (rel, .node cw w x y) =>
      let v' : NodeVal := { v with key := w.key, data := w.data }
      (removeOne (rel ++ ⟨.left, c, v', .node cr vr rl rr⟩ :: fs) (.node cw w x y)).map
        fun t => (t, [v.data, w.data])
    | _ => none
  | .node c v l r => (removeOne fs (.node c v l r)).map fun t => (t, [v.data])
  | .leaf _ => none

/-- What `rbtree_delete` returns, what it makes of a tree and what it calls the cleaner on, if it
returns. -/
def deleteTree (key : BitVec 32) (t : Tree) : Option (ℤ × Tree × List ℕ) :=
  match search key [] t with
  | none => some (-1, t, [])
  | some (fs, t') => (deleteAt fs t').map (Prod.mk 0)

section Relinking

variable {m m₁ : Heap} {s : Side} {c : Color} {v : NodeVal} {x t : Tree} {fs : Place} {a n p : ℕ}

theorem heap_modify_eq {g : RbtreeT → RbtreeT} {node : Nodes}
    (h : m.node.modify p g = .ok node) : m.modify p g = .ok { m with node := node } := by
  rw [Heap.modify, h]
  rfl

/-- The cache does not depend on the records. -/
theorem PoolOk.node (hm : PoolOk m) (node : Nodes) : PoolOk { m with node := node } :=
  ⟨hm.sound, hm.ne_zero, hm.last_free, hm.last_out⟩

/-- The node at a place is taken out, and a tree below it put in its place. -/
theorem Holds.relink (h : Holds m.node (plug fs (fork s c v (.leaf a) x)))
    (hsame : ∀ y ≠ a, m₁.node y = m.node y) :
    ∃ node, Rbtree.relink v.addr (addr x) (up fs) m₁ = .ok { m₁ with node := node } ∧
      Holds node (plug fs x) ∧ ∀ y ∉ addrs (plug fs x), node y = m₁.node y := by
  obtain ⟨-, -, hx⟩ := sub_fork.mp h.focus
  have haround := (sub_plug.mp h.sub).2
  rw [addr_fork] at haround
  have hperm : (addrs (fork s c v (.leaf a) x)).Perm (v.addr :: a :: addrs x) :=
    addrs_fork s c v (.leaf a) x
  -- the node, its leaf, its child and what is around them have no address in common
  have hnodup := (hperm.append_right (around fs)).nodup_iff.mp h.nodup_plug
  have hmem (y : ℕ) : y ∈ addrs (plug fs x) ↔ y ∈ addrs x ∨ y ∈ around fs :=
    (addrs_plug fs x).mem_iff.trans List.mem_append
  simp only [List.cons_append, List.nodup_cons, List.mem_cons, List.mem_append, not_or] at hnodup
  obtain ⟨⟨-, hvx, hvf⟩, ⟨hax, haf⟩, hrest⟩ := hnodup
  have hxnodup := hrest.of_append_left
  have hdisj := List.disjoint_of_nodup_append hrest
  have hxmem := addr_mem_addrs x
  have hx0 : addr x ≠ 0 := h.focus_ne_zero (hperm.mem_iff.mpr (by simp [hxmem]))
  have hx₁ : Sub m₁.node v.addr x := hx.congr fun y hy => hsame y (ne_of_mem_of_not_mem hy hax)
  have hnull (y : ℕ) (hy : y ∈ addrs (plug fs x)) : y ≠ 0 := by
    rcases (hmem y).mp hy with hy | hy
    · exact h.focus_ne_zero (hperm.mem_iff.mpr (by simp [hy]))
    · exact h.around_ne_zero hy
  have hnodup' : (addrs (plug fs x)).Nodup := (addrs_plug fs x).nodup_iff.mpr hrest
  cases fs with
  | nil =>
    refine ⟨_, heap_modify_eq (modify_of_ne hx0 _), ⟨?_, hnodup', hnull⟩, fun y hy => ?_⟩
    · exact hx₁.refather hxnodup (Function.update_self ..)
        fun y _ hne => Function.update_of_ne hne ..
    · exact Function.update_of_ne (ne_of_mem_of_not_mem ((hmem _).mpr (.inl hxmem)) hy).symm ..
  | cons f fs =>
    obtain ⟨hf, hsib, haround⟩ := haround
    have hfmem : f.val.addr ∈ around (f :: fs) := List.mem_cons_self
    have hf0 : f.val.addr ≠ 0 := h.around_ne_zero hfmem
    have hfx : f.val.addr ≠ addr x := fun heq => hdisj hxmem (heq ▸ hfmem)
    have hfa : f.val.addr ≠ a := ne_of_mem_of_not_mem hfmem haf
    have hleft := h.eq_lChild_iff
    rw [addr_fork] at hleft
    -- first the child gets its father, then the father gets its child
    set node₂ := Function.update m₁.node (addr x) ((m₁.node (addr x)).setFather f.val.addr)
      with hnode₂
    have hf₂ : node₂ f.val.addr = m.node f.val.addr :=
      (Function.update_of_ne hfx ..).trans (hsame _ hfa)
    set node₃ := Function.update node₂ f.val.addr ((node₂ f.val.addr).setChild f.side (addr x))
      with hnode₃
    have hother (y : ℕ) (hyx : y ≠ addr x) (hyf : y ≠ f.val.addr) : node₃ y = m₁.node y :=
      (Function.update_of_ne hyf ..).trans (Function.update_of_ne hyx ..)
    have hfnodup := List.nodup_cons.mp hrest.of_append_right
    have houter (y : ℕ) (hy : y ∈ addrs f.sib ++ around fs) : node₃ y = m.node y := by
      have hymem : y ∈ around (f :: fs) := List.mem_cons_of_mem _ hy
      refine (hother y ?_ (ne_of_mem_of_not_mem hy hfnodup.1)).trans
        (hsame y (ne_of_mem_of_not_mem hymem haf))
      exact fun heq => hdisj hxmem (heq ▸ hymem)
    refine ⟨node₃, ?_, ⟨sub_plug.mpr ⟨?_, ?_, ?_, ?_⟩, hnodup', hnull⟩, fun y hy => ?_⟩
    · have hside : (if v.addr = (node₂ f.val.addr).lChild then Side.left else .right) = f.side := by
        rw [hf₂, if_congr hleft rfl rfl]
        cases f.side <;> rfl
      have h₂ : m₁.modify (addr x) (.setFather f.val.addr) = .ok { m₁ with node := node₂ } :=
        heap_modify_eq (modify_of_ne hx0 _)
      have h₃ : ({ m₁ with node := node₂ } : Heap).modify f.val.addr (.setChild f.side (addr x)) =
          .ok { m₁ with node := node₃ } := heap_modify_eq (modify_of_ne hf0 _)
      rw [Rbtree.relink, up_cons, if_neg hf0, h₂, ok_bind, Heap.get, get_of_ne hf0, ok_bind]
      dsimp only
      rw [hside, h₃]
    · refine hx₁.refather hxnodup ?_ fun y hy hne => ?_
      · exact (Function.update_of_ne hfx.symm ..).trans (Function.update_self ..)
      · exact hother y hne fun heq => hdisj hy (heq ▸ hfmem)
    · rw [hnode₃, Function.update_self, hf₂, hf, cell_setChild]
    · exact hsib.congr fun y hy => houter y (List.mem_append_left _ hy)
    · exact haround.congr fun y hy => houter y (List.mem_append_right _ hy)
    · have hymem (z : ℕ) (hz : z ∈ addrs (plug (f :: fs) x)) : y ≠ z :=
        (ne_of_mem_of_not_mem hz hy).symm
      exact hother y (hymem _ ((hmem _).mpr (.inl hxmem))) (hymem _ ((hmem _).mpr (.inr hfmem)))

end Relinking

section Unlinking

variable {m m' : Heap} {s : Side} {c : Color} {v : NodeVal} {x t t' : Tree} {fs : Place}
  {a p root : ℕ} {node node' : Nodes} {as : List ℕ} {o : Option Tree} {cleaned : List ℕ}

/-- A node that goes leaves the inorder walk of its child at its place. -/
theorem inorder_unlink (h : unlink fs c x = some t') : t'.inorder = (plug fs x).inorder := by
  rw [unlink] at h
  split_ifs at h
  · rw [← Option.some.inj h]
  · rw [← Option.some.inj h]
    exact inorder_plug_congr (inorder_paint .black x) fs
  · exact inorder_deleteFix h

/-- Cells that are not written stay closed. -/
theorem Closed.congr (h : Closed node as) (hsame : ∀ a ∈ as, node' a = node a) :
    Closed node' as := by
  refine ⟨h.ne_zero, fun a ha => ?_, fun a ha s => ?_⟩
  · rw [hsame a ha]
    exact h.father a ha
  · rw [hsame a ha]
    exact h.child a ha s

/-- What a call leaves is not touched by writes elsewhere. -/
theorem Leaves.congr (h : Leaves node as o) (hmem : ∀ t ∈ o, addrs t = as)
    (hsame : ∀ a ∈ as, node' a = node a) : Leaves node' as o := by
  cases o with
  | none => exact Closed.congr h hsame
  | some t => exact Holds.congr h fun a ha => hsame a (hmem t rfl ▸ ha)

/-- The colour of the child that has taken the place of a node of colour `c`. -/
theorem recolor_spec (h : Holds m.node (plug fs x)) (fuel : ℕ) :
    (∃ node, (if c = .black then recolor fuel (addr x) m else .ok m) =
        .ok { m with node := node } ∧ Leaves node (addrs (plug fs x)) (unlink fs c x)) ∨
      (∃ e, (if c = .black then recolor fuel (addr x) m else .ok m) = .error e) ∧
        (unlink fs c x = none ∨ fuel ≤ fs.length) := by
  cases c with
  | red => exact .inl ⟨m.node, rfl, h⟩
  | black =>
    have hne : Color.black ≠ .red := by decide
    rw [if_pos rfl, recolor, Heap.get, h.get_focus, ok_bind, h.focus.color_eq, unlink, if_neg hne]
    split_ifs with hred
    · obtain ⟨node, hpaint, h'⟩ := h.paint (.inl rfl)
      exact .inl ⟨node, heap_modify_eq hpaint, h'⟩
    · have hfix := deleteCase1_spec fs fuel (Color.ne_red.mp hred) h
      cases hcase : deleteCase1 fuel (addr x) m.node with
      | error e =>
        rw [hcase] at hfix
        exact .inr ⟨⟨e, rfl⟩, hfix⟩
      | ok node =>
        rw [hcase] at hfix
        exact .inl ⟨node, rfl, hfix⟩

/-- What a deletion leaves that calls the cleaner on the given data: a tree, and two blocks more in
the cache. -/
structure Removed (m : Heap) (t : Tree) (data : List ℕ) (d : Deleted) : Prop where
  ret : d.ret = 0
  cleaned : d.cleaned = data
  ok : PoolOk d.heap
  rooted : Rooted d.heap d.root (some t)
  free : d.heap.pool.free.length = m.pool.free.length + 2
  out : d.heap.pool.out.card + 2 = m.pool.out.card

theorem card_erase_erase {out : Finset ℕ} {b : ℕ} (ha : a ∈ out) (hb : b ∈ out) (hne : b ≠ a) :
    ((out.erase a).erase b).card + 2 = out.card := by
  rw [Finset.card_erase_of_mem (Finset.mem_erase.mpr ⟨hne, hb⟩), Finset.card_erase_of_mem ha]
  have hlt : 1 < out.card := Finset.one_lt_card.mpr ⟨b, hb, a, ha, hne⟩
  omega

/-- The root's address depends at most on the subtree's. -/
theorem addr_plug_congr (h : addr t = addr t') (fs : Place) :
    addr (plug fs t) = addr (plug fs t') := by
  induction fs generalizing t t' with
  | nil => exact h
  | cons f fs ih => exact ih (by rw [addr_fork, addr_fork])

/-- What is taken out with a node that has a leaf. -/
theorem addrs_plug_fork (fs : Place) (s : Side) (c : Color) (v : NodeVal) (a : ℕ) (x : Tree) :
    (addrs (plug fs (fork s c v (.leaf a) x))).Perm (v.addr :: a :: addrs (plug fs x)) := by
  refine (addrs_plug fs _).trans (((addrs_fork s c v (.leaf a) x).append_right _).trans ?_)
  exact ((addrs_plug fs x).symm.cons a).cons v.addr

/-- The branch of `rbtree_delete` for a node with one leaf. -/
theorem deleteOne_spec (hm : PoolOk m)
    (h : Rooted m root (some (plug fs (fork s c v (.leaf a) x)))) (fuel : ℕ) :
    (∃ d t, deleteOne fuel s v.addr m cleaned = .ok d ∧ unlink fs c x = some t ∧
      Removed m t (cleaned ++ [v.data]) d) ∨
    (∃ e, deleteOne fuel s v.addr m cleaned = .error e) ∧
      (unlink fs c x = none ∨ fuel ≤ (plug fs x).size) := by
  obtain ⟨-, hholds, hout⟩ := h
  have hv : m.node v.addr = cell s a (addr x) (up fs) c v := (sub_fork.mp hholds.focus).1
  have hperm := addrs_plug_fork fs s c v a x
  have hmem (y : ℕ) := hperm.mem_iff (a := y)
  have hnodup := hperm.nodup_iff.mp hholds.nodup
  simp only [List.nodup_cons, List.mem_cons, not_or] at hnodup hmem
  obtain ⟨⟨hva, hvT⟩, haT, -⟩ := hnodup
  have hvmem := (hmem v.addr).mpr (.inl rfl)
  have hamem := (hmem a).mpr (.inr (.inl rfl))
  have hv0 : v.addr ≠ 0 := hholds.ne_zero _ hvmem
  have hxT : addr x ∈ addrs (plug fs x) :=
    (addrs_plug fs x).mem_iff.mpr (List.mem_append_left _ (addr_mem_addrs x))
  have hm₁ : PoolOk (m.memCacheFree a) := hm.memCacheFree (hout a hamem) (hholds.ne_zero a hamem)
  have hsame₁ (y : ℕ) (hy : y ≠ a) : (m.memCacheFree a).node y = m.node y := node_memCacheFree hy
  obtain ⟨node₂, hrelink, h₂, hsame₂⟩ := hholds.relink hsame₁
  have hv₂ : node₂ v.addr = m.node v.addr := (hsame₂ v.addr hvT).trans (hsame₁ _ hva)
  -- the call up to the colour of `t`
  have hcall : deleteOne fuel s v.addr m cleaned = (do
      let m ← (if c = .black then recolor fuel (addr x) { m.memCacheFree a with node := node₂ }
        else .ok { m.memCacheFree a with node := node₂ })
      let m := m.memCacheFree v.addr
      return { ret := 0, root := ← rbtRewind m.node fuel (addr x), heap := m,
               cleaned := cleaned ++ [v.data] }) := by
    simp only [deleteOne, Heap.get, get_of_ne hv0, ok_bind, hv, cell_child, cell_child_other,
      hsame₁ _ hva, cell_father, hrelink, hv₂, cell_color]
    rfl
  rw [hcall]
  rcases recolor_spec (m := { m.memCacheFree a with node := node₂ }) (c := c) h₂ fuel with
    ⟨node₃, hcolor, hleaves⟩ | ⟨⟨e, herror⟩, hlow⟩
  · rw [hcolor, ok_bind]
    dsimp only
    set m₃ : Heap := { m.memCacheFree a with node := node₃ } with hm₃
    have hout₃ : m₃.pool.out = m.pool.out.erase a := rfl
    have hvout : v.addr ∈ m₃.pool.out := by
      rw [hout₃]
      exact Finset.mem_erase.mpr ⟨hva, hout v.addr hvmem⟩
    have hout₄ : (m₃.memCacheFree v.addr).pool.out = (m.pool.out.erase a).erase v.addr := rfl
    have hok₄ : PoolOk (m₃.memCacheFree v.addr) := (hm₁.node node₃).memCacheFree hvout hv0
    have hleaves₄ : Leaves (m₃.memCacheFree v.addr).node (addrs (plug fs x)) (unlink fs c x) :=
      hleaves.congr (fun t ht => addrs_congr (inorder_unlink ht)) fun y hy =>
        node_memCacheFree (ne_of_mem_of_not_mem hy hvT)
    cases hresult : unlink fs c x with
    | none =>
      rw [hresult] at hleaves₄
      rw [hleaves₄.rbtRewind hxT fuel, error_bind]
      exact .inr ⟨⟨.diverges, rfl⟩, .inl rfl⟩
    | some t' =>
      rw [hresult] at hleaves₄
      have hword := inorder_unlink hresult
      have haddrs : addrs t' = addrs (plug fs x) := addrs_congr hword
      rcases hleaves₄.rewind (haddrs ▸ hxT) fuel with hrewind | ⟨hrewind, hle⟩
      · rw [hrewind, ok_bind]
        refine .inl ⟨_, t', rfl, rfl, rfl, rfl, hok₄, ⟨rfl, hleaves₄, fun y hy => ?_⟩, rfl, ?_⟩
        · rw [haddrs] at hy
          rw [hout₄]
          exact Finset.mem_erase.mpr ⟨ne_of_mem_of_not_mem hy hvT, Finset.mem_erase.mpr
            ⟨ne_of_mem_of_not_mem hy haT, hout y ((hmem y).mpr (.inr (.inr hy)))⟩⟩
        · rw [hout₄]
          exact card_erase_erase (hout a hamem) (hout v.addr hvmem) hva
      · rw [hrewind, error_bind]
        have hsize := size_eq_of_inorder hword
        exact .inr ⟨⟨.diverges, rfl⟩, .inr (hle.trans (hsize ▸ height_le_size t'))⟩
  · rw [herror, error_bind]
    have hlength := length_add_height_le fs x
    have hheight := height_le_size (plug fs x)
    exact .inr ⟨⟨e, rfl⟩, hlow.imp_right fun hle => by omega⟩

/-- The branch of `rbtree_delete` for a node with two leaves. -/
theorem deleteLeaf_spec {b : ℕ} (hm : PoolOk m)
    (h : Rooted m root (some (plug fs (.node c v (.leaf a) (.leaf b))))) :
    ∃ d, deleteLeaf v.addr root m cleaned = .ok d ∧
      Removed m (plug fs (.leaf v.addr)) (cleaned ++ [v.data]) d := by
  obtain ⟨hroot, hholds, hout⟩ := h
  have hv : m.node v.addr = cell .left a b (up fs) c v := hholds.focus.1
  have hperm : (addrs (plug fs (.node c v (.leaf a) (.leaf b)))).Perm
      ([a, v.addr, b] ++ around fs) := addrs_plug fs _
  have hmem (y : ℕ) := hperm.mem_iff (a := y)
  have hnodup := hperm.nodup_iff.mp hholds.nodup
  simp only [List.cons_append, List.nil_append, List.nodup_cons, List.mem_cons, not_or]
    at hnodup hmem
  obtain ⟨⟨hav, hab, haf⟩, ⟨hvb, hvf⟩, hbf, hfs⟩ := hnodup
  have hvmem := (hmem v.addr).mpr (.inr (.inl rfl))
  have hamem := (hmem a).mpr (.inl rfl)
  have hbmem := (hmem b).mpr (.inr (.inr (.inl rfl)))
  have hv0 : v.addr ≠ 0 := hholds.ne_zero _ hvmem
  -- the node becomes a leaf, its two leaves are freed, and it is written twice more
  set r : RbtreeT := ⟨b, a, up fs, .black, true, v.type, v.key, 0⟩ with hr
  set m₁ := m.put v.addr r with hm₁
  set m₂ := m₁.memCacheFree a with hm₂
  set m₃ := m₂.memCacheFree b with hm₃
  set m₅ := (m₃.put v.addr { r with lChild := 0 }).put v.addr { r with lChild := 0, rChild := 0 }
    with hm₅
  have hv₂ : m₂.node v.addr = r := (node_memCacheFree (Ne.symm hav)).trans (node_put_self _)
  have hv₃ : m₃.node v.addr = r := (node_memCacheFree hvb).trans hv₂
  have hout₅ : m₅.pool.out = (m.pool.out.erase a).erase b := rfl
  have hbout : b ∈ m₂.pool.out := Finset.mem_erase.mpr ⟨Ne.symm hab, hout b hbmem⟩
  have hok₃ : PoolOk m₃ := ((hm.put r).memCacheFree (hout a hamem)
    (hholds.ne_zero a hamem)).memCacheFree hbout (hholds.ne_zero b hbmem)
  have hperm' := addrs_plug fs (.leaf v.addr : Tree)
  -- all writes are to the node and its leaves
  have hother (y : ℕ) (hy : y ∈ around fs) : m₅.node y = m.node y := by
    have hyv : y ≠ v.addr := ne_of_mem_of_not_mem hy hvf
    rw [node_put_of_ne hyv, node_put_of_ne hyv, node_memCacheFree (ne_of_mem_of_not_mem hy hbf),
      node_memCacheFree (ne_of_mem_of_not_mem hy haf), node_put_of_ne hyv]
  have hin (y : ℕ) (hy : y ∈ addrs (plug fs (.leaf v.addr))) : y = v.addr ∨ y ∈ around fs := by
    rcases List.mem_append.mp (hperm'.mem_iff.mp hy) with hy | hy
    · exact .inl (List.mem_singleton.mp hy)
    · exact .inr hy
  refine ⟨⟨0, root, m₅, cleaned ++ [v.data]⟩, ?_, rfl, rfl, (hok₃.put _).put _,
    ⟨?_, ⟨?_, ?_, ?_⟩, ?_⟩, rfl, ?_⟩
  · have hr₁ : ({ cell .left a b (up fs) c v with color := .black, nil := true, data := 0 } :
        RbtreeT) = r := rfl
    have hl : r.lChild = a := rfl
    have hrc : r.rChild = b := rfl
    simp only [deleteLeaf, Heap.get, get_of_ne hv0, ok_bind, heap_modify_of_ne hv0, hv, hr₁]
    rw [← hm₁, node_put_self, hl, ← hm₂, hv₂, hrc, ← hm₃, hv₃, node_put_self]
    rfl
  · have haddr : addr (.node c v (.leaf a) (.leaf b)) = addr (.leaf v.addr : Tree) := rfl
    exact hroot.trans (addr_plug_congr haddr fs)
  · refine sub_plug_replace hholds.sub rfl hother ?_
    rw [Sub, hm₅, node_put_self]
    exact ⟨fun s => by cases s <;> rfl, rfl, rfl, rfl⟩
  · exact hperm'.nodup_iff.mpr (List.nodup_cons.mpr ⟨hvf, hfs⟩)
  · intro y hy
    rcases hin y hy with rfl | hy
    · exact hv0
    · exact hholds.around_ne_zero hy
  · intro y hy
    rw [hout₅]
    rcases hin y hy with rfl | hy
    · exact Finset.mem_erase.mpr ⟨hvb, Finset.mem_erase.mpr ⟨Ne.symm hav, hout _ hvmem⟩⟩
    · exact Finset.mem_erase.mpr ⟨ne_of_mem_of_not_mem hy hbf, Finset.mem_erase.mpr
        ⟨ne_of_mem_of_not_mem hy haf, hout y ((hmem y).mpr (.inr (.inr (.inr hy))))⟩⟩
  · rw [hout₅]
    exact card_erase_erase (hout a hamem) (hout b hbmem) (Ne.symm hab)

end Unlinking

section Replacing

variable {m : Nodes} {c : Color} {v v' w : NodeVal} {l r t t' : Tree} {fs fs' : Place}

/-- The replacement is a node of the same tree. -/
theorem plug_replacement (h : replacement fs t = some (fs', t')) : plug fs' t' = plug fs t := by
  induction t generalizing fs with
  | leaf a => cases h
  | node c v l r ihl ihr =>
    cases l with
    | leaf a =>
      obtain ⟨rfl, rfl⟩ := Prod.mk.inj (Option.some.inj h)
      rfl
    | node cl vl ll lr => exact ihr h

/-- The replacement has no left child. -/
theorem of_replacement (h : replacement fs t = some (fs', t')) :
    ∃ c w a x, t' = .node c w (.leaf a) x := by
  induction t generalizing fs with
  | leaf a => cases h
  | node c v l r ihl ihr =>
    cases l with
    | leaf a =>
      obtain ⟨-, rfl⟩ := Prod.mk.inj (Option.some.inj h)
      exact ⟨c, v, a, r, rfl⟩
    | node cl vl ll lr => exact ihr h

/-- The way to the node that replaces another one starts where the search does. -/
theorem replacement_append (fs gs : Place) (t : Tree) : replacement (fs ++ gs) t =
    (replacement fs t).map fun z => (z.1 ++ gs, z.2) := by
  induction t generalizing fs with
  | leaf a => rfl
  | node c v l r ihl ihr =>
    cases l with
    | leaf a => rfl
    | node cl vl ll lr => exact ihr (_ :: fs)

/-- A place inside a subtree, seen from the whole tree. -/
theorem plug_append (fs gs : Place) (t : Tree) : plug (fs ++ gs) t = plug gs (plug fs t) := by
  induction fs generalizing t with
  | nil => rfl
  | cons f fs ih => exact ih _

/-- The whole way to the replacement. -/
theorem plug_rel {rel : Place} (h : replacement [] l = some (rel, t)) (fs : Place) (c : Color)
    (v : NodeVal) (r : Tree) :
    plug (rel ++ ⟨.left, c, v, r⟩ :: fs) t = plug fs (.node c v l r) := by
  rw [plug_append, plug_replacement h]
  rfl

/-- Copying a key and data into a node does not change the size. -/
theorem size_revalue (fs : Place) (c : Color) (v v' : NodeVal) (l r : Tree) :
    (plug fs (.node c v' l r)).size = (plug fs (.node c v l r)).size := by
  have hsize := size_plug_add fs (.node c v' l r) (.node c v l r)
  rw [size_node, size_node] at hsize
  omega

/-- The `for` loop of `rbtree_delete` on the records of a tree. -/
theorem findReplace_spec (fs : Place) (h : Holds m (plug fs t)) (fuel : ℕ) :
    (∃ fs' c w a x, findReplace m fuel (addr t) = .ok w.addr ∧
      replacement fs t = some (fs', .node c w (.leaf a) x)) ∨
    (∃ e, findReplace m fuel (addr t) = .error e) ∧
      (replacement fs t = none ∨ fuel ≤ t.height) := by
  induction t generalizing fs fuel with
  | leaf a =>
    cases fuel with
    | zero => exact .inr ⟨⟨_, rfl⟩, .inl rfl⟩
    | succ fuel =>
      have hchild : (m a).lChild = 0 := h.focus.child .left
      rw [findReplace, h.get_focus, ok_bind, addr_leaf, hchild]
      exact .inr ⟨⟨_, rfl⟩, .inl rfl⟩
  | node c v l r ihl ihr =>
    cases fuel with
    | zero => exact .inr ⟨⟨_, rfl⟩, .inr (Nat.zero_le _)⟩
    | succ fuel =>
      obtain ⟨-, -, -, hl, hr⟩ := h.focus.record
      have hleft : Holds m (plug (⟨.left, c, v, r⟩ :: fs) l) := h
      have hright : Holds m (plug (⟨.right, c, v, l⟩ :: fs) r) := h
      rw [findReplace, h.get_focus, ok_bind, addr_node, hl, hleft.get_focus, ok_bind, hr]
      cases l with
      | leaf a =>
        rw [addr_leaf, hleft.focus.nil, if_pos rfl]
        exact .inl ⟨fs, c, v, a, r, rfl, rfl⟩
      | node cl vl ll lr =>
        rw [addr_node, hleft.focus.record.1, if_neg Bool.false_ne_true]
        refine (ihr _ hright fuel).imp_right fun hlow => ⟨hlow.1, hlow.2.imp_right fun hle => ?_⟩
        rw [height]
        omega

theorem addrs_revalue (haddr : v'.addr = v.addr) (fs : Place) :
    addrs (plug fs (.node c v' l r)) = addrs (plug fs (.node c v l r)) := by
  simp [addrs, addrsOf, inorder_plug, inorder, haddr]

/-- The key and the data of a node are overwritten. -/
theorem Holds.revalue (h : Holds m (plug fs (.node c v l r))) (haddr : v'.addr = v.addr) :
    Holds (Function.update m v.addr (cell .left (addr l) (addr r) (up fs) c v'))
      (plug fs (.node c v' l r)) := by
  have haddrs := addrs_revalue (c := c) (l := l) (r := r) haddr fs
  obtain ⟨-, hl, hr⟩ := h.focus
  have hnodup := (addrs_fork .left c v l r).nodup_iff.mp (List.Nodup.of_append_left h.nodup_plug)
  have hmem := (List.nodup_cons.mp hnodup).1
  have hdisj := List.disjoint_of_nodup_append h.nodup_plug
  have hvmem : v.addr ∈ addrs (.node c v l r) := addr_mem_addrs (.node c v l r)
  refine ⟨sub_plug_replace h.sub haddr (fun a ha => ?_) ⟨?_, ?_, ?_⟩, haddrs ▸ h.nodup,
    haddrs ▸ h.ne_zero⟩
  · have hne : a ≠ v.addr := fun heq => hdisj hvmem (heq ▸ ha)
    exact Function.update_of_ne hne ..
  · rw [haddr, Function.update_self]
  · rw [haddr]
    exact hl.congr fun a ha => Function.update_of_ne
      (ne_of_mem_of_not_mem (List.mem_append_left _ ha) hmem) ..
  · rw [haddr]
    exact hr.congr fun a ha => Function.update_of_ne
      (ne_of_mem_of_not_mem (List.mem_append_right _ ha) hmem) ..

/-- A node with a leaf counts one more than its other child in its place. -/
theorem size_plug_fork (fs : Place) (s : Side) (c : Color) (v : NodeVal) (a : ℕ) (x : Tree) :
    (plug fs (fork s c v (.leaf a) x)).size = (plug fs x).size + 1 := by
  have hlength := (addrs_plug_fork fs s c v a x).length_eq
  rw [List.length_cons, List.length_cons, length_addrs, length_addrs] at hlength
  omega

end Replacing

section Call

variable {m : Heap} {s : Side} {c : Color} {v : NodeVal} {l r x t : Tree} {fs : Place}
  {a root : ℕ} {cleaned : List ℕ} {key : BitVec 32}

/-- A node with two leaves becomes a leaf. -/
theorem removeOne_leaf (b : ℕ) :
    removeOne fs (fork s c v (.leaf a) (.leaf b)) = some (plug fs (.leaf v.addr)) := by
  cases s <;> rfl

/-- A node with one child is replaced by the child. -/
theorem removeOne_node (hx : ∀ k, x ≠ .leaf k) :
    removeOne fs (fork s c v (.leaf a) x) = unlink fs c x := by
  cases x with
  | leaf k => exact absurd rfl (hx k)
  | node cx vx lx rx => cases s <;> rfl

/-- For a node with a leaf, the cleaner is called on its own data. -/
theorem deleteAt_fork (fs : Place) (s : Side) (c : Color) (v : NodeVal) (a : ℕ) (x : Tree) :
    deleteAt fs (fork s c v (.leaf a) x) =
      (removeOne fs (fork s c v (.leaf a) x)).map fun t => (t, [v.data]) := by
  cases s <;> cases x <;> rfl

/-- The branches of `rbtree_delete` at a node: the two children are told apart by `nil`. -/
theorem delStart_eq (h : Holds m.node (plug fs (.node c v l r))) (fuel root : ℕ)
    (cleaned : List ℕ) : delStart (fuel + 1) v.addr root m cleaned =
      if (m.node (addr l)).nil then
        if (m.node (addr r)).nil then deleteLeaf v.addr root m cleaned
        else deleteOne fuel .left v.addr m cleaned
      else if (m.node (addr r)).nil then deleteOne fuel .right v.addr m cleaned
      else (do
        let t ← findReplace m.node fuel (addr l)
        let replace ← m.get t
        let m ← m.modify v.addr fun r => { r with data := replace.data, key := replace.key }
        delStart fuel t root m (cleaned ++ [v.data])) := by
  have hleft : Holds m.node (plug (⟨.left, c, v, r⟩ :: fs) l) := h
  have hright : Holds m.node (plug (⟨.right, c, v, l⟩ :: fs) r) := h
  have hgetv : m.node.get v.addr = .ok (m.node v.addr) := h.get_focus
  obtain ⟨-, -, hdata, hlc, hrc⟩ := h.focus.record
  rw [delStart, Heap.get, hgetv, ok_bind, Heap.get, hlc, hleft.get_focus, ok_bind, Heap.get, hrc,
    hright.get_focus, ok_bind, hdata]
  cases (m.node (addr l)).nil <;> cases (m.node (addr r)).nil <;> rfl

/-- A node with at most one child is deleted at once. -/
theorem delStart_one (hm : PoolOk m)
    (h : Rooted m root (some (plug fs (fork s c v (.leaf a) x)))) (fuel : ℕ) :
    (∃ d t, delStart (fuel + 1) v.addr root m cleaned = .ok d ∧
      removeOne fs (fork s c v (.leaf a) x) = some t ∧ Removed m t (cleaned ++ [v.data]) d) ∨
    (∃ e, delStart (fuel + 1) v.addr root m cleaned = .error e) ∧
      (removeOne fs (fork s c v (.leaf a) x) = none ∨
        fuel ≤ (plug fs (fork s c v (.leaf a) x)).size) := by
  have hholds := h.2.1
  have hother : Holds m.node (plug (⟨s.other, c, v, .leaf a⟩ :: fs) x) := by
    rw [plug_cons, fork_other]
    exact hholds
  have hnila : (m.node (addr (leaf a : Tree))).nil = true := hholds.at_child.focus.nil
  cases x with
  | leaf b =>
    have hnilx : (m.node (addr (leaf b : Tree))).nil = true := hother.focus.nil
    left
    rw [removeOne_leaf]
    -- both children are leaves, whichever side is `s`
    have hcall : delStart (fuel + 1) v.addr root m cleaned = deleteLeaf v.addr root m cleaned := by
      cases s with
      | left => rw [delStart_eq (l := .leaf a) (r := .leaf b) hholds, if_pos hnila, if_pos hnilx]
      | right => rw [delStart_eq (l := .leaf b) (r := .leaf a) hholds, if_pos hnilx, if_pos hnila]
    rw [hcall]
    cases s
    · obtain ⟨d, hd, hremoved⟩ := deleteLeaf_spec hm h
      exact ⟨d, _, hd, rfl, hremoved⟩
    · obtain ⟨d, hd, hremoved⟩ := deleteLeaf_spec hm h
      exact ⟨d, _, hd, rfl, hremoved⟩
  | node cx vx lx rx =>
    have hnilx : ¬(m.node (addr (.node cx vx lx rx))).nil :=
      Bool.eq_false_iff.mp hother.focus.record.1
    rw [removeOne_node fun k heq => by cases heq]
    have hcall : delStart (fuel + 1) v.addr root m cleaned = deleteOne fuel s v.addr m cleaned := by
      cases s with
      | left =>
        rw [delStart_eq (l := .leaf a) (r := .node cx vx lx rx) hholds, if_pos hnila, if_neg hnilx]
      | right =>
        rw [delStart_eq (l := .node cx vx lx rx) (r := .leaf a) hholds, if_neg hnilx, if_pos hnila]
    rw [hcall]
    refine (deleteOne_spec hm h fuel).imp_right fun hlow => ⟨hlow.1, hlow.2.imp_right fun hle => ?_⟩
    have hsize := size_plug_fork fs s c v a (.node cx vx lx rx)
    omega

/-- What deleting a node with at most one child leaves. -/
theorem size_removeOne {t' : Tree} (h : removeOne fs (fork s c v (.leaf a) x) = some t') :
    t'.size + 1 = (plug fs (fork s c v (.leaf a) x)).size := by
  rw [size_plug_fork]
  cases x with
  | leaf b =>
    rw [removeOne_leaf] at h
    rw [← Option.some.inj h]
    exact congrArg (· + 1) (Nat.add_right_cancel (size_plug_add fs (.leaf v.addr : Tree) (.leaf b)))
  | node cx vx lx rx =>
    rw [removeOne_node fun k heq => by cases heq] at h
    rw [size_eq_of_inorder (inorder_unlink h)]

/-- The replacement of a node with two children has at most one child. -/
theorem of_deleteAt_two {cl cr : Color} {vl vr : NodeVal} {ll lr rl rr t' : Tree}
    {data : List ℕ}
    (h : deleteAt fs (.node c v (.node cl vl ll lr) (.node cr vr rl rr)) = some (t', data)) :
    ∃ rel cw w a x, replacement [] (.node cl vl ll lr) = some (rel, .node cw w (.leaf a) x) ∧
      removeOne
        (rel ++ ⟨.left, c, { v with key := w.key, data := w.data }, .node cr vr rl rr⟩ :: fs)
        (fork .left cw w (.leaf a) x) = some t' ∧ data = [v.data, w.data] := by
  rw [deleteAt] at h
  cases hrep : replacement [] (.node cl vl ll lr) with
  | none =>
    rw [hrep] at h
    cases h
  | some z =>
    obtain ⟨rel, z⟩ := z
    obtain ⟨cw, w, a, x, rfl⟩ := of_replacement hrep
    rw [hrep] at h
    obtain ⟨t, hremove, heq⟩ := Option.map_eq_some_iff.mp h
    obtain ⟨rfl, rfl⟩ := Prod.mk.inj heq
    exact ⟨rel, cw, w, a, x, rfl, hremove, rfl⟩

/-- One node is deleted. -/
theorem size_deleteAt {t' : Tree} {data : List ℕ}
    (h : deleteAt fs (.node c v l r) = some (t', data)) :
    t'.size + 1 = (plug fs (.node c v l r)).size := by
  have hone {s : Side} {a : ℕ} {x : Tree}
      (h : deleteAt fs (fork s c v (.leaf a) x) = some (t', data)) :
      t'.size + 1 = (plug fs (fork s c v (.leaf a) x)).size := by
    rw [deleteAt_fork] at h
    obtain ⟨t, hremove, hpair⟩ := Option.map_eq_some_iff.mp h
    obtain ⟨rfl, -⟩ := Prod.mk.inj hpair
    exact size_removeOne hremove
  cases l with
  | leaf a => exact hone (s := .left) h
  | node cl vl ll lr =>
    cases r with
    | leaf b => exact hone (s := .right) h
    | node cr vr rl rr =>
      obtain ⟨rel, cw, w, a, x, hrep, hremove, -⟩ := of_deleteAt_two h
      rw [size_removeOne hremove, ← size_revalue fs c v { v with key := w.key, data := w.data }]
      exact congrArg RbTree.size (plug_rel hrep fs c _ _)

/-- The copied key and data are those of the node in the tree. -/
theorem Rooted.revalue {v' : NodeVal} (h : Rooted m root (some (plug fs (.node c v l r))))
    (haddr : v'.addr = v.addr) :
    Rooted (m.put v.addr (cell .left (addr l) (addr r) (up fs) c v')) root
      (some (plug fs (.node c v' l r))) := by
  obtain ⟨hroot, hholds, hout⟩ := h
  have haddr' : addr (.node c v l r) = addr (.node c v' l r) := haddr.symm
  refine ⟨hroot.trans (addr_plug_congr haddr' fs), hholds.revalue haddr, fun y hy => ?_⟩
  rw [addrs_revalue haddr] at hy
  exact hout y hy

/-- A node with two children gets the key and the data of another one, which is deleted. -/
theorem delStart_two {cl cr : Color} {vl vr : NodeVal} {ll lr rl rr : Tree} (hm : PoolOk m)
    (h : Rooted m root (some (plug fs (.node c v (.node cl vl ll lr) (.node cr vr rl rr)))))
    (fuel : ℕ) :
    (∃ d t data, delStart fuel v.addr root m [] = .ok d ∧
      deleteAt fs (.node c v (.node cl vl ll lr) (.node cr vr rl rr)) = some (t, data) ∧
      Removed m t data d) ∨
    (∃ e, delStart fuel v.addr root m [] = .error e) ∧
      (deleteAt fs (.node c v (.node cl vl ll lr) (.node cr vr rl rr)) = none ∨
        fuel ≤ (plug fs (.node c v (.node cl vl ll lr) (.node cr vr rl rr))).size + 2) := by
  have hholds := h.2.1
  have hleft : Holds m.node (plug (⟨.left, c, v, .node cr vr rl rr⟩ :: fs) (.node cl vl ll lr)) :=
    hholds
  have hright : Holds m.node (plug (⟨.right, c, v, .node cl vl ll lr⟩ :: fs) (.node cr vr rl rr)) :=
    hholds
  have hv0 : v.addr ≠ 0 := hholds.focus_ne_zero (addr_mem_addrs (.node c v _ _))
  have hnill : ¬(m.node (addr (.node cl vl ll lr))).nil :=
    Bool.eq_false_iff.mp hleft.focus.record.1
  have hnilr : ¬(m.node (addr (.node cr vr rl rr))).nil :=
    Bool.eq_false_iff.mp hright.focus.record.1
  -- the way from the node that is found to the one that replaces it
  have hbelow := replacement_append [] (⟨.left, c, v, .node cr vr rl rr⟩ :: fs)
    (.node cl vl ll lr)
  rw [List.nil_append] at hbelow
  cases fuel with
  | zero => exact .inr ⟨⟨_, rfl⟩, .inr (Nat.zero_le _)⟩
  | succ fuel =>
    rw [delStart_eq hholds, if_neg hnill, if_neg hnilr]
    rcases findReplace_spec _ hleft fuel with ⟨fs', cw, w, a, x, hfind, hrep⟩ | ⟨⟨e, herror⟩, hlow⟩
    · have hplug := plug_replacement hrep
      have hw : Holds m.node (plug fs' (.node cw w (.leaf a) x)) := hplug ▸ hleft
      obtain ⟨-, hkey', hdata', -, -⟩ := hw.focus.record
      have hgetw : m.node.get w.addr = .ok (m.node w.addr) := hw.get_focus
      rw [hrep] at hbelow
      obtain ⟨⟨rel, z⟩, hrel, heq⟩ := Option.map_eq_some_iff.mp hbelow.symm
      obtain ⟨-, rfl⟩ := Prod.mk.inj heq
      set v' : NodeVal := { v with key := w.key, data := w.data } with hv'
      set m' := m.put v.addr (cell .left vl.addr vr.addr (up fs) c v') with hm'
      have hmodify : (m.modify v.addr fun r =>
          { r with data := (m.node w.addr).data, key := (m.node w.addr).key }) = .ok m' := by
        rw [heap_modify_of_ne hv0, hholds.focus.1, hkey', hdata']
        rfl
      have hat : deleteAt fs (.node c v (.node cl vl ll lr) (.node cr vr rl rr)) =
          (removeOne (rel ++ ⟨.left, c, v', .node cr vr rl rr⟩ :: fs)
            (fork .left cw w (.leaf a) x)).map fun t => (t, [v.data, w.data]) := by
        rw [deleteAt, hrel]
        rfl
      have htree : plug (rel ++ ⟨.left, c, v', .node cr vr rl rr⟩ :: fs)
          (fork .left cw w (.leaf a) x) =
            plug fs (.node c v' (.node cl vl ll lr) (.node cr vr rl rr)) :=
        plug_rel hrel fs c v' _
      have hrooted : Rooted m' root (some (plug (rel ++ ⟨.left, c, v', .node cr vr rl rr⟩ :: fs)
          (fork .left cw w (.leaf a) x))) := by
        rw [htree]
        exact h.revalue rfl
      have hsize := size_revalue fs c v v' (.node cl vl ll lr) (.node cr vr rl rr)
      rw [hfind, ok_bind, Heap.get, hgetw, ok_bind, hmodify, ok_bind, List.nil_append, hat]
      cases fuel with
      | zero => exact .inr ⟨⟨_, rfl⟩, .inr (Nat.le_add_left _ _)⟩
      | succ fuel =>
        rcases delStart_one (hm.put _) hrooted fuel with
          ⟨d, t, hd, hremove, hremoved⟩ | ⟨herror, hlow⟩
        · exact .inl ⟨d, t, [v.data, w.data], hd, by rw [hremove]; rfl, hremoved.ret,
            hremoved.cleaned, hremoved.ok, hremoved.rooted, hremoved.free, hremoved.out⟩
        · refine .inr ⟨herror, hlow.imp (fun hnone => by rw [hnone]; rfl) fun hle => ?_⟩
          rw [htree] at hle
          omega
    · rw [herror, error_bind]
      refine .inr ⟨⟨e, rfl⟩, hlow.imp (fun hnone => ?_) fun hle => ?_⟩
      · rw [hnone] at hbelow
        rw [deleteAt, Option.map_eq_none_iff.mp hbelow.symm]
      · have hlength : fs.length + 1 + (node cl vl ll lr).height ≤
            (plug fs (.node c v (.node cl vl ll lr) (.node cr vr rl rr))).height :=
          length_add_height_le (⟨.left, c, v, .node cr vr rl rr⟩ :: fs) (.node cl vl ll lr)
        have hheight := height_le_size (plug fs (.node c v (.node cl vl ll lr) (.node cr vr rl rr)))
        omega

/-- `rbtree_delete` from the node that is found. -/
theorem delStart_spec (hm : PoolOk m) (h : Rooted m root (some (plug fs (.node c v l r))))
    (fuel : ℕ) :
    (∃ d t data, delStart fuel v.addr root m [] = .ok d ∧
      deleteAt fs (.node c v l r) = some (t, data) ∧ Removed m t data d) ∨
    (∃ e, delStart fuel v.addr root m [] = .error e) ∧
      (deleteAt fs (.node c v l r) = none ∨ fuel ≤ (plug fs (.node c v l r)).size + 2) := by
  -- a node with a leaf at one side
  have hone {s : Side} {a : ℕ} {x : Tree}
      (h : Rooted m root (some (plug fs (fork s c v (.leaf a) x)))) :
      (∃ d t data, delStart fuel v.addr root m [] = .ok d ∧
        deleteAt fs (fork s c v (.leaf a) x) = some (t, data) ∧ Removed m t data d) ∨
      (∃ e, delStart fuel v.addr root m [] = .error e) ∧
        (deleteAt fs (fork s c v (.leaf a) x) = none ∨
          fuel ≤ (plug fs (fork s c v (.leaf a) x)).size + 2) := by
    rw [deleteAt_fork]
    cases fuel with
    | zero => exact .inr ⟨⟨_, rfl⟩, .inr (Nat.zero_le _)⟩
    | succ fuel =>
      rcases delStart_one hm h fuel with ⟨d, t, hd, hremove, hremoved⟩ | ⟨herror, hlow⟩
      · exact .inl ⟨d, t, [v.data], hd, by rw [hremove]; rfl, hremoved⟩
      · exact .inr ⟨herror, hlow.imp (fun hnone => by rw [hnone]; rfl) fun hle => by omega⟩
  cases l with
  | leaf a => exact hone (s := .left) h
  | node cl vl ll lr =>
    cases r with
    | leaf b => exact hone (s := .right) h
    | node cr vr rl rr => exact delStart_two hm h fuel

/-- What a call makes of the number of keys. -/
theorem size_deleteTree {ret : ℤ} {t' : Tree} {data : List ℕ}
    (h : deleteTree key t = some (ret, t', data)) :
    ret = -1 ∧ t' = t ∨ ret = 0 ∧ t'.size + 1 = t.size := by
  rw [deleteTree] at h
  cases hsearch : search key [] t with
  | none =>
    rw [hsearch] at h
    obtain ⟨rfl, hrest⟩ := Prod.mk.inj (Option.some.inj h)
    exact .inl ⟨rfl, (Prod.mk.inj hrest).1.symm⟩
  | some z =>
    obtain ⟨fs, node⟩ := z
    obtain ⟨hplug, c, v, l, r, rfl, -⟩ := of_search hsearch
    rw [hsearch] at h
    obtain ⟨⟨t₁, data₁⟩, hat, heq⟩ := Option.map_eq_some_iff.mp h
    obtain ⟨rfl, hrest⟩ := Prod.mk.inj heq
    obtain ⟨rfl, rfl⟩ := Prod.mk.inj hrest
    exact .inr ⟨rfl, (size_deleteAt hat).trans (congrArg RbTree.size hplug)⟩

/-- What a call leaves that returns: a tree, and two blocks more in the cache if the key was found;
otherwise nothing is changed. -/
structure Erased (m : Heap) (root : ℕ) (t : Tree) (d : Deleted) : Prop where
  ok : PoolOk d.heap
  rooted : Rooted d.heap d.root (some t)
  free : d.heap.pool.free.length = m.pool.free.length + if d.ret = 0 then 2 else 0
  out : d.heap.pool.out.card + (if d.ret = 0 then 2 else 0) = m.pool.out.card
  same : d.ret = -1 → d.heap = m ∧ d.root = root

/-- The call follows `deleteTree`: it returns what that says, and where it does not return there is
nothing to return or the rounds were not enough. -/
theorem rbtreeDelete_spec (key : BitVec 32) (hm : PoolOk m) (h : Rooted m root (some t))
    (fuel : ℕ) :
    (∃ d t', rbtreeDelete fuel key root m = .ok d ∧
      deleteTree key t = some (d.ret, t', d.cleaned) ∧ Erased m root t' d) ∨
    (∃ e, rbtreeDelete fuel key root m = .error e) ∧
      (deleteTree key t = none ∨ fuel ≤ t.size + 2) := by
  have hheight := height_le_size t
  obtain ⟨rfl, hholds, hout⟩ := h
  rw [rbtreeDelete]
  -- the descent comes to its end before the fuel does, or there is too little
  rcases rbtreeSearch_spec key hholds fuel rbtDel with hsearch | ⟨hsearch, hle⟩
  · rw [hsearch, ok_bind, deleteTree, found]
    cases hplace : search key [] t with
    | none =>
      exact .inl ⟨⟨-1, addr t, m, []⟩, t, rfl, rfl, hm, ⟨rfl, hholds, hout⟩, rfl, rfl,
        fun _ => ⟨rfl, rfl⟩⟩
    | some z =>
      obtain ⟨fs, t'⟩ := z
      obtain ⟨hplug, c, v, l, r, rfl, -⟩ := of_search hplace
      have hplug : plug fs (.node c v l r) = t := hplug
      have hv : Holds m.node (plug fs (.node c v l r)) := hplug ▸ hholds
      have hv0 : v.addr ≠ 0 := hv.focus_ne_zero (addr_mem_addrs (.node c v l r))
      have hanswer : answer rbtDel (some v) = v.addr := rfl
      have hrooted : Rooted m (addr t) (some (plug fs (.node c v l r))) := by
        rw [hplug]
        exact ⟨rfl, hholds, hout⟩
      dsimp only
      rw [hanswer, if_neg hv0]
      rcases delStart_spec hm hrooted fuel with ⟨d, t', data, hd, hat, hremoved⟩ | ⟨herror, hlow⟩
      · refine .inl ⟨d, t', hd, ?_, hremoved.ok, hremoved.rooted, ?_, ?_, fun hret => ?_⟩
        · rw [hat, hremoved.ret, hremoved.cleaned]
          rfl
        · rw [hremoved.ret]
          exact hremoved.free
        · rw [hremoved.ret]
          exact hremoved.out
        · rw [hremoved.ret] at hret
          cases hret
      · exact .inr ⟨herror, hlow.imp (fun hnone => by rw [hnone]; rfl) fun hle => hplug ▸ hle⟩
  · rw [hsearch, error_bind]
    exact .inr ⟨⟨_, rfl⟩, .inr (by omega)⟩

/-- A call that returns returns what `deleteTree` says. -/
theorem rbtreeDelete_ok {fuel : ℕ} {d : Deleted} (hm : PoolOk m) (h : Rooted m root (some t))
    (hcall : rbtreeDelete fuel key root m = .ok d) :
    ∃ t', deleteTree key t = some (d.ret, t', d.cleaned) ∧ Erased m root t' d := by
  rcases rbtreeDelete_spec key hm h fuel with ⟨d', t', hok, htree, her⟩ | ⟨⟨e, herror⟩, -⟩
  · rw [hcall] at hok
    obtain rfl := Except.ok.inj hok
    exact ⟨t', htree, her⟩
  · rw [hcall] at herror
    cases herror

end Call

end Rbtree

end Lidas
