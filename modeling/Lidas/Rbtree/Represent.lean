import Lidas.Rbtree.Nodes
import Mathlib.Data.List.Nodup

/-!
# The trees in the memory

`Holds m t` says that the records at the addresses of the tree `t` are those of its nodes and
leaves, the father of its root being `NULL`. A place in a tree that is held is read and written at
the addresses around it; the two ways the program changes a tree in place are to paint a node,
`Holds.paint`, and to rotate below another node, `Holds.rotat`.

Rotated at its root the records are no tree any more, `Holds.rotat_root`: every record has a father
in the same memory, and no function of the program changes that (`Closed`), so that `rbt_rewind`
does not return.
-/

namespace Lidas

namespace Rbtree

open RbTree

/-- What the record of a node has besides its links and its colour, and where it is. -/
structure NodeVal where
  addr : ℕ
  type : BitVec 4
  key : BitVec 32
  data : ℕ
  deriving DecidableEq

/-- A tree of records; a leaf is given by its address. -/
abbrev Tree : Type := RbTree NodeVal ℕ

/-- A place in a tree of records. -/
abbrev Place : Type := List (Frame NodeVal ℕ)

/-- The address of the root. -/
def addr : Tree → ℕ
  | .leaf a => a
  | .node _ v _ _ => v.addr

/-- The addresses of a word. -/
def addrsOf (w : List (NodeVal ⊕ ℕ)) : List ℕ := w.map (Sum.elim NodeVal.addr id)

/-- The addresses of a tree. -/
def addrs (t : Tree) : List ℕ := addrsOf t.inorder

/-- The address of the father at a place, or `NULL`. -/
def up : Place → ℕ
  | [] => 0
  | f :: _ => f.val.addr

/-- The record of a node, `x` and `y` being its children at side `s` and at the other side. -/
def cell (s : Side) (x y father : ℕ) (c : Color) (v : NodeVal) : RbtreeT where
  rChild := s.pick y x
  lChild := s.pick x y
  father := father
  color := c
  nil := false
  type := v.type
  key := v.key
  data := v.data

/-- The record of a leaf; its key, its type and its data do not matter. -/
structure IsLeaf (father : ℕ) (r : RbtreeT) : Prop where
  child : ∀ s, r.child s = 0
  father : r.father = father
  color : r.color = .black
  nil : r.nil = true

/-- The records of a tree below the record at `father`. -/
def Sub (m : Nodes) : ℕ → Tree → Prop
  | father, .leaf a => IsLeaf father (m a)
  | father, .node c v l r =>
    m v.addr = cell .left (addr l) (addr r) father c v ∧ Sub m v.addr l ∧ Sub m v.addr r

/-- The records of a whole tree. -/
structure Holds (m : Nodes) (t : Tree) : Prop where
  sub : Sub m 0 t
  nodup : (addrs t).Nodup
  ne_zero : ∀ a ∈ addrs t, a ≠ 0

section Accesses

variable {m : Nodes} {p : ℕ}

theorem get_of_ne (hp : p ≠ 0) : m.get p = .ok (m p) := if_neg hp

theorem modify_of_ne (hp : p ≠ 0) (g : RbtreeT → RbtreeT) :
    m.modify p g = .ok (Function.update m p (g (m p))) := if_neg hp

end Accesses

section Cells

variable (s : Side) (x y p father : ℕ) (c c' : Color) (v : NodeVal)

/-- The two sides only name the children: the other side holds them the other way round. -/
theorem cell_other : cell s.other x y father c v = cell s y x father c v := by cases s <;> rfl

@[simp] theorem cell_child : (cell s x y father c v).child s = x := by cases s <;> rfl

@[simp] theorem cell_child_other : (cell s x y father c v).child s.other = y := by
  cases s <;> rfl

@[simp] theorem cell_setChild :
    (cell s x y father c v).setChild s p = cell s p y father c v := by cases s <;> rfl

@[simp] theorem cell_setChild_other :
    (cell s x y father c v).setChild s.other p = cell s x p father c v := by cases s <;> rfl

@[simp] theorem cell_setFather :
    (cell s x y father c v).setFather p = cell s x y p c v := rfl

@[simp] theorem cell_setColor :
    (cell s x y father c v).setColor c' = cell s x y father c' v := rfl

@[simp] theorem cell_father : (cell s x y father c v).father = father := rfl

@[simp] theorem cell_color : (cell s x y father c v).color = c := rfl

@[simp] theorem cell_nil : (cell s x y father c v).nil = false := rfl

end Cells

section Addresses

variable (s : Side) (c : Color) (v : NodeVal) (x y : Tree)

@[simp] theorem addr_leaf (a : ℕ) : addr (.leaf a) = a := rfl

@[simp] theorem addr_node : addr (.node c v x y) = v.addr := rfl

@[simp] theorem up_nil : up [] = 0 := rfl

@[simp] theorem up_cons (f : Frame NodeVal ℕ) (fs : Place) : up (f :: fs) = f.val.addr := rfl

@[simp] theorem addr_fork : addr (fork s c v x y) = v.addr := by cases s <;> rfl

@[simp] theorem addr_paint (t : Tree) : addr (t.paint c) = addr t := by cases t <;> rfl

theorem addr_mem_addrs (t : Tree) : addr t ∈ addrs t := by
  cases t <;> simp [addr, addrs, addrsOf, inorder]

/-- The addresses of a node are its own and those of its two children. -/
theorem addrs_fork : (addrs (fork s c v x y)).Perm (v.addr :: (addrs x ++ addrs y)) := by
  cases s
  · simp only [addrs, addrsOf, fork, inorder, List.map_append, List.map_cons, Sum.elim_inl]
    exact List.perm_middle
  · simp only [addrs, addrsOf, fork, inorder, List.map_append, List.map_cons, Sum.elim_inl]
    exact List.perm_middle.trans (List.perm_append_comm.cons _)

/-- The addresses around a place. -/
def around : Place → List ℕ
  | [] => []
  | f :: fs => f.val.addr :: (addrs f.sib ++ around fs)

/-- The addresses of a tree that is put back into its place are its own and those around it. -/
theorem addrs_plug (fs : Place) (t : Tree) : (addrs (plug fs t)).Perm (addrs t ++ around fs) := by
  induction fs generalizing t with
  | nil => simp [around]
  | cons f fs ih =>
    have hmk := (addrs_fork f.side f.color f.val t f.sib).append_right (around fs)
    refine (ih _).trans (hmk.trans ?_)
    simp only [around, List.cons_append, List.append_assoc]
    exact List.perm_middle.symm

/-- A tree of `n` values takes `2 * n + 1` cells, as each value is at an inner node. -/
theorem length_addrs (t : Tree) : (addrs t).length = 2 * t.size + 1 := by
  rw [addrs, addrsOf, List.length_map, length_inorder]

/-- Colours and rotations do not change the inorder walk, and with it the cells in use. -/
theorem addrs_congr {t t' : Tree} (h : t.inorder = t'.inorder) : addrs t = addrs t' := by
  rw [addrs, h, addrs]

end Addresses

section Reading

variable {m m' : Nodes} {s : Side} {c : Color} {v : NodeVal} {x y t t' : Tree} {father : ℕ}
  {fs : Place}

/-- A subtree is in memory if the cell of its root is right and both children are in memory. -/
theorem sub_fork : Sub m father (fork s c v x y) ↔
    m v.addr = cell s (addr x) (addr y) father c v ∧ Sub m v.addr x ∧ Sub m v.addr y := by
  cases s
  · rfl
  · rw [fork, Sub, show Side.right = Side.left.other from rfl, cell_other,
      and_comm (a := Sub m _ y)]

/-- Only the records of a tree matter. -/
theorem Sub.congr (h : Sub m father t) (hsame : ∀ a ∈ addrs t, m' a = m a) :
    Sub m' father t := by
  induction t generalizing father with
  | leaf a =>
    have ha : m' a = m a := hsame a (addr_mem_addrs (.leaf a))
    rw [Sub, ha]
    exact h
  | node c v l r ihl ihr =>
    obtain ⟨hv, hl, hr⟩ := h
    have hmem (a : ℕ) := (addrs_fork .left c v l r).mem_iff (a := a)
    refine ⟨(hsame _ ((hmem _).mpr List.mem_cons_self)).trans hv, ihl hl fun a ha => hsame a ?_,
      ihr hr fun a ha => hsame a ?_⟩
    · exact (hmem a).mpr (List.mem_cons_of_mem _ (List.mem_append_left _ ha))
    · exact (hmem a).mpr (List.mem_cons_of_mem _ (List.mem_append_right _ ha))

/-- The fields of the record of a node. -/
theorem Sub.record {l r : Tree} (h : Sub m father (.node c v l r)) :
    (m v.addr).nil = false ∧ (m v.addr).key = v.key ∧ (m v.addr).data = v.data ∧
      (m v.addr).lChild = addr l ∧ (m v.addr).rChild = addr r := by
  rw [h.1]
  exact ⟨rfl, rfl, rfl, rfl, rfl⟩

theorem Sub.father_eq (h : Sub m father t) : (m (addr t)).father = father := by
  cases t with
  | leaf a => exact h.father
  | node c v l r => exact congrArg RbtreeT.father h.1

theorem Sub.color_eq (h : Sub m father t) : (m (addr t)).color = t.color := by
  cases t with
  | leaf a => exact h.color
  | node c v l r => exact congrArg RbtreeT.color h.1

/-- The records say what the tree is. -/
theorem Sub.unique {father' : ℕ} (h : Sub m father t) (h' : Sub m father' t')
    (haddr : addr t = addr t') : t = t' := by
  induction t generalizing t' father father' with
  | leaf a =>
    cases t' with
    | leaf b => exact congrArg RbTree.leaf haddr
    | node c' v' l' r' =>
      have hnil := h.nil
      rw [show a = v'.addr from haddr, h'.record.1] at hnil
      cases hnil
  | node c v l r ihl ihr =>
    cases t' with
    | leaf b =>
      have hnil := h'.nil
      rw [← show v.addr = b from haddr, h.record.1] at hnil
      cases hnil
    | node c' v' l' r' =>
      have hrecord : cell .left (addr l) (addr r) father c v =
          cell .left (addr l') (addr r') father' c' v' := by
        rw [← h.1, show v.addr = v'.addr from haddr, h'.1]
      simp only [cell, Side.pick, RbtreeT.mk.injEq] at hrecord
      obtain ⟨hr, hl, -, rfl, -, htype, hkey, hdata⟩ := hrecord
      have hv : v = v' := by
        cases v
        cases v'
        simp_all
      rw [hv, ihl h.2.1 h'.2.1 hl, ihr h.2.2 h'.2.2 hr]

/-- What the records around a place are, `n` being the root of what is there. -/
def Around (m : Nodes) (n : ℕ) : Place → Prop
  | [] => True
  | f :: fs =>
    m f.val.addr = cell f.side n (addr f.sib) (up fs) f.color f.val ∧
      Sub m f.val.addr f.sib ∧ Around m f.val.addr fs

/-- A whole tree is in memory if a subtree of it is, and everything around it. -/
theorem sub_plug : Sub m 0 (plug fs t) ↔ Sub m (up fs) t ∧ Around m (addr t) fs := by
  induction fs generalizing t with
  | nil => simp [up, Around]
  | cons f fs ih =>
    rw [plug_cons, ih, sub_fork, addr_fork, Around, up]
    constructor
    · rintro ⟨⟨hf, ht, hsib⟩, haround⟩
      exact ⟨ht, hf, hsib, haround⟩
    · rintro ⟨ht, hf, hsib, haround⟩
      exact ⟨⟨hf, ht, hsib⟩, haround⟩

/-- The surroundings stay when none of their cells is written. -/
theorem Around.congr {n : ℕ} (h : Around m n fs) (hsame : ∀ a ∈ around fs, m' a = m a) :
    Around m' n fs := by
  induction fs generalizing n with
  | nil => trivial
  | cons f fs ih =>
    obtain ⟨hf, hsib, haround⟩ := h
    refine ⟨(hsame _ List.mem_cons_self).trans hf, hsib.congr fun a ha => hsame a ?_,
      ih haround fun a ha => hsame a ?_⟩
    · exact List.mem_cons_of_mem _ (List.mem_append_left _ ha)
    · exact List.mem_cons_of_mem _ (List.mem_append_right _ ha)

/-- What is at a place can be replaced by a tree with the same root address. -/
theorem sub_plug_replace (h : Sub m 0 (plug fs t)) (haddr : addr t' = addr t)
    (hsame : ∀ a ∈ around fs, m' a = m a) (ht' : Sub m' (up fs) t') :
    Sub m' 0 (plug fs t') :=
  sub_plug.mpr ⟨ht', haddr ▸ (sub_plug.mp h).2.congr hsame⟩

end Reading

/-- A tree stays in memory when none of its cells is written. -/
theorem Holds.congr {m m' : Nodes} {t : Tree} (h : Holds m t) (hsame : ∀ a ∈ addrs t, m' a = m a) :
    Holds m' t :=
  ⟨h.sub.congr hsame, h.nodup, h.ne_zero⟩

namespace Holds

variable {m m' : Nodes} {s : Side} {c : Color} {v : NodeVal} {x y t t' : Tree} {f : Frame NodeVal ℕ}
  {fs : Place}

/-- A subtree of a tree in memory is in memory. -/
theorem focus (h : Holds m (plug fs t)) : Sub m (up fs) t := (sub_plug.mp h.sub).1

/-- The record of the father at a place. -/
theorem frame (h : Holds m (plug (f :: fs) t)) :
    m f.val.addr = cell f.side (addr t) (addr f.sib) (up fs) f.color f.val :=
  (sub_fork.mp (focus (t := fork f.side f.color f.val t f.sib) h)).1

theorem sib (h : Holds m (plug (f :: fs) t)) : Sub m f.val.addr f.sib :=
  (sub_fork.mp (focus (t := fork f.side f.color f.val t f.sib) h)).2.2

/-- No cell of a subtree is also around it. -/
theorem nodup_plug (h : Holds m (plug fs t)) : (addrs t ++ around fs).Nodup :=
  (addrs_plug fs t).nodup_iff.mp h.nodup

theorem focus_ne_zero (h : Holds m (plug fs t)) {a : ℕ} (ha : a ∈ addrs t) : a ≠ 0 :=
  h.ne_zero a ((addrs_plug fs t).mem_iff.mpr (List.mem_append_left _ ha))

theorem around_ne_zero (h : Holds m (plug fs t)) {a : ℕ} (ha : a ∈ around fs) : a ≠ 0 :=
  h.ne_zero a ((addrs_plug fs t).mem_iff.mpr (List.mem_append_right _ ha))

/-- A tree with the same word and the same root address is put at a place. -/
theorem replace (h : Holds m (plug fs t)) (hword : t'.inorder = t.inorder)
    (haddr : addr t' = addr t) (hsame : ∀ a ∉ addrs t, m' a = m a) (ht' : Sub m' (up fs) t') :
    Holds m' (plug fs t') := by
  have haddrs : addrs (plug fs t') = addrs (plug fs t) :=
    addrs_congr (inorder_plug_congr hword fs)
  refine ⟨sub_plug_replace h.sub haddr (fun a ha => hsame a fun hmem => ?_) ht',
    haddrs ▸ h.nodup, haddrs ▸ h.ne_zero⟩
  exact List.disjoint_of_nodup_append h.nodup_plug hmem ha

/-- Painting a node; a leaf can only be painted black. -/
theorem paint (h : Holds m (plug fs t)) (hleaf : c = .black ∨ ∀ k, t ≠ .leaf k) :
    ∃ m', m.modify (addr t) (.setColor c) = .ok m' ∧ Holds m' (plug fs (t.paint c)) := by
  refine ⟨_, modify_of_ne (h.focus_ne_zero (addr_mem_addrs t)) _, ?_⟩
  refine h.replace (inorder_paint c t) (addr_paint c t) (fun a ha => ?_) ?_
  · exact Function.update_of_ne (ne_of_mem_of_not_mem (addr_mem_addrs t) ha).symm _ _
  · cases t with
    | leaf a =>
      obtain rfl : c = .black := hleaf.resolve_right fun hne => hne a rfl
      have hleaf := h.focus
      refine ⟨fun s => ?_, ?_, ?_, ?_⟩ <;> simp only [addr, Function.update_self]
      · exact hleaf.child s
      · exact hleaf.father
      · rfl
      · exact hleaf.nil
    | node c' v l r =>
      obtain ⟨hv, hl, hr⟩ := h.focus
      have hnodup := (addrs_fork .left c' v l r).nodup_iff.mp
        (List.Nodup.of_append_left h.nodup_plug)
      have hmem := (List.nodup_cons.mp hnodup).1
      refine ⟨?_, hl.congr fun a ha => ?_, hr.congr fun a ha => ?_⟩
      · rw [addr, Function.update_self, hv, cell_setColor]
      · exact Function.update_of_ne
          (ne_of_mem_of_not_mem (List.mem_append_left _ ha) hmem) _ _
      · exact Function.update_of_ne
          (ne_of_mem_of_not_mem (List.mem_append_right _ ha) hmem) _ _

end Holds

/-- A memory with the records of a tree. -/
def layout : ℕ → Tree → Nodes
  | father, .leaf _ => fun _ => { RbtreeT.zero with father := father, nil := true }
  | father, .node c v l r => fun p =>
    if p = v.addr then cell .left (addr l) (addr r) father c v
    else if p ∈ addrs l then layout v.addr l p
    else layout v.addr r p

/-- Laid out at distinct addresses, a tree is in memory under any father. -/
theorem sub_layout {t : Tree} (father : ℕ) (hnodup : (addrs t).Nodup) :
    Sub (layout father t) father t := by
  induction t generalizing father with
  | leaf a => exact ⟨fun s => by cases s <;> rfl, rfl, rfl, rfl⟩
  | node c v l r ihl ihr =>
    obtain ⟨hv, hlr⟩ := List.nodup_cons.mp ((addrs_fork .left c v l r).nodup_iff.mp hnodup)
    obtain ⟨hl, hr, hdisj⟩ := List.nodup_append.mp hlr
    refine ⟨if_pos rfl, (ihl v.addr hl).congr fun a ha => ?_, (ihr v.addr hr).congr fun a ha => ?_⟩
    · exact (if_neg (ne_of_mem_of_not_mem (List.mem_append_left _ ha) hv)).trans (if_pos ha)
    · exact (if_neg (ne_of_mem_of_not_mem (List.mem_append_right _ ha) hv)).trans
        (if_neg fun hmem => hdisj a hmem a ha rfl)

/-- Any tree of distinct addresses is held by some memory. -/
theorem holds_layout {t : Tree} (hnodup : (addrs t).Nodup) (hne : ∀ a ∈ addrs t, a ≠ 0) :
    Holds (layout 0 t) t := ⟨sub_layout 0 hnodup, hnodup, hne⟩

/-! ### Rotations -/

section Rotations

variable {m m' : Nodes} {s side : Side} {cp cr cf : Color} {vp vr vf : NodeVal} {x y z b : Tree}
  {fs : Place}

/-- How often an address occurs in a node, by its parts. -/
theorem count_addrs_fork (a : ℕ) (c : Color) (v : NodeVal) (x y : Tree) :
    (addrs (fork s c v x y)).count a =
      (addrs x).count a + (addrs y).count a + [v.addr].count a := by
  rw [(addrs_fork s c v x y).count_eq, List.count_cons, List.count_append, List.count_singleton]

/-- The addresses of a node below a father, of the child that is rotated up and of the trees around
them. -/
theorem addrs_below : (addrs (fork side cf vf (fork s cp vp x (fork s cr vr y z)) b)).Perm
    ([vp.addr, vr.addr, vf.addr] ++ (addrs x ++ (addrs y ++ (addrs z ++ addrs b)))) := by
  rw [List.perm_iff_count]
  intro a
  simp only [count_addrs_fork, List.count_append, List.count_cons, List.count_nil]
  omega

/-- The root of a tree gets another father. -/
theorem Sub.refather {t : Tree} {father g : ℕ} (h : Sub m father t) (hnodup : (addrs t).Nodup)
    (hroot : m' (addr t) = (m (addr t)).setFather g)
    (hsame : ∀ a ∈ addrs t, a ≠ addr t → m' a = m a) : Sub m' g t := by
  cases t with
  | leaf a =>
    rw [Sub, show m' a = _ from hroot]
    exact ⟨h.child, rfl, h.color, h.nil⟩
  | node c v l r =>
    obtain ⟨hv, hl, hr⟩ := h
    have hperm := addrs_fork .left c v l r
    have hmem := (List.nodup_cons.mp (hperm.nodup_iff.mp hnodup)).1
    refine ⟨?_, hl.congr fun a ha => hsame a ?_ ?_, hr.congr fun a ha => hsame a ?_ ?_⟩
    · exact hroot.trans (congrArg (RbtreeT.setFather g) hv)
    · exact hperm.mem_iff.mpr (List.mem_cons_of_mem _ (List.mem_append_left _ ha))
    · exact ne_of_mem_of_not_mem (List.mem_append_left _ ha) hmem
    · exact hperm.mem_iff.mpr (List.mem_cons_of_mem _ (List.mem_append_right _ ha))
    · exact ne_of_mem_of_not_mem (List.mem_append_right _ ha) hmem

section Records

variable {p r y f b : ℕ} {x z ff : ℕ}

/-- What a rotation writes. -/
theorem rotat_eq (hp : m p = cell s x r f cp vp) (hr : m r = cell s y z p cr vr)
    (hf : m f = cell side p b ff cf vf) (hb : p ≠ b) (hne : [p, r, y, f].Nodup)
    (h0 : 0 ∉ [p, r, y, f]) :
    ∃ m', rotat s p m = .ok m' ∧ m' p = cell s x y r .red vp ∧ m' r = cell s p z f .black vr ∧
      m' y = (m y).setFather p ∧ m' f = cell side r b ff cf vf ∧
      ∀ a ∉ [p, r, y, f], m' a = m a := by
  simp only [List.nodup_cons, List.mem_cons, List.not_mem_nil, or_false, not_or, List.nodup_nil,
    and_true, not_false_eq_true] at hne h0 ⊢
  obtain ⟨⟨hpr, hpy, hpf⟩, ⟨hry, hrf⟩, hyf⟩ := hne
  obtain ⟨hp0, hr0, hy0, hf0⟩ := h0
  have hside : (if p = (cell side p b ff cf vf).lChild then Side.left else Side.right) = side := by
    cases side
    · exact if_pos rfl
    · exact if_neg hb
  simp [rotat, linkUp, get_of_ne, modify_of_ne, hp, hr, hf, Ne.symm hp0, Ne.symm hr0, Ne.symm hy0,
    Ne.symm hf0, hpr, hpy, hpf, hry, hrf, hyf, Ne.symm hpr, Ne.symm hpy, Ne.symm hpf, Ne.symm hry,
    Ne.symm hrf, Ne.symm hyf, hside]
  simp +contextual

/-- What a rotation writes at the root: the father of the new root stays the old one. -/
theorem rotat_root_eq (hp : m p = cell s x r 0 cp vp) (hr : m r = cell s y z p cr vr)
    (hne : [p, r, y].Nodup) (h0 : 0 ∉ [p, r, y]) :
    ∃ m', rotat s p m = .ok m' ∧ m' p = cell s x y r .red vp ∧ m' r = cell s p z p .black vr ∧
      m' y = (m y).setFather p ∧ ∀ a ∉ [p, r, y], m' a = m a := by
  simp only [List.nodup_cons, List.mem_cons, List.not_mem_nil, or_false, not_or, List.nodup_nil,
    and_true, not_false_eq_true] at hne h0 ⊢
  obtain ⟨⟨hpr, hpy⟩, hry⟩ := hne
  obtain ⟨hp0, hr0, hy0⟩ := h0
  simp [rotat, get_of_ne, modify_of_ne, hp, hr, Ne.symm hp0, Ne.symm hr0, Ne.symm hy0,
    hpr, hpy, hry, Ne.symm hpr, Ne.symm hpy, Ne.symm hry]
  simp +contextual

end Records

/-- A rotation below another node. -/
theorem Holds.rotat {f : Frame NodeVal ℕ}
    (h : Holds m (plug (f :: fs) (fork s cp vp x (fork s cr vr y z)))) :
    ∃ m', Rbtree.rotat s vp.addr m = .ok m' ∧
      Holds m' (plug (f :: fs) (fork s .black vr (fork s .red vp x y) z)) := by
  rw [plug_cons] at h ⊢
  obtain ⟨hf, hT, hb⟩ := sub_fork.mp h.focus
  obtain ⟨hp, hx, hR⟩ := sub_fork.mp hT
  obtain ⟨hr, hy, hz⟩ := sub_fork.mp hR
  rw [addr_fork] at hf hp
  have hperm : (addrs
      (fork f.side f.color f.val (fork s cp vp x (fork s cr vr y z)) f.sib)).Perm _ :=
    addrs_below
  have hnodup := hperm.nodup_iff.mp (List.Nodup.of_append_left h.nodup_plug)
  have hnull : ∀ a ∈ _, a ≠ 0 := fun a ha => h.focus_ne_zero (hperm.mem_iff.mpr ha)
  have hmem (a : ℕ) := hperm.mem_iff (a := a)
  simp only [List.nodup_append, List.nodup_cons, List.mem_cons, List.mem_append, not_or,
    List.cons_append, List.nil_append] at hnodup hnull hmem
  obtain ⟨⟨hpr, hpf, hpx, hpy, hpz, hpb⟩, ⟨hrf, hrx, hry, hrz, hrb⟩, ⟨hfx, hfy, hfz, hfb⟩, -,
    ⟨hynodup, -, hyzb⟩, hxyzb⟩ := hnodup
  have hyaddr := addr_mem_addrs y
  have hbaddr := addr_mem_addrs f.sib
  obtain ⟨m', hrot, hp', hr', hy', hf', hsame⟩ := rotat_eq hp hr hf (by grind) (by grind) (by grind)
  refine ⟨m', hrot, h.replace ?_ ?_ ?_ ?_⟩
  · exact inorder_fork_congr _ _ _ _ _ _ (inorder_rotate s vp vr x y z _ _ _ _).symm rfl
  · rw [addr_fork, addr_fork]
  · intro a ha
    exact hsame a (by grind)
  · rw [sub_fork, sub_fork, sub_fork, addr_fork, addr_fork]
    refine ⟨hf', ⟨hr', ⟨hp', ?_, ?_⟩, ?_⟩, ?_⟩
    · exact hx.congr fun a ha => hsame a (by grind)
    · exact hy.refather hynodup hy' fun a ha hne => hsame a (by grind)
    · exact hz.congr fun a ha => hsame a (by grind)
    · exact hb.congr fun a ha => hsame a (by grind)

end Rotations

/-! ### Memories without a root -/

/-- The records at the given addresses have fathers and children among themselves. -/
structure Closed (m : Nodes) (as : List ℕ) : Prop where
  ne_zero : 0 ∉ as
  father : ∀ a ∈ as, (m a).father ∈ as
  child : ∀ a ∈ as, ∀ s, (m a).child s = 0 ∨ (m a).child s ∈ as

section Closed

variable {m m' : Nodes} {as : List ℕ} {p q : ℕ}

/-- A read returns if and only if the pointer is not `NULL`. -/
theorem get_eq_ok {r : RbtreeT} : m.get p = .ok r ↔ p ≠ 0 ∧ m p = r := by
  rw [Nodes.get]
  split_ifs with h
  · exact iff_of_false (fun heq => by cases heq) fun hp => hp.1 h
  · exact ⟨fun heq => ⟨h, Except.ok.inj heq⟩, fun hp => congrArg _ hp.2⟩

/-- A write returns if and only if the pointer is not `NULL`. -/
theorem modify_eq_ok {g : RbtreeT → RbtreeT} :
    m.modify p g = .ok m' ↔ p ≠ 0 ∧ Function.update m p (g (m p)) = m' := by
  rw [Nodes.modify]
  split_ifs with h
  · exact iff_of_false (fun heq => by cases heq) fun hp => hp.1 h
  · exact ⟨fun heq => ⟨h, Except.ok.inj heq⟩, fun hp => congrArg _ hp.2⟩

/-- A write that leaves the pointers of its cell inside keeps the cells closed. -/
theorem Closed.modify {g : RbtreeT → RbtreeT} (h : Closed m as)
    (hfather : p ∈ as → (g (m p)).father ∈ as)
    (hchild : p ∈ as → ∀ s, (g (m p)).child s = 0 ∨ (g (m p)).child s ∈ as)
    (hm : m.modify p g = .ok m') : Closed m' as := by
  obtain ⟨-, rfl⟩ := modify_eq_ok.mp hm
  refine ⟨h.ne_zero, fun a ha => ?_, fun a ha s => ?_⟩
  · by_cases heq : a = p
    · subst heq
      rw [Function.update_self]
      exact hfather ha
    · rw [Function.update_of_ne heq]
      exact h.father a ha
  · by_cases heq : a = p
    · subst heq
      rw [Function.update_self]
      exact hchild ha s
    · rw [Function.update_of_ne heq]
      exact h.child a ha s

/-- A colour is not a pointer. -/
theorem Closed.setColor {c : Color} (h : Closed m as) (hm : m.modify p (.setColor c) = .ok m') :
    Closed m' as :=
  h.modify (fun hp => h.father p hp) (fun hp s => h.child p hp s) hm

/-- A father from inside may be set. -/
theorem Closed.setFather (h : Closed m as) (hq : q ∈ as)
    (hm : m.modify p (.setFather q) = .ok m') : Closed m' as :=
  h.modify (fun _ => hq) (fun hp s => h.child p hp s) hm

/-- A child from inside, or `NULL`, may be set. -/
theorem Closed.setChild {s : Side} (h : Closed m as) (hq : q = 0 ∨ q ∈ as)
    (hm : m.modify p (.setChild s q) = .ok m') : Closed m' as := by
  refine h.modify (fun hp => ?_) (fun hp s' => ?_) hm
  · rw [RbtreeT.father_setChild]
    exact h.father p hp
  · rw [RbtreeT.child_setChild]
    split_ifs
    · exact hq
    · exact h.child p hp s'

/-- What is reached over a child is one of the records. -/
theorem Closed.child_mem (h : Closed m as) (hp : p ∈ as) {s : Side} (hne : (m p).child s ≠ 0) :
    (m p).child s ∈ as := (h.child p hp s).resolve_left hne

/-- A rotation only moves pointers among the cells it has. -/
theorem Closed.rotat (h : Closed m as) (hp : p ∈ as) {s : Side}
    (hm : Rbtree.rotat s p m = .ok m') : Closed m' as := by
  obtain ⟨P, hP, k₁⟩ := bind_eq_ok.mp hm
  obtain ⟨R, hR, k₂⟩ := bind_eq_ok.mp k₁
  obtain ⟨m₁, h₁, k₃⟩ := bind_eq_ok.mp k₂
  obtain ⟨P₁, -, k₄⟩ := bind_eq_ok.mp k₃
  obtain ⟨m₂, h₂, k₅⟩ := bind_eq_ok.mp k₄
  obtain ⟨P₂, hP₂, k₆⟩ := bind_eq_ok.mp k₅
  obtain ⟨m₃, h₃, k₇⟩ := bind_eq_ok.mp k₆
  obtain ⟨m₄, h₄, k₈⟩ := bind_eq_ok.mp k₇
  obtain ⟨m₅, h₅, k₉⟩ := bind_eq_ok.mp k₈
  obtain ⟨m₆, h₆, h₇⟩ := bind_eq_ok.mp k₉
  clear hm k₁ k₂ k₃ k₄ k₅ k₆ k₇ k₈ k₉
  obtain ⟨-, rfl⟩ := get_eq_ok.mp hP
  obtain ⟨hr0, rfl⟩ := get_eq_ok.mp hR
  obtain ⟨-, rfl⟩ := get_eq_ok.mp hP₂
  have hr : (m p).child s.other ∈ as := h.child_mem hp hr0
  have hc₁ : Closed m₁ as := h.setChild (h.child _ hr s) h₁
  have hc₂ : Closed m₂ as := hc₁.setFather hp h₂
  have hc₃ : Closed m₃ as := by
    have hf : (m₂ p).father ∈ as := hc₂.father p hp
    rw [if_pos (ne_of_mem_of_not_mem hf hc₂.ne_zero)] at h₃
    obtain ⟨F, -, h₃⟩ := bind_eq_ok.mp h₃
    obtain ⟨m', h', h₃⟩ := bind_eq_ok.mp h₃
    exact (hc₂.setChild (.inr hr) h').setFather hf h₃
  exact (((hc₃.setChild (.inr hp) h₄).setFather hr h₅).setColor h₆).setColor h₇

/-- `rbt_rewind` does not return. -/
theorem Closed.rbtRewind (h : Closed m as) (hp : p ∈ as) (fuel : ℕ) :
    Rbtree.rbtRewind m fuel p = .error .diverges := by
  induction fuel generalizing p with
  | zero => rfl
  | succ fuel ih =>
    have hne (a : ℕ) (ha : a ∈ as) : a ≠ 0 := ne_of_mem_of_not_mem ha h.ne_zero
    have hfather := h.father p hp
    rw [Rbtree.rbtRewind, get_of_ne (hne p hp), ok_bind, if_pos (hne _ hfather)]
    exact ih hfather

/-- The links of the records of a tree. -/
theorem Sub.links {father : ℕ} {t : Tree} (h : Sub m father t) {a : ℕ} (ha : a ∈ addrs t) :
    (a = addr t ∨ (m a).father ∈ addrs t) ∧
      ∀ s, (m a).child s = 0 ∨ (m a).child s ∈ addrs t := by
  induction t generalizing father with
  | leaf b =>
    obtain rfl : a = b := by simpa [addrs, addrsOf, inorder] using ha
    exact ⟨.inl rfl, fun s => .inl (h.child s)⟩
  | node c v l r ihl ihr =>
    obtain ⟨hv, hl, hr⟩ := h
    have hmem (b : ℕ) := (addrs_fork .left c v l r).mem_iff (a := b)
    simp only [fork, List.mem_cons, List.mem_append] at hmem
    have hroot : (m v.addr).child .left = addr l ∧ (m v.addr).child .right = addr r := by
      rw [hv]
      exact ⟨rfl, rfl⟩
    have hladdr := addr_mem_addrs l
    have hraddr := addr_mem_addrs r
    rcases (hmem a).mp ha with rfl | ha | ha
    · refine ⟨.inl rfl, fun s => .inr ((hmem _).mpr ?_)⟩
      cases s <;> grind
    · obtain ⟨hfather, hchild⟩ := ihl hl ha
      refine ⟨.inr ((hmem _).mpr ?_), fun s => (hchild s).imp_right fun hmem' => ?_⟩
      · rcases hfather with rfl | hfather
        · exact .inl hl.father_eq
        · exact .inr (.inl hfather)
      · exact (hmem _).mpr (.inr (.inl hmem'))
    · obtain ⟨hfather, hchild⟩ := ihr hr ha
      refine ⟨.inr ((hmem _).mpr ?_), fun s => (hchild s).imp_right fun hmem' => ?_⟩
      · rcases hfather with rfl | hfather
        · exact .inl hr.father_eq
        · exact .inr (.inr hfather)
      · exact (hmem _).mpr (.inr (.inr hmem'))

/-- A rotation at the root leaves no root. -/
theorem Holds.rotat_root {s : Side} {cp cr : Color} {vp vr : NodeVal} {x y z : Tree}
    (h : Holds m (fork s cp vp x (fork s cr vr y z))) :
    ∃ m', Rbtree.rotat s vp.addr m = .ok m' ∧
      Closed m' (addrs (fork s cp vp x (fork s cr vr y z))) := by
  obtain ⟨hp, hx, hR⟩ := sub_fork.mp h.sub
  obtain ⟨hr, hy, hz⟩ := sub_fork.mp hR
  rw [addr_fork] at hp
  set t := fork s cp vp x (fork s cr vr y z) with ht
  -- the two nodes that are rotated and the three subtrees have no address in common
  have hperm : (addrs t).Perm ([vp.addr, vr.addr] ++ (addrs x ++ (addrs y ++ addrs z))) := by
    rw [List.perm_iff_count]
    intro a
    simp only [ht, count_addrs_fork, List.count_append, List.count_cons, List.count_nil]
    omega
  have hnodup := hperm.nodup_iff.mp h.nodup
  have hmem (a : ℕ) := hperm.mem_iff (a := a)
  have hnull := h.ne_zero
  simp only [List.nodup_append, List.nodup_cons, List.mem_cons, List.mem_append, not_or,
    List.cons_append, List.nil_append] at hnodup hmem
  have hxaddr := addr_mem_addrs x
  have hyaddr := addr_mem_addrs y
  have hzaddr := addr_mem_addrs z
  obtain ⟨m', hrot, hp', hr', hy', hsame⟩ := rotat_root_eq hp hr (by grind) (by grind)
  have hother (s' : Side) : s' = s ∨ s' = s.other := by cases s <;> cases s' <;> simp [Side.other]
  -- before the rotation no pointer leads outside; it writes three cells
  have hlinks (a : ℕ) (ha : a ∈ addrs t) : (a = vp.addr ∨ (m a).father ∈ addrs t) ∧
      ∀ s', (m a).child s' = 0 ∨ (m a).child s' ∈ addrs t := by
    have hsub := h.sub.links ha
    rwa [ht, addr_fork] at hsub
  refine ⟨m', hrot, fun hzero => hnull 0 hzero rfl, fun a ha => ?_, fun a ha s' => ?_⟩
  · by_cases hold : a ∉ [vp.addr, vr.addr, addr y]
    · rw [hsame a hold]
      exact (hlinks a ha).1.resolve_left (by grind)
    · simp only [not_not, List.mem_cons, List.not_mem_nil, or_false] at hold
      rcases hold with rfl | rfl | rfl
      · rw [hp', cell_father, hmem]
        exact .inr (.inl rfl)
      · rw [hr', cell_father, hmem]
        exact .inl rfl
      · rw [hy', hmem]
        exact .inl rfl
  · by_cases hold : a ∉ [vp.addr, vr.addr, addr y]
    · rw [hsame a hold]
      exact (hlinks a ha).2 s'
    · simp only [not_not, List.mem_cons, List.not_mem_nil, or_false] at hold
      rcases hold with rfl | rfl | rfl
      · rw [hp', hmem]
        rcases hother s' with rfl | rfl
        · rw [cell_child]
          grind
        · rw [cell_child_other]
          grind
      · rw [hr', hmem]
        rcases hother s' with rfl | rfl
        · rw [cell_child]
          grind
        · rw [cell_child_other]
          grind
      · rw [hy']
        exact (hlinks _ ha).2 s'

end Closed

end Rbtree

end Lidas
