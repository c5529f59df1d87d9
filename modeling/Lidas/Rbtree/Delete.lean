import Lidas.Rbtree.Insertion

/-!
# Rebalancing after a deletion

`deleteFix` says of a place and of a black tree there, which is a black node short, what
`delete_case1` makes of them. It keeps the word of the tree. It is `none` where the program does not
come to an end: where the sibling is a leaf, whose children are `NULL`, and where the rotation would
be at the root, which leaves a memory without a root.
-/

namespace Lidas

namespace Rbtree

open RbTree

section Reading

variable {m : Nodes} {s : Side} {cf c : Color} {vf v : NodeVal} {gs : Place} {t x y sib : Tree}

/-- The same tree, seen from the sibling. -/
theorem Holds.at_sib (h : Holds m (plug (⟨s, cf, vf, sib⟩ :: gs) t)) :
    Holds m (plug (⟨s.other, cf, vf, t⟩ :: gs) sib) := by
  rw [plug_cons, fork_other]
  exact h

/-- The same tree, seen from a child. -/
theorem Holds.at_child (h : Holds m (plug gs (fork s c v x y))) :
    Holds m (plug (⟨s, c, v, y⟩ :: gs) x) := h

/-- The cell of a node, read at its address. -/
theorem Holds.get_fork (h : Holds m (plug gs (fork s c v x y))) :
    m.get v.addr = .ok (cell s (addr x) (addr y) (up gs) c v) := by
  rw [← (sub_fork.mp h.focus).1]
  exact h.at_child.get_frame

/-- Painting the sibling. -/
theorem Holds.paint_sib (h : Holds m (plug (⟨s, cf, vf, sib⟩ :: gs) t))
    (hleaf : c = .black ∨ ∀ k, sib ≠ .leaf k) :
    ∃ m', m.modify (addr sib) (.setColor c) = .ok m' ∧
      Holds m' (plug (⟨s, cf, vf, sib.paint c⟩ :: gs) t) := by
  obtain ⟨m', hpaint, h'⟩ := h.at_sib.paint hleaf
  refine ⟨m', hpaint, ?_⟩
  have hsib := h'.at_sib
  rwa [Side.other_other] at hsib

/-- Painting the child of the sibling that is further away. -/
theorem Holds.paint_outer (h : Holds m (plug (⟨s, cf, vf, fork s c v x y⟩ :: gs) t)) :
    ∃ m', m.modify (addr y) (.setColor .black) = .ok m' ∧
      Holds m' (plug (⟨s, cf, vf, fork s c v x (y.paint .black)⟩ :: gs) t) := by
  have hy : Holds m (plug (⟨s.other, c, v, x⟩ :: ⟨s.other, cf, vf, t⟩ :: gs) y) := by
    rw [plug_cons, fork_other]
    exact h.at_sib
  obtain ⟨m', hpaint, h'⟩ := hy.paint (.inl rfl)
  rw [plug_cons, fork_other] at h'
  have hsib := h'.at_sib
  rw [Side.other_other] at hsib
  exact ⟨m', hpaint, hsib⟩

end Reading

/-- What `delete_case5` and `delete_case6` make of a place and its sibling: the sibling goes up, or
its inner child if that one is red and the outer one is not. -/
def sink (f : Frame NodeVal ℕ) (t : Tree) : Tree :=
  match f.sib with
  | .leaf a => .leaf a
  | .node c v l r =>
    let outer := f.side.other.pick l r
    match f.side.pick l r with
    | .node .red w x y =>
      if c = .black ∧ outer.color = .black then
        fork f.side .black w (fork f.side .red f.val t (f.side.pick x y))
          (fork f.side .black v (f.side.other.pick x y) outer)
      else
        fork f.side .black v (fork f.side .red f.val t (.node .red w x y)) (outer.paint .black)
    | inner => fork f.side .black v (fork f.side .red f.val t inner) (outer.paint .black)

/-- What `delete_case4` makes of a tree at a place, if it returns. -/
def settle (f : Frame NodeVal ℕ) (gs : Place) (t : Tree) : Option Tree :=
  match f.sib with
  | .leaf _ => none
  | .node c v l r =>
    if f.color = .red ∧ c = .black ∧ l.color = .black ∧ r.color = .black then
      some (plug (⟨f.side, .black, f.val, .node .red v l r⟩ :: gs) t)
    else rotated gs (sink f t)

/-- What `delete_case1` makes of a tree at a place, if it returns. -/
def deleteFix : Place → Tree → Option Tree
  | [], t => some t
  | f :: gs, t =>
    match f.sib with
    | .leaf _ => none
    | .node .red v l r =>
      if gs = [] then none
      else settle ⟨f.side, .red, f.val, f.side.pick l r⟩
        (⟨f.side, .black, v, f.side.other.pick l r⟩ :: gs) t
    | .node .black v l r =>
      if f.color = .black ∧ l.color = .black ∧ r.color = .black then
        deleteFix gs (fork f.side .black f.val t (.node .red v l r))
      else settle f gs t

section Cases

variable {m m' : Nodes} {s : Side} {cf c : Color} {vf v : NodeVal} {gs : Place} {t x y sib : Tree}

/-- `delete_case6` rotates the sibling up and paints its outer child black. -/
theorem deleteCase6_spec (h : Holds m (plug (⟨s, cf, vf, fork s c v x y⟩ :: gs) t)) :
    ∃ m', deleteCase6 (addr t) m = .ok m' ∧
      Leaves m' (addrs (plug (⟨s, cf, vf, fork s c v x y⟩ :: gs) t))
        (rotated gs (fork s .black v (fork s .red vf t x) (y.paint .black))) := by
  obtain ⟨m₁, hpaint₁, h₁⟩ := h.paint_sib (c := cf) (.inr fun _ => fork_ne_leaf _ _ _ _ _ _)
  rw [paint_fork] at h₁
  obtain ⟨m₂, hpaint₂, h₂⟩ := h₁.paint_father .black
  obtain ⟨m₃, hpaint₃, h₃⟩ := h₂.paint_outer
  obtain ⟨m₄, hrot, h₄⟩ := h₃.at_father.rotat_any
  refine ⟨m₄, ?_, ?_⟩
  · have hleft := h₂.eq_lChild_iff
    have hsib := h₂.at_sib.get_fork
    rw [addr_fork] at hpaint₁
    rw [deleteCase6, h.sibling, ok_bind, h.get_focus, ok_bind, h.father_eq, up_cons]
    dsimp only
    rw [addr_fork, h.get_frame, ok_bind, h.frame_color, hpaint₁, ok_bind, hpaint₂, ok_bind,
      h₂.get_frame, ok_bind, if_congr hleft rfl rfl]
    cases s
    · rw [if_pos rfl, hsib, ok_bind]
      exact bind_eq_ok.mpr ⟨m₃, hpaint₃, hrot⟩
    · have hne : Side.right ≠ .left := by decide
      rw [if_neg hne, hsib, ok_bind]
      exact bind_eq_ok.mpr ⟨m₃, hpaint₃, hrot⟩
  · have haddrs : addrs (plug (⟨s, cf, vf, fork s c v x y⟩ :: gs) t) = _ :=
      addrs_congr (inorder_plug_congr (inorder_fork_congr s cf .black vf _ _ rfl
        (inorder_fork_congr s c cf v _ _ rfl (inorder_paint .black y).symm)) gs)
    rw [haddrs]
    exact h₄

/-- The inner child goes up. -/
theorem sink_inner {w : NodeVal} {z : Tree} (hy : y.color = .black) :
    sink ⟨s, cf, vf, fork s .black v (fork s .red w x z) y⟩ t =
      fork s .black w (fork s .red vf t x) (fork s .black v z y) := by
  cases s <;> simp [sink, fork, Side.pick, Side.other, hy]

/-- The sibling goes up. -/
theorem sink_outer (hnot : ¬(c = .black ∧ y.color = .black ∧ x.color = .red)) :
    sink ⟨s, cf, vf, fork s c v x y⟩ t =
      fork s .black v (fork s .red vf t x) (y.paint .black) := by
  cases x with
  | leaf a => cases s <;> simp [sink, fork, Side.pick, Side.other]
  | node cx w l r =>
    cases cx with
    | black => cases s <;> simp [sink, fork, Side.pick, Side.other]
    | red =>
      rw [color_node, and_iff_left rfl] at hnot
      cases s <;> simp [sink, fork, Side.pick, Side.other, hnot]

/-- The condition of `delete_case5`, on the tree. -/
theorem Holds.blackRed (h : Holds m (plug gs (fork s c v x y))) :
    Rbtree.blackRed m v.addr s.other =
      .ok (decide (y.color = .black ∧ x.color = .red)) := by
  have hy : Holds m (plug (⟨s.other, c, v, x⟩ :: gs) y) := by
    rw [plug_cons, fork_other]
    exact h
  have hxcolor := h.at_child.focus.color_eq
  have hycolor := hy.focus.color_eq
  rw [Rbtree.blackRed, h.get_fork, ok_bind, cell_child_other, hy.get_focus, ok_bind, hycolor,
    Side.other_other, ok_bind, cell_child, h.at_child.get_focus, ok_bind, hxcolor]
  split_ifs with hblack
  · rw [pure_eq_ok, decide_eq_decide.mpr (and_iff_right hblack)]
  · rw [pure_eq_ok, decide_eq_false fun hand => hblack hand.1]

/-- The test of `delete_case5`, whichever side it is at. -/
theorem deleteCase5_eq (h : Holds m (plug (⟨s, cf, vf, fork s c v x y⟩ :: gs) t)) :
    deleteCase5 (addr t) m =
      if c = .black ∧ y.color = .black ∧ x.color = .red then do
        let m ← m.modify v.addr (.setColor .red)
        let m ← m.modify ((← m.get v.addr).child s) (.setColor .black)
        let m ← rotat s.other v.addr m
        deleteCase6 (addr t) m
      else deleteCase6 (addr t) m := by
  have hleft : addr t = (m vf.addr).lChild ↔ s = .left := h.eq_lChild_iff
  have hright : addr t = (m vf.addr).rChild ↔ s = .right := h.eq_rChild_iff
  have hgetf : m.get vf.addr = .ok (m vf.addr) := h.get_frame
  have hcond := h.at_sib.blackRed
  rw [deleteCase5, h.sibling, ok_bind, addr_fork, h.at_sib.get_fork, ok_bind, cell_color]
  by_cases hblack : c = .black
  · rw [if_pos hblack, h.get_focus, ok_bind, h.father_eq, up_cons]
    dsimp only
    rw [hgetf, ok_bind, if_congr hleft rfl rfl, if_congr (and_iff_right hblack) rfl rfl]
    cases s with
    | left =>
      have hcond : blackRed m v.addr .right = _ := hcond
      have hne : Side.left ≠ .right := by decide
      rw [if_pos rfl, hcond, ok_bind, if_congr hright rfl rfl, if_neg hne, pure_eq_ok, ok_bind]
      simp only [decide_eq_true_eq, Bool.false_eq_true, if_false]
      rfl
    | right =>
      have hcond : blackRed m v.addr .left = _ := hcond
      have hne : Side.right ≠ .left := by decide
      rw [if_neg hne, pure_eq_ok, ok_bind, if_neg Bool.false_ne_true, if_congr hright rfl rfl,
        if_pos rfl, hcond, ok_bind]
      simp only [decide_eq_true_eq]
      rfl
  · rw [if_neg hblack, if_neg fun hand => hblack hand.1]

/-- `delete_case5` first rotates the inner child up if that is the red one. -/
theorem deleteCase5_spec (h : Holds m (plug (⟨s, cf, vf, fork s c v x y⟩ :: gs) t)) :
    ∃ m', deleteCase5 (addr t) m = .ok m' ∧
      Leaves m' (addrs (plug (⟨s, cf, vf, fork s c v x y⟩ :: gs) t))
        (rotated gs (sink ⟨s, cf, vf, fork s c v x y⟩ t)) := by
  rw [deleteCase5_eq h]
  by_cases hinner : c = .black ∧ y.color = .black ∧ x.color = .red
  · rw [if_pos hinner]
    obtain ⟨rfl, hy, hx⟩ := hinner
    cases x with
    | leaf a => cases hx
    | node cx w l r =>
      obtain rfl : cx = .red := hx
      rw [node_eq_fork s] at h ⊢
      -- the sibling becomes red, its inner child black, and the two are turned
      obtain ⟨m₁, hpaint₁, h₁⟩ := h.paint_sib (c := .red) (.inr fun _ => fork_ne_leaf _ _ _ _ _ _)
      rw [paint_fork] at h₁
      obtain ⟨m₂, hpaint₂, h₂⟩ := h₁.at_sib.at_child.paint (.inl rfl)
      rw [paint_fork] at h₂
      have hturn : Holds m₂ (plug (⟨s.other, cf, vf, t⟩ :: gs)
          (fork s.other .red v y (fork s.other .black w (s.other.pick l r) (s.pick l r)))) := by
        rw [fork_other, fork_other]
        exact h₂
      obtain ⟨m₃, hrot, h₃⟩ := hturn.rotat
      have hback := h₃.at_sib
      rw [Side.other_other, fork_other, fork_other] at hback
      obtain ⟨m₄, hcase, hleaves⟩ := deleteCase6_spec hback
      refine ⟨m₄, ?_, ?_⟩
      · rw [addr_fork] at hpaint₁
        rw [hpaint₁, ok_bind, h₁.at_sib.get_fork, ok_bind, cell_child, hpaint₂, ok_bind, hrot,
          ok_bind, hcase]
      · rw [paint_fork] at hleaves
        rw [sink_inner hy]
        -- the rotation keeps the inorder walk, and with it the blocks in use
        have hword := inorder_rotate s w v (s.pick l r) (s.other.pick l r) y .black .red .black .red
        have haddrs : addrs (plug (⟨s, cf, vf, fork s .black v
            (fork s .red w (s.pick l r) (s.other.pick l r)) y⟩ :: gs) t) = _ :=
          addrs_congr (inorder_plug_congr (inorder_fork_congr s cf cf vf _ _ rfl hword.symm) gs)
        rw [haddrs]
        exact hleaves
  · obtain ⟨m', hcase, hleaves⟩ := deleteCase6_spec h
    rw [if_neg hinner, sink_outer hinner]
    exact ⟨m', hcase, hleaves⟩

/-- Whether both children are black, on the tree. -/
theorem Holds.blackChildren {l r : Tree} (h : Holds m (plug gs (.node c v l r))) :
    Rbtree.blackChildren m v.addr = .ok (decide (l.color = .black ∧ r.color = .black)) := by
  have hl : Holds m (plug (⟨.left, c, v, r⟩ :: gs) l) := h
  have hr : Holds m (plug (⟨.right, c, v, l⟩ :: gs) r) := h
  obtain ⟨-, -, -, hleft, hright⟩ := h.focus.record
  rw [Rbtree.blackChildren, show v.addr = addr (.node c v l r) from rfl, h.get_focus, ok_bind,
    addr_node, hleft, hl.get_focus, ok_bind, hl.focus.color_eq, ok_bind, hright, hr.get_focus,
    ok_bind, hr.focus.color_eq]
  split_ifs with hblack
  · rw [pure_eq_ok, decide_eq_decide.mpr (and_iff_right hblack)]
  · rw [pure_eq_ok, decide_eq_false fun hand => hblack hand.1]

/-- The condition of `delete_case3` and of `delete_case4`, on the tree. -/
theorem Holds.siblingBlack {l r : Tree} (h : Holds m (plug (⟨s, cf, vf, .node c v l r⟩ :: gs) t))
    (c' : Color) : Rbtree.siblingBlack m (addr t) v.addr c' =
      .ok (decide (cf = c' ∧ c = .black ∧ l.color = .black ∧ r.color = .black)) := by
  have hsib : m.get v.addr = .ok (m v.addr) := h.at_sib.get_focus
  have hcolor : (m v.addr).color = c := h.at_sib.focus.color_eq
  rw [Rbtree.siblingBlack, h.get_focus, ok_bind, h.father_eq, up_cons, h.get_frame, ok_bind,
    h.frame_color, hsib, ok_bind, hcolor, h.at_sib.blackChildren]
  split_ifs with hf hs
  · rw [decide_eq_decide.mpr ((and_iff_right hf).trans (and_iff_right hs))]
  · rw [pure_eq_ok, decide_eq_false fun hand => hs hand.2.1]
  · rw [pure_eq_ok, decide_eq_false fun hand => hf hand.1]

/-- The children of a leaf are `NULL`. -/
theorem Holds.siblingBlack_leaf {a : ℕ} (h : Holds m (plug (⟨s, cf, vf, .leaf a⟩ :: gs) t))
    (c' : Color) : Rbtree.siblingBlack m (addr t) a c' =
      if cf = c' then .error .nullDeref else .ok false := by
  have hsib : m.get a = .ok (m a) := h.at_sib.get_focus
  have hcolor : (m a).color = .black := h.at_sib.focus.color_eq
  have hchild : (m a).lChild = 0 := h.at_sib.focus.child .left
  rw [Rbtree.siblingBlack, h.get_focus, ok_bind, h.father_eq, up_cons, h.get_frame, ok_bind,
    h.frame_color, hsib, ok_bind, hcolor, if_pos rfl, Rbtree.blackChildren, hsib, ok_bind, hchild]
  rfl

/-- `delete_case4` exchanges the colours of a red father and a black sibling, or goes on. -/
theorem deleteCase4_node {l r : Tree}
    (h : Holds m (plug (⟨s, cf, vf, .node c v l r⟩ :: gs) t)) :
    ∃ m', deleteCase4 (addr t) m = .ok m' ∧
      Leaves m' (addrs (plug (⟨s, cf, vf, .node c v l r⟩ :: gs) t))
        (settle ⟨s, cf, vf, .node c v l r⟩ gs t) := by
  rw [deleteCase4, h.sibling, ok_bind, addr_node, h.siblingBlack, ok_bind, settle]
  simp only [decide_eq_true_eq]
  split_ifs with hred
  · obtain ⟨m₁, hpaint₁, h₁⟩ := h.paint_sib (c := .red) (.inr fun k heq => by cases heq)
    obtain ⟨m₂, hpaint₂, h₂⟩ := h₁.paint_father .black
    refine ⟨m₂, ?_, h₂⟩
    rw [addr_node] at hpaint₁
    rw [hpaint₁, ok_bind, h₁.get_focus, ok_bind, h₁.father_eq, up_cons, hpaint₂]
  · rw [node_eq_fork s] at h ⊢
    exact deleteCase5_spec h

/-- Below a red father there is nothing to pass on. -/
theorem deleteCase3_settle {case1 : ℕ → Nodes → Except Fault Nodes} {l r : Tree}
    (h : Holds m (plug (⟨s, cf, vf, .node c v l r⟩ :: gs) t))
    (hnot : ¬(cf = .black ∧ c = .black ∧ l.color = .black ∧ r.color = .black)) :
    ∃ m', deleteCase3 case1 (addr t) m = .ok m' ∧
      Leaves m' (addrs (plug (⟨s, cf, vf, .node c v l r⟩ :: gs) t))
        (settle ⟨s, cf, vf, .node c v l r⟩ gs t) := by
  obtain ⟨m', hcase, hleaves⟩ := deleteCase4_node h
  refine ⟨m', ?_, hleaves⟩
  rw [deleteCase3, h.sibling, ok_bind, addr_node, h.siblingBlack, ok_bind, decide_eq_false hnot,
    if_neg Bool.false_ne_true, hcase]

/-- The children of a leaf are `NULL`, and `delete_case3` reads the colour of the sibling's. -/
theorem deleteCase3_leaf {case1 : ℕ → Nodes → Except Fault Nodes} {a : ℕ}
    (h : Holds m (plug (⟨s, cf, vf, .leaf a⟩ :: gs) t)) :
    deleteCase3 case1 (addr t) m = .error .nullDeref := by
  rw [deleteCase3, h.sibling, ok_bind, addr_leaf, h.siblingBlack_leaf]
  cases cf with
  | black => rfl
  | red =>
    have hne : Color.red ≠ .black := by decide
    rw [if_neg hne, ok_bind, if_neg Bool.false_ne_true, deleteCase4, h.sibling, ok_bind, addr_leaf,
      h.siblingBlack_leaf, if_pos rfl, error_bind]

/-- The sibling is painted red, and the father is a black node short then. -/
theorem deleteCase3_black (case1 : ℕ → Nodes → Except Fault Nodes) {l r : Tree}
    (h : Holds m (plug (⟨s, .black, vf, .node .black v l r⟩ :: gs) t)) (hl : l.color = .black)
    (hr : r.color = .black) :
    ∃ m', Holds m' (plug gs (fork s .black vf t (.node .red v l r))) ∧
      deleteCase3 case1 (addr t) m = case1 vf.addr m' := by
  obtain ⟨m₁, hpaint₁, h₁⟩ := h.paint_sib (c := .red) (.inr fun k heq => by cases heq)
  refine ⟨m₁, h₁, ?_⟩
  rw [addr_node] at hpaint₁
  rw [deleteCase3, h.sibling, ok_bind, addr_node, h.siblingBlack, ok_bind,
    decide_eq_true ⟨rfl, rfl, hl, hr⟩, if_pos rfl, hpaint₁, ok_bind, h₁.get_focus, ok_bind,
    h₁.father_eq, up_cons]

end Cases

/-! ### After a rotation at the root -/

section Closed

variable {m m' : Nodes} {as : List ℕ} {n q : ℕ} {r : RbtreeT}

/-- The father of a node inside is inside. -/
theorem Closed.father_of_get (h : Closed m as) (hn : n ∈ as) (hget : m.get n = .ok r) :
    r.father ∈ as := by
  obtain ⟨-, rfl⟩ := get_eq_ok.mp hget
  exact h.father n hn

theorem Closed.child_of_get (h : Closed m as) (hn : n ∈ as) (hget : m.get n = .ok r) (s : Side)
    (hne : r.child s ≠ 0) : r.child s ∈ as := by
  obtain ⟨-, rfl⟩ := get_eq_ok.mp hget
  exact h.child_mem hn hne

/-- The sibling is one of the records, if it is not `NULL`. -/
theorem Closed.sibling_mem (h : Closed m as) (hn : n ∈ as) (hsib : sibling m n = .ok q)
    (hq : q ≠ 0) : q ∈ as := by
  obtain ⟨r, hget, hsib⟩ := bind_eq_ok.mp hsib
  obtain ⟨father, hfather, hsib⟩ := bind_eq_ok.mp hsib
  have hmem := h.father_of_get hn hget
  split_ifs at hsib
  · obtain rfl := Except.ok.inj hsib
    exact h.child_of_get hmem hfather .right hq
  · obtain rfl := Except.ok.inj hsib
    exact h.child_of_get hmem hfather .left hq

/-- `delete_case6` sets no pointer to a cell outside. -/
theorem Closed.deleteCase6 (h : Closed m as) (hn : n ∈ as)
    (hcase : Rbtree.deleteCase6 n m = .ok m') : Closed m' as := by
  obtain ⟨s, -, hcase⟩ := bind_eq_ok.mp hcase
  obtain ⟨r, hget, hcase⟩ := bind_eq_ok.mp hcase
  obtain ⟨f, -, hcase⟩ := bind_eq_ok.mp hcase
  obtain ⟨m₁, h₁, hcase⟩ := bind_eq_ok.mp hcase
  obtain ⟨m₂, h₂, hcase⟩ := bind_eq_ok.mp hcase
  obtain ⟨f', -, hcase⟩ := bind_eq_ok.mp hcase
  have hf := h.father_of_get hn hget
  have hclosed := (h.setColor h₁).setColor h₂
  split_ifs at hcase
  · obtain ⟨s', -, hcase⟩ := bind_eq_ok.mp hcase
    obtain ⟨m₃, h₃, hcase⟩ := bind_eq_ok.mp hcase
    exact (hclosed.setColor h₃).rotat hf hcase
  · obtain ⟨s', -, hcase⟩ := bind_eq_ok.mp hcase
    obtain ⟨m₃, h₃, hcase⟩ := bind_eq_ok.mp hcase
    exact (hclosed.setColor h₃).rotat hf hcase

theorem Closed.deleteCase5 (h : Closed m as) (hn : n ∈ as)
    (hcase : Rbtree.deleteCase5 n m = .ok m') : Closed m' as := by
  obtain ⟨s, hsib, hcase⟩ := bind_eq_ok.mp hcase
  obtain ⟨r, hget, hcase⟩ := bind_eq_ok.mp hcase
  have hs : s ∈ as := h.sibling_mem hn hsib (get_eq_ok.mp hget).1
  -- the two turned branches differ in the side only
  have hturned {side : Side} {child : RbtreeT → ℕ} (hbranch : (do
      let m ← m.modify s (.setColor .red)
      let m ← m.modify (child (← m.get s)) (.setColor .black)
      let m ← Rbtree.rotat side s m
      Rbtree.deleteCase6 n m) = .ok m') : Closed m' as := by
    obtain ⟨m₁, h₁, hbranch⟩ := bind_eq_ok.mp hbranch
    obtain ⟨r₁, -, hbranch⟩ := bind_eq_ok.mp hbranch
    obtain ⟨m₂, h₂, hbranch⟩ := bind_eq_ok.mp hbranch
    obtain ⟨m₃, h₃, hbranch⟩ := bind_eq_ok.mp hbranch
    exact (((h.setColor h₁).setColor h₂).rotat hs h₃).deleteCase6 hn hbranch
  split_ifs at hcase
  · obtain ⟨r₁, -, hcase⟩ := bind_eq_ok.mp hcase
    obtain ⟨f, -, hcase⟩ := bind_eq_ok.mp hcase
    obtain ⟨inner, -, hcase⟩ := bind_eq_ok.mp hcase
    cases inner with
    | true => exact hturned hcase
    | false =>
      obtain ⟨inner', -, hcase⟩ := bind_eq_ok.mp hcase
      cases inner' with
      | true => exact hturned hcase
      | false => exact h.deleteCase6 hn hcase
  · exact h.deleteCase6 hn hcase

theorem Closed.deleteCase4 (h : Closed m as) (hn : n ∈ as)
    (hcase : Rbtree.deleteCase4 n m = .ok m') : Closed m' as := by
  obtain ⟨s, -, hcase⟩ := bind_eq_ok.mp hcase
  obtain ⟨cond, -, hcase⟩ := bind_eq_ok.mp hcase
  split_ifs at hcase
  · obtain ⟨m₁, h₁, hcase⟩ := bind_eq_ok.mp hcase
    obtain ⟨r, -, hcase⟩ := bind_eq_ok.mp hcase
    exact (h.setColor h₁).setColor hcase
  · exact h.deleteCase5 hn hcase

/-- The same of `delete_case3`, if it holds of the call of `delete_case1` in it. -/
theorem Closed.deleteCase3 {case1 : ℕ → Nodes → Except Fault Nodes}
    (hcase1 : ∀ n m m', Closed m as → n ∈ as → case1 n m = .ok m' → Closed m' as)
    (h : Closed m as) (hn : n ∈ as) (hcase : Rbtree.deleteCase3 case1 n m = .ok m') :
    Closed m' as := by
  obtain ⟨s, -, hcase⟩ := bind_eq_ok.mp hcase
  obtain ⟨cond, -, hcase⟩ := bind_eq_ok.mp hcase
  split_ifs at hcase
  · obtain ⟨m₁, h₁, hcase⟩ := bind_eq_ok.mp hcase
    obtain ⟨r, hget, hcase⟩ := bind_eq_ok.mp hcase
    have hclosed := h.setColor h₁
    exact hcase1 _ _ _ hclosed (hclosed.father_of_get hn hget) hcase
  · exact h.deleteCase4 hn hcase

/-- So no pointer leads outside after all the calls. -/
theorem Closed.deleteCase1 (fuel : ℕ) (h : Closed m as) (hn : n ∈ as)
    (hcase : Rbtree.deleteCase1 fuel n m = .ok m') : Closed m' as := by
  induction fuel generalizing n m m' with
  | zero => cases hcase
  | succ fuel ih =>
    have hcase1 (n : ℕ) (m m' : Nodes) (h : Closed m as) (hn : n ∈ as)
        (hcase : Rbtree.deleteCase1 fuel n m = .ok m') : Closed m' as := ih h hn hcase
    obtain ⟨r, hget, hcase⟩ := bind_eq_ok.mp hcase
    split_ifs at hcase
    · obtain ⟨s, hsib, hcase⟩ := bind_eq_ok.mp hcase
      obtain ⟨r₁, -, hcase⟩ := bind_eq_ok.mp hcase
      split_ifs at hcase
      · obtain ⟨r₂, hget₂, hcase⟩ := bind_eq_ok.mp hcase
        obtain ⟨m₁, h₁, hcase⟩ := bind_eq_ok.mp hcase
        obtain ⟨m₂, h₂, hcase⟩ := bind_eq_ok.mp hcase
        obtain ⟨f, -, hcase⟩ := bind_eq_ok.mp hcase
        obtain ⟨m₃, h₃, hcase⟩ := bind_eq_ok.mp hcase
        have hclosed := (h.setColor h₁).setColor h₂
        have hf := h.father_of_get hn hget₂
        have hclosed' : Closed m₃ as := by
          split_ifs at h₃
          · exact hclosed.rotat hf h₃
          · exact hclosed.rotat hf h₃
        exact hclosed'.deleteCase3 hcase1 hn hcase
      · exact h.deleteCase3 hcase1 hn hcase
    · obtain rfl := Except.ok.inj hcase
      exact h

end Closed

section Rebalancing

variable {m m' : Nodes} {s : Side} {cf c : Color} {vf v : NodeVal} {gs : Place} {t : Tree}

/-- Painting in the colour a tree has changes nothing. -/
theorem paint_of_color (h : t.color = c) : t.paint c = t := by
  cases t with
  | leaf a => rfl
  | node c' v l r => rw [← h]; rfl

/-- A red sibling goes up. -/
theorem deleteCase2_red (case1 : ℕ → Nodes → Except Fault Nodes) {l r : Tree}
    (h : Holds m (plug (⟨s, cf, vf, .node .red v l r⟩ :: gs) t)) (ht : t.color = .black) :
    ∃ m', deleteCase2 case1 (addr t) m = deleteCase3 case1 (addr t) m' ∧
      Leaves m' (addrs (plug (⟨s, cf, vf, .node .red v l r⟩ :: gs) t))
        (rotated gs (fork s .black v (fork s .red vf t (s.pick l r)) (s.other.pick l r))) := by
  obtain ⟨m₁, hpaint₁, h₁⟩ := h.paint_father .red
  obtain ⟨m₂, hpaint₂, h₂⟩ := h₁.paint (.inl rfl)
  rw [paint_of_color ht] at h₂
  have hturn : Holds m₂ (plug gs (fork s .red vf t
      (fork s .red v (s.pick l r) (s.other.pick l r)))) := by
    rw [← node_eq_fork]
    exact h₂
  obtain ⟨m₃, hrot, h₃⟩ := hturn.rotat_any
  refine ⟨m₃, ?_, ?_⟩
  · have hleft := h₂.eq_lChild_iff
    have hget : m.get v.addr = .ok (m v.addr) := h.at_sib.get_focus
    have hcolor : (m v.addr).color = .red := h.at_sib.focus.color_eq
    rw [deleteCase2, h.sibling, ok_bind, addr_node, hget, ok_bind, if_pos hcolor, h.get_focus,
      ok_bind, h.father_eq, up_cons]
    dsimp only
    rw [hpaint₁, ok_bind, hpaint₂, ok_bind, h₂.get_frame, ok_bind, if_congr hleft rfl rfl]
    cases s
    · rw [if_pos rfl]
      exact congrArg (· >>= deleteCase3 case1 (addr t)) hrot
    · have hne : Side.right ≠ .left := by decide
      rw [if_neg hne]
      exact congrArg (· >>= deleteCase3 case1 (addr t)) hrot
  · have haddrs : addrs (plug (⟨s, cf, vf, .node .red v l r⟩ :: gs) t) = _ :=
      addrs_congr (inorder_plug_congr (inorder_fork_congr s cf .red vf _ _ rfl rfl) gs)
    rw [haddrs, node_eq_fork s]
    exact h₃

/-- The rebalancing after a deletion. -/
theorem deleteCase1_spec : ∀ (fs : Place) {t : Tree} {m : Nodes} (fuel : ℕ),
    t.color = .black → Holds m (plug fs t) →
    Outcome fuel fs.length (addrs (plug fs t)) (deleteFix fs t) (deleteCase1 fuel (addr t) m)
  | _, _, _, 0, _, _ => .inr (Nat.zero_le _)
  | [], t, m, fuel + 1, _, h => by
    rw [deleteCase1, h.get_focus, ok_bind, h.father_eq, up_nil, if_neg (not_not.mpr rfl), deleteFix]
    exact h
  | ⟨s, cf, vf, sib⟩ :: gs, t, m, fuel + 1, ht, h => by
    have hf0 : vf.addr ≠ 0 := h.around_ne_zero List.mem_cons_self
    rw [deleteCase1, h.get_focus, ok_bind, h.father_eq, up_cons, if_pos hf0]
    cases sib with
    | leaf a =>
      -- a leaf has no children whose colour could be read
      have hcolor : (m a).color = .black := h.at_sib.focus.color_eq
      have hget : m.get a = .ok (m a) := h.at_sib.get_focus
      have hne : Color.black ≠ .red := by decide
      rw [deleteCase2, h.sibling, ok_bind, addr_leaf, hget, ok_bind, hcolor, if_neg hne,
        deleteCase3_leaf h]
      exact .inl rfl
    | node c v l r =>
      cases c with
      | red =>
        obtain ⟨m', hcase, hleaves⟩ := deleteCase2_red (deleteCase1 fuel) h ht
        have hmem : addr t ∈ addrs (plug (⟨s, cf, vf, .node .red v l r⟩ :: gs) t) :=
          (addrs_plug _ t).mem_iff.mpr (List.mem_append_left _ (addr_mem_addrs t))
        rw [hcase, deleteFix]
        dsimp only
        split_ifs with hroot
        · -- the records have no root any more
          rw [rotated, if_pos hroot] at hleaves
          cases hend : deleteCase3 (deleteCase1 fuel) (addr t) m' with
          | error e => exact .inl rfl
          | ok m'' =>
            exact Closed.deleteCase3 (fun n m m' h => h.deleteCase1 fuel) hleaves hmem hend
        · rw [rotated, if_neg hroot] at hleaves
          have h' : Holds m' (plug (⟨s, .red, vf, s.pick l r⟩ ::
            ⟨s, .black, v, s.other.pick l r⟩ :: gs) t) := hleaves
          have haddrs : addrs (plug (⟨s, cf, vf, .node .red v l r⟩ :: gs) t) =
              addrs (plug (⟨s, .red, vf, s.pick l r⟩ ::
                ⟨s, .black, v, s.other.pick l r⟩ :: gs) t) := by
            rw [node_eq_fork s]
            exact addrs_congr (inorder_plug_congr (inorder_rotate s vf v t _ _ _ _ _ _) gs)
          rw [haddrs]
          generalize s.pick l r = inner at h'
          cases inner with
          | leaf a =>
            rw [deleteCase3_leaf h']
            exact .inl rfl
          | node ci w x y =>
            -- after the rotation the father is red, so that nothing is propagated
            have hnot : ¬(Color.red = .black ∧ ci = .black ∧ x.color = .black ∧
              y.color = .black) := fun hand => by cases hand.1
            obtain ⟨m'', hcase', hleaves'⟩ := deleteCase3_settle h' hnot
            rw [hcase']
            exact hleaves'
      | black =>
        have hcolor : (m v.addr).color = .black := h.at_sib.focus.color_eq
        have hget : m.get v.addr = .ok (m v.addr) := h.at_sib.get_focus
        have hne : Color.black ≠ .red := by decide
        rw [deleteCase2, h.sibling, ok_bind, addr_node, hget, ok_bind, hcolor, if_neg hne,
          deleteFix]
        dsimp only
        split_ifs with hblack
        · obtain ⟨rfl, hl, hr⟩ := hblack
          obtain ⟨m', h', hcase⟩ := deleteCase3_black (deleteCase1 fuel) h hl hr
          -- all of them are black: the father is the next place, one node higher up
          have hrec := deleteCase1_spec gs fuel (color_fork _ _ _ _ _) h'
          rw [addr_fork] at hrec
          have haddrs : addrs (plug (⟨s, .black, vf, .node .black v l r⟩ :: gs) t) =
              addrs (plug gs (fork s .black vf t (.node .red v l r))) := by
            have hword : (node .black v l r).inorder = (node .red v l r).inorder := rfl
            exact addrs_congr (inorder_plug_congr
              (inorder_fork_congr s .black .black vf t _ rfl hword) gs)
          rw [hcase, haddrs]
          exact hrec.mono fun hle => Nat.succ_le_succ hle
        · have hnot : ¬(cf = .black ∧ Color.black = .black ∧ l.color = .black ∧
              r.color = .black) := fun hand => hblack ⟨hand.1, hand.2.2⟩
          obtain ⟨m', hcase, hleaves⟩ := deleteCase3_settle h hnot
          rw [hcase]
          exact hleaves

end Rebalancing

/-! ### What is kept -/

section Words

variable {f : Frame NodeVal ℕ} {gs : Place} {t t' : Tree}

/-- `sink` only rotates and paints. -/
theorem inorder_sink (hsib : ∀ k, f.sib ≠ .leaf k) :
    (sink f t).inorder = (fork f.side f.color f.val t f.sib).inorder := by
  obtain ⟨s, cf, vf, sib⟩ := f
  cases sib with
  | leaf a => exact absurd rfl (hsib a)
  | node c v l r =>
    rw [node_eq_fork s]
    by_cases hinner : c = .black ∧ (s.other.pick l r).color = .black ∧
        (s.pick l r).color = .red
    · obtain ⟨rfl, hy, hx⟩ := hinner
      generalize s.pick l r = x at hx
      cases x with
      | leaf a => cases hx
      | node cx w p q =>
        obtain rfl : cx = .red := hx
        rw [node_eq_fork s, sink_inner hy]
        cases s <;> simp [fork, inorder]
    · rw [sink_outer hinner]
      cases s <;> simp [fork, inorder]

/-- The inorder walk of the whole is that of the subtree at its place. -/
theorem inorder_rotated {x : Tree} (h : rotated gs x = some t') :
    t'.inorder = (plug gs x).inorder := by
  rw [rotated] at h
  split_ifs at h
  rw [← Option.some.inj h]

/-- `delete_case4` keeps the inorder walk. -/
theorem inorder_settle (h : settle f gs t = some t') :
    t'.inorder = (plug (f :: gs) t).inorder := by
  obtain ⟨s, cf, vf, sib⟩ := f
  cases sib with
  | leaf a => cases h
  | node c v l r =>
    rw [settle] at h
    dsimp only at h
    split_ifs at h
    · have hword : (node .red v l r).inorder = (node c v l r).inorder := rfl
      rw [← Option.some.inj h]
      exact inorder_plug_congr (inorder_fork_congr s .black cf vf t _ rfl hword) gs
    · rw [inorder_rotated h]
      exact inorder_plug_congr (inorder_sink fun k heq => by cases heq) gs

/-- Rebalancing keeps the word of the tree. -/
theorem inorder_deleteFix : ∀ {fs : Place} {t : Tree}, deleteFix fs t = some t' →
    t'.inorder = (plug fs t).inorder
  | [], _, h => congrArg inorder (Option.some.inj h).symm
  | ⟨s, cf, vf, .leaf a⟩ :: gs, _, h => by cases h
  | ⟨s, cf, vf, .node .red v l r⟩ :: gs, t, h => by
    rw [deleteFix] at h
    dsimp only at h
    split_ifs at h
    rw [inorder_settle h, node_eq_fork s]
    exact inorder_plug_congr (inorder_rotate s vf v t _ _ _ _ _ _).symm gs
  | ⟨s, cf, vf, .node .black v l r⟩ :: gs, t, h => by
    rw [deleteFix] at h
    dsimp only at h
    split_ifs at h
    · have hword : (node .red v l r).inorder = (node .black v l r).inorder := rfl
      rw [inorder_deleteFix h]
      exact inorder_plug_congr (inorder_fork_congr s .black cf vf t _ rfl hword) gs
    · exact inorder_settle h

end Words

end Rbtree

end Lidas
