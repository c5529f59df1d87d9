import Lidas.Rbtree.Represent

/-!
# Rebalancing after an insertion

`insertFix` says of the place of a new node and of the tree there what `insert_case1` makes of them.
It keeps the word of the tree, and it is `none` where the program does not come to an end: at a red
root, where the father of the father is needed, and where the rotation would be at the root, which
leaves a memory without a root.
-/

namespace Lidas

namespace Rbtree

open RbTree

section Reading

variable {m : Nodes} {f g : Frame NodeVal ℕ} {fs : Place} {t : Tree}

/-- The cell of a subtree's root can be read. -/
theorem Holds.get_focus (h : Holds m (plug fs t)) : m.get (addr t) = .ok (m (addr t)) :=
  get_of_ne (h.focus_ne_zero (addr_mem_addrs t))

/-- Its father is the node above. -/
theorem Holds.father_eq (h : Holds m (plug fs t)) : (m (addr t)).father = up fs :=
  h.focus.father_eq

/-- The same tree, seen from the father. -/
theorem Holds.at_father (h : Holds m (plug (f :: fs) t)) :
    Holds m (plug fs (fork f.side f.color f.val t f.sib)) := h

/-- The cell of the father can be read. -/
theorem Holds.get_frame (h : Holds m (plug (f :: fs) t)) :
    m.get f.val.addr = .ok (m f.val.addr) := by
  have hget := h.at_father.get_focus
  rwa [addr_fork] at hget

theorem Holds.frame_color (h : Holds m (plug (f :: fs) t)) :
    (m f.val.addr).color = f.color := by
  rw [h.frame, cell_color]

theorem Holds.frame_father (h : Holds m (plug (f :: fs) t)) :
    (m f.val.addr).father = up fs := by
  rw [h.frame, cell_father]

/-- A subtree and its sibling have different roots. -/
theorem Holds.sib_ne (h : Holds m (plug (f :: fs) t)) : addr t ≠ addr f.sib := by
  have hnodup := h.nodup_plug
  rw [around, List.nodup_append] at hnodup
  exact hnodup.2.2 _ (addr_mem_addrs t) _
    (List.mem_cons_of_mem _ (List.mem_append_left _ (addr_mem_addrs f.sib)))

/-- The sibling is there, if only as a leaf. -/
theorem Holds.sib_ne_zero (h : Holds m (plug (f :: fs) t)) : addr f.sib ≠ 0 :=
  h.around_ne_zero (List.mem_cons_of_mem _ (List.mem_append_left _ (addr_mem_addrs f.sib)))

/-- The tests of the program for the side of a node. -/
theorem Holds.eq_lChild_iff (h : Holds m (plug (f :: fs) t)) :
    addr t = (m f.val.addr).lChild ↔ f.side = .left := by
  rw [h.frame]
  cases f.side
  · exact iff_of_true rfl rfl
  · exact iff_of_false h.sib_ne (by decide)

/-- Comparing with the right child tells the side. -/
theorem Holds.eq_rChild_iff (h : Holds m (plug (f :: fs) t)) :
    addr t = (m f.val.addr).rChild ↔ f.side = .right := by
  rw [h.frame]
  cases f.side
  · exact iff_of_false h.sib_ne (by decide)
  · exact iff_of_true rfl rfl

/-- Of the two children of a father, one is at the place and the other one is its sibling. -/
theorem Holds.ite_lChild (h : Holds m (plug (f :: fs) t)) :
    (if addr t = (m f.val.addr).lChild then (m f.val.addr).rChild else (m f.val.addr).lChild) =
      addr f.sib := by
  rw [if_congr h.eq_lChild_iff rfl rfl, h.frame]
  cases f.side <;> rfl

/-- Only the root has no father. -/
theorem Holds.up_eq_zero_iff (h : Holds m (plug fs t)) : up fs = 0 ↔ fs = [] := by
  cases fs with
  | nil => exact iff_of_true rfl rfl
  | cons f fs => exact iff_of_false (h.around_ne_zero List.mem_cons_self) (List.cons_ne_nil f fs)

/-- `get_uncle` returns the father's sibling. -/
theorem Holds.getUncle (h : Holds m (plug (f :: g :: fs) t)) :
    Rbtree.getUncle m (addr t) = .ok (addr g.sib) := by
  have hg := h.at_father
  have hf0 : f.val.addr ≠ 0 := h.around_ne_zero List.mem_cons_self
  have hg0 : g.val.addr ≠ 0 := hg.around_ne_zero List.mem_cons_self
  rw [Rbtree.getUncle, h.get_focus, ok_bind, h.father_eq, up]
  dsimp only
  rw [if_neg hf0, h.get_frame, ok_bind, h.frame_father, up, if_neg hg0, hg.get_frame, ok_bind]
  have hside := hg.ite_lChild
  rw [addr_fork] at hside
  split_ifs at hside ⊢ <;> exact congrArg _ hside

/-- `sibling` returns the other child of the father. -/
theorem Holds.sibling (h : Holds m (plug (f :: fs) t)) :
    Rbtree.sibling m (addr t) = .ok (addr f.sib) := by
  have hside := h.ite_lChild
  rw [Rbtree.sibling, h.get_focus, ok_bind, h.father_eq, up, h.get_frame, ok_bind]
  split_ifs at hside ⊢ <;> exact congrArg _ hside

/-- Painting the father of a place. -/
theorem Holds.paint_father (h : Holds m (plug (f :: fs) t)) (c : Color) :
    ∃ m', m.modify f.val.addr (.setColor c) = .ok m' ∧ Holds m' (plug (f.paint c :: fs) t) := by
  obtain ⟨m', hpaint, h'⟩ := h.at_father.paint (c := c) (.inr fun _ => fork_ne_leaf _ _ _ _ _ _)
  rw [addr_fork] at hpaint
  rw [paint_fork] at h'
  exact ⟨m', hpaint, h'⟩

end Reading

/-- What is left of a memory: a tree, or no root. -/
def Leaves (m : Nodes) (as : List ℕ) : Option Tree → Prop
  | some t => Holds m t
  | none => Closed m as

/-- What a function that rebalances comes to, `enough` being the number of calls that it needs. It
does not return where there is no tree to return, or leaves no root. -/
def Outcome (fuel enough : ℕ) (as : List ℕ) (o : Option Tree) : Except Fault Nodes → Prop
  | .ok m => Leaves m as o
  | .error _ => o = none ∨ fuel ≤ enough

/-- An outcome stays one with other bounds on the rounds. -/
theorem Outcome.mono {fuel fuel' enough enough' : ℕ} {as : List ℕ} {o : Option Tree}
    {x : Except Fault Nodes} (hle : fuel ≤ enough → fuel' ≤ enough')
    (h : Outcome fuel enough as o x) : Outcome fuel' enough' as o x := by
  cases x with
  | ok m => exact h
  | error e => exact h.imp_right hle

/-- What a rotation at a place comes to. -/
def rotated (fs : Place) (t : Tree) : Option Tree := if fs = [] then none else some (plug fs t)

/-- What `insert_case3` and `insert_case4` make of a node, its father `f` and the father `g` of
that: the node goes up twice if it is an inner one. -/
def lift (f g : Frame NodeVal ℕ) (t : Tree) : Tree :=
  if f.side = g.side then fork g.side .black f.val t (fork g.side .red g.val f.sib g.sib)
  else
    match t with
    | .leaf a => .leaf a
    | .node _ v l r =>
      fork g.side .black v (fork g.side .red f.val f.sib (g.side.pick l r))
        (fork g.side .red g.val (g.side.other.pick l r) g.sib)

/-- What `insert_case1` makes of a tree at a place, if it returns. -/
def insertFix : Place → Tree → Option Tree
  | [], _ => none
  | [f], t => if f.color = .black then some (plug [f] t) else none
  | f :: g :: gs, t =>
    if f.color = .black then some (plug (f :: g :: gs) t)
    else if g.sib.color = .red then
      -- the uncle stays red
      if gs = [] then some (fork g.side .black g.val (fork f.side .black f.val t f.sib) g.sib)
      else insertFix gs (fork g.side .red g.val (fork f.side .black f.val t f.sib) g.sib)
    else rotated gs (lift f g t)

section Cases

variable {m m' : Nodes} {s : Side} {f g : Frame NodeVal ℕ} {fs gs : Place} {t : Tree}
  {cp cr : Color} {vp vr : NodeVal} {x y z : Tree}

/-- A rotation at any place. -/
theorem Holds.rotat_any (h : Holds m (plug fs (fork s cp vp x (fork s cr vr y z)))) :
    ∃ m', Rbtree.rotat s vp.addr m = .ok m' ∧
      Leaves m' (addrs (plug fs (fork s cp vp x (fork s cr vr y z))))
        (rotated fs (fork s .black vr (fork s .red vp x y) z)) := by
  cases fs with
  | nil => exact h.rotat_root
  | cons f fs => exact h.rotat

/-- A node that is an outer one goes down on the other side when its father is rotated. -/
theorem insertCase4_spec (h : Holds m (plug (f :: g :: gs) t)) (hside : f.side = g.side) :
    ∃ m', insertCase4 (addr t) m = .ok m' ∧ Leaves m' (addrs (plug (f :: g :: gs) t))
      (rotated gs (fork g.side .black f.val t (fork g.side .red g.val f.sib g.sib))) := by
  obtain ⟨m₁, hpaint₁, h₁⟩ := h.paint_father .black
  obtain ⟨m₂, hpaint₂, h₂⟩ := h₁.at_father.paint_father .red
  have hf : Holds m₂ (plug (f.paint .black :: g.paint .red :: gs) t) := h₂
  have hturn : (if addr t = (m₂ f.val.addr).lChild ∧ f.val.addr = (m₂ g.val.addr).lChild then
      rotatRight g.val.addr m₂ else rotatLeft g.val.addr m₂) =
        rotat g.side.other g.val.addr m₂ := by
    have hiff := hf.eq_lChild_iff
    have hiff' := h₂.eq_lChild_iff
    simp only [addr_fork, hside] at hiff hiff'
    simp only [hiff, hiff', and_self]
    cases g.side <;> rfl
  have hrotat : Holds m₂ (plug gs (fork g.side.other .red g.val g.sib
      (fork g.side.other .black f.val f.sib t))) := by
    rw [fork_other, fork_other, ← hside]
    exact hside ▸ h₂
  obtain ⟨m₃, hrot, h₃⟩ := hrotat.rotat_any
  refine ⟨m₃, ?_, ?_⟩
  · rw [insertCase4, h.get_focus, ok_bind, h.father_eq, up]
    dsimp only
    rw [hpaint₁, ok_bind, h₁.get_frame, ok_bind, h₁.frame_father, up, hpaint₂, ok_bind,
      hf.get_frame, ok_bind, h₂.get_frame, ok_bind, hturn, hrot]
  · have haddrs : addrs (plug (f :: g :: gs) t) = _ :=
      addrs_congr (inorder_plug_congr (inorder_fork_congr g.side g.color .red g.val _ _
        (inorder_fork_congr f.side f.color .black f.val _ _ rfl rfl) rfl) gs)
    rw [fork_other, fork_other, fork_other, fork_other, ← hside] at h₃
    rw [haddrs, ← hside]
    exact h₃

/-- A node that is an inner one is rotated to the outside first. -/
theorem insertCase3_spec {c : Color} {v : NodeVal} {l r : Tree}
    (h : Holds m (plug (f :: g :: gs) (.node c v l r))) :
    ∃ m', insertCase3 v.addr m = .ok m' ∧ Leaves m' (addrs (plug (f :: g :: gs) (.node c v l r)))
      (rotated gs (lift f g (.node c v l r))) := by
  have hfather := h.father_eq
  have hget := h.get_focus
  have hl := h.eq_lChild_iff
  have hr := h.eq_rChild_iff
  have hl' := h.at_father.eq_lChild_iff
  have hr' := h.at_father.eq_rChild_iff
  have hgetf := h.get_frame
  have hgetg := h.at_father.get_frame
  have hfatherf := h.frame_father
  simp only [addr_fork, addr_node, up_cons] at hl hr hl' hr' hfather hget hfatherf
  by_cases hside : f.side = g.side
  · -- an outer grandchild goes on to the fourth case as it is
    obtain ⟨m', hcase, hleaves⟩ := insertCase4_spec h hside
    refine ⟨m', ?_, ?_⟩
    · rw [insertCase3, hget, ok_bind, hfather]
      dsimp only
      rw [hgetf, ok_bind, hfatherf, hgetg]
      simp only [ok_bind, pure_eq_ok, hr, hl, hl', hr', hside]
      cases g.side <;> exact hcase
    · rw [lift, if_pos hside]
      exact hleaves
  · -- an inner grandchild: the father is rotated down first, and takes the place of the node
    have hother : f.side = g.side.other := Side.ne_iff.mp hside
    have hin : Holds m (plug (g :: gs) (fork g.side f.color f.val f.sib
        (fork g.side c v (g.side.pick l r) (g.side.other.pick l r)))) := by
      rw [← node_eq_fork, ← fork_other, ← hother]
      exact h.at_father
    obtain ⟨m₁, hrot, h₁⟩ := hin.rotat
    have hout : Holds m₁ (plug (⟨g.side, .black, v, g.side.other.pick l r⟩ :: g :: gs)
        (fork g.side .red f.val f.sib (g.side.pick l r))) := h₁
    obtain ⟨m', hcase, hleaves⟩ := insertCase4_spec hout rfl
    have hget₁ := hout.get_frame
    have hdown : (m₁ v.addr).child g.side = f.val.addr := by
      rw [hout.frame, cell_child, addr_fork]
    rw [addr_fork] at hcase
    refine ⟨m', ?_, ?_⟩
    · rw [insertCase3, hget, ok_bind, hfather]
      dsimp only
      rw [hgetf, ok_bind, hfatherf, hgetg]
      simp only [ok_bind, pure_eq_ok, hr, hl, hl', hr', hother]
      cases hs : g.side with
      | left =>
        rw [hs] at hrot hdown
        simp only [Side.other, if_true, ok_bind, decide_true, rotatLeft, hrot, hget₁]
        rw [← hdown] at hcase
        exact hcase
      | right =>
        rw [hs] at hrot hdown
        simp only [Side.other, reduceCtorEq, if_false, if_true, ok_bind, decide_true, rotatRight,
          hrot, hget₁]
        rw [← hdown] at hcase
        exact hcase
    · -- the rotation has not changed the inorder walk, and so not the blocks in use
      have hword : (fork f.side f.color f.val (.node c v l r) f.sib).inorder =
          (fork g.side .black v (fork g.side .red f.val f.sib (g.side.pick l r))
            (g.side.other.pick l r)).inorder := by
        rw [node_eq_fork g.side, hother, fork_other]
        exact inorder_rotate _ _ _ _ _ _ _ _ _ _
      have haddrs : addrs (plug (f :: g :: gs) (.node c v l r)) = _ :=
        addrs_congr (inorder_plug_congr hword (g :: gs))
      rw [haddrs, lift, if_neg hside]
      exact hleaves

/-- Below a red root there is no father of the father. -/
theorem insertCase3_root {f : Frame NodeVal ℕ} (h : Holds m (plug [f] t)) :
    insertCase3 (addr t) m = .error .nullDeref := by
  have hl := h.eq_lChild_iff
  have hr := h.eq_rChild_iff
  rw [insertCase3, h.get_focus, ok_bind, h.father_eq, up_cons]
  dsimp only
  rw [h.get_frame, ok_bind, h.frame_father, up_nil, Nodes.get, if_pos rfl]
  simp only [hl, hr, pure_eq_ok]
  cases f.side <;> rfl

/-- Below the root there is no uncle. -/
theorem getUncle_root {f : Frame NodeVal ℕ} (h : Holds m (plug [f] t)) :
    getUncle m (addr t) = .ok 0 := by
  have hf0 : f.val.addr ≠ 0 := h.around_ne_zero List.mem_cons_self
  rw [getUncle, h.get_focus, ok_bind, h.father_eq, up_cons]
  dsimp only
  rw [if_neg hf0, h.get_frame, ok_bind, h.frame_father, up_nil]
  rfl

/-- The branch of `insert_case2` for a red uncle, who stays red. -/
theorem insertCase2_red (case1 : ℕ → Nodes → Except Fault Nodes)
    (h : Holds m (plug (f :: g :: gs) t)) (hred : g.sib.color = .red) :
    ∃ m', Holds m' (plug (f.paint .black :: g.paint (if gs = [] then .black else .red) :: gs) t) ∧
      insertCase2 case1 (addr t) m = if gs = [] then .ok m' else case1 g.val.addr m' := by
  obtain ⟨m₁, hpaint₁, h₁⟩ := h.paint_father .black
  obtain ⟨m₂, hpaint₂, h₂⟩ := h₁.paint_father .black
  obtain ⟨m₃, hpaint₃, h₃⟩ := h₂.at_father.paint_father (if gs = [] then .black else .red)
  have hg0 : g.val.addr ≠ 0 := h.at_father.around_ne_zero List.mem_cons_self
  have hcolor : (m (addr g.sib)).color = .red := h.at_father.sib.color_eq.trans hred
  refine ⟨m₃, h₃, ?_⟩
  rw [insertCase2, h.getUncle, ok_bind, if_pos h.at_father.sib_ne_zero,
    get_of_ne h.at_father.sib_ne_zero, ok_bind, hcolor]
  simp only [pure_eq_ok, ok_bind, decide_true, if_true]
  rw [h.get_focus, ok_bind, h.father_eq, up_cons, hpaint₁, ok_bind, hpaint₂, ok_bind,
    h₂.get_frame, ok_bind, h₂.frame_father, up_cons, if_pos hg0, h₂.at_father.get_frame, ok_bind,
    h₂.at_father.frame_father, if_congr h₂.at_father.at_father.up_eq_zero_iff rfl rfl]
  split_ifs at hpaint₃ ⊢
  · exact hpaint₃
  · rw [hpaint₃, ok_bind]

/-- The rebalancing after an insertion. -/
theorem insertCase1_spec : ∀ (fs : Place) {t : Tree} {m : Nodes} (fuel : ℕ),
    (∀ k, t ≠ .leaf k) → Holds m (plug fs t) →
    Outcome fuel fs.length (addrs (plug fs t)) (insertFix fs t) (insertCase1 fuel (addr t) m)
  | _, _, _, 0, _, _ => .inr (Nat.zero_le _)
  | [], _, m, fuel + 1, _, h => by
    rw [insertCase1, h.get_focus, ok_bind, h.father_eq, up_nil]
    exact .inl rfl
  | [f], t, m, fuel + 1, _, h => by
    rw [insertCase1, h.get_focus, ok_bind, h.father_eq, up_cons, h.get_frame, ok_bind,
      h.frame_color, insertFix]
    split_ifs
    · exact h
    · rw [insertCase2, getUncle_root h, ok_bind]
      rw [if_neg (not_not.mpr rfl), pure_eq_ok, ok_bind, if_neg Bool.false_ne_true,
        insertCase3_root h]
      exact .inl rfl
  | f :: g :: gs, t, m, fuel + 1, ht, h => by
    rw [insertCase1, h.get_focus, ok_bind, h.father_eq, up_cons, h.get_frame, ok_bind,
      h.frame_color, insertFix]
    split_ifs with hblack hred hroot
    · exact h
    · -- a red uncle: recolour, and stop at the root or climb two levels
      obtain ⟨m', h', hcase⟩ := insertCase2_red (insertCase1 fuel) h hred
      subst hroot
      rw [hcase]
      exact h'
    · obtain ⟨m', h', hcase⟩ := insertCase2_red (insertCase1 fuel) h hred
      rw [hcase, if_neg hroot]
      rw [if_neg hroot] at h'
      have hrec :=
        insertCase1_spec gs fuel (fun _ => fork_ne_leaf _ _ _ _ _ _) h'.at_father.at_father
      rw [addr_fork] at hrec
      have haddrs : addrs (plug (f :: g :: gs) t) = _ :=
        addrs_congr (inorder_plug_congr (inorder_fork_congr g.side g.color .red g.val _ _
          (inorder_fork_congr f.side f.color .black f.val _ _ rfl rfl) rfl) gs)
      rw [haddrs]
      exact hrec.mono fun hle => Nat.succ_le_succ (Nat.le_succ_of_le hle)
    · -- a black uncle: the rotations of the third case end the climb
      have hcolor : (m (addr g.sib)).color ≠ .red := h.at_father.sib.color_eq ▸ hred
      rw [insertCase2, h.getUncle, ok_bind, if_pos h.at_father.sib_ne_zero,
        get_of_ne h.at_father.sib_ne_zero, ok_bind, pure_eq_ok, ok_bind, decide_eq_false hcolor,
        if_neg Bool.false_ne_true]
      cases t with
      | leaf k => exact absurd rfl (ht k)
      | node c v l r =>
        obtain ⟨m', hcase, hleaves⟩ := insertCase3_spec h
        rw [addr_node, hcase]
        exact hleaves

end Cases

/-! ### What is kept -/

section Words

variable {f g : Frame NodeVal ℕ} {t t' : Tree}

/-- The rotations of an insertion keep the inorder walk. -/
theorem inorder_lift (ht : ∀ k, t ≠ .leaf k) :
    (lift f g t).inorder = (plug [f, g] t).inorder := by
  cases t with
  | leaf k => exact absurd rfl (ht k)
  | node c v l r =>
    obtain ⟨side, cf, vf, sf⟩ := f
    obtain ⟨side', cg, vg, sg⟩ := g
    cases side <;> cases side' <;> simp [lift, fork, inorder, Side.pick, Side.other]

/-- Rebalancing keeps the word of the tree. -/
theorem inorder_insertFix : ∀ {fs : Place} {t : Tree}, (∀ k, t ≠ .leaf k) →
    insertFix fs t = some t' → t'.inorder = (plug fs t).inorder
  | [], _, _, h => by cases h
  | [f], t, _, h => by
    rw [insertFix] at h
    split_ifs at h
    exact congrArg inorder (Option.some.inj h).symm
  | f :: g :: gs, t, ht, h => by
    rw [insertFix] at h
    have hpaint (c : Color) :
        (fork g.side c g.val (fork f.side .black f.val t f.sib) g.sib).inorder =
          (plug [f, g] t).inorder :=
      inorder_fork_congr g.side c g.color g.val _ _
        (inorder_fork_congr f.side .black f.color f.val _ _ rfl rfl) rfl
    split_ifs at h with hblack hred hroot
    · exact congrArg inorder (Option.some.inj h).symm
    · subst hroot
      rw [← Option.some.inj h]
      exact hpaint .black
    · rw [inorder_insertFix (fun _ => fork_ne_leaf _ _ _ _ _ _) h]
      exact inorder_plug_congr (hpaint .red) gs
    · rw [rotated] at h
      split_ifs at h
      rw [← Option.some.inj h]
      exact inorder_plug_congr (inorder_lift ht) gs

end Words

end Rbtree

end Lidas
