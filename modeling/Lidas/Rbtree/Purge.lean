import Lidas.Rbtree.Accounting
import Lidas.Rbtree.Removal

/-!
# Selective purge

`rbtree_ergodic` pushes the keys that the handler accepts, that of a node before those of its
children, and `rbtree_stack_del` pops them, the children first. It reads a key when it pops it, from
the node that it was pushed for. That node is still there if no earlier deletion was of a node with
two children: such a deletion takes the key of another node, and the cleaner is called for both. A
deletion is of the node that was accepted if the search finds it. The root is handed over by value,
so that it must not be freed while a tree is left.
-/

namespace Lidas

namespace Rbtree

open RbTree

/-! ### Rebalancing that does not end -/

section Stuck

variable {f : Frame NodeVal ℕ} {fs gs : Place} {c : Color} {v : NodeVal} {l r t t' : Tree}

/-- Rebalancing at a place asks for a child of a leaf, or for a rotation at the root. -/
def Stuck : Place → Prop
  | [] => False
  | f :: gs =>
    match f.sib with
    | .leaf _ => True
    | .node .red _ l r => gs = [] ∨ ∃ a, f.side.pick l r = .leaf a
    | .node .black _ l r =>
      if l.color = .black ∧ r.color = .black then f.color = .black ∧ Stuck gs else gs = []

/-- Only a rotation at the root fails. -/
theorem rotated_eq_none : rotated gs t = none ↔ gs = [] := by
  rw [rotated]
  split_ifs with hgs
  · exact iff_of_true rfl hgs
  · exact iff_of_false id hgs

/-- `delete_case4` does not return if it rotates at the root. -/
theorem settle_eq_none (hsib : f.sib = .node c v l r) : settle f gs t = none ↔
    ¬(f.color = .red ∧ c = .black ∧ l.color = .black ∧ r.color = .black) ∧ gs = [] := by
  rw [settle, hsib]
  dsimp only
  split_ifs with hcase
  · exact iff_of_false id fun h => h.1 hcase
  · rw [rotated_eq_none, and_iff_right hcase]

/-- Rebalancing does not return where it is stuck, and only there. -/
theorem deleteFix_eq_none : ∀ {fs : Place} {t : Tree}, deleteFix fs t = none ↔ Stuck fs
  | [], t => iff_of_false (Option.some_ne_none _) id
  | ⟨s, cf, vf, .leaf a⟩ :: gs, t => iff_of_true rfl trivial
  | ⟨s, cf, vf, .node .red v l r⟩ :: gs, t => by
    rw [deleteFix, Stuck]
    dsimp only
    by_cases hgs : gs = []
    · simp [hgs]
    · rw [if_neg hgs, or_iff_right hgs]
      cases hinner : s.pick l r with
      | leaf a => exact iff_of_true rfl ⟨a, rfl⟩
      | node c w x y =>
        rw [settle_eq_none rfl]
        refine iff_of_false (fun h => List.cons_ne_nil _ _ h.2) ?_
        rintro ⟨a, ha⟩
        cases ha
  | ⟨s, cf, vf, .node .black v l r⟩ :: gs, t => by
    rw [deleteFix, Stuck]
    dsimp only
    by_cases hchildren : l.color = .black ∧ r.color = .black
    · rw [if_pos hchildren]
      by_cases hf : cf = .black
      · rw [if_pos ⟨hf, hchildren⟩, deleteFix_eq_none, and_iff_right hf]
      · rw [if_neg fun h => hf h.1, settle_eq_none rfl]
        refine iff_of_false (fun h => h.1 ⟨Color.ne_black.mp hf, rfl, hchildren⟩) fun h => hf h.1
    · rw [if_neg fun h => hchildren h.2, if_neg hchildren, settle_eq_none rfl]
      exact and_iff_right fun h => hchildren h.2.2

/-- The root of the whole is another node than that of a subtree below it. -/
theorem addr_plug_of_ne_nil (hgs : gs ≠ []) (t t' : Tree) :
    addr (plug gs t) = addr (plug gs t') := by
  cases gs with
  | nil => exact absurd rfl hgs
  | cons g gs => exact addr_plug_congr (by rw [addr_fork, addr_fork]) gs

/-- A rotation below the root leaves the address of the root. -/
theorem addr_rotated {x : Tree} (h : rotated gs x = some t') (t : Tree) :
    addr t' = addr (plug gs t) := by
  rw [rotated] at h
  split_ifs at h with hgs
  rw [← Option.some.inj h]
  exact addr_plug_of_ne_nil hgs x t

/-- So `delete_case4` leaves it where it returns. -/
theorem addr_settle (h : settle f gs t = some t') : addr t' = addr (plug (f :: gs) t) := by
  obtain ⟨s, cf, vf, sib⟩ := f
  cases sib with
  | leaf a => cases h
  | node c v l r =>
    rw [settle] at h
    dsimp only at h
    split_ifs at h
    · rw [← Option.some.inj h]
      exact addr_plug_congr (by rw [addr_fork, addr_fork]) gs
    · exact addr_rotated h _

/-- Rebalancing keeps the root. -/
theorem addr_deleteFix : ∀ {fs : Place} {t : Tree}, deleteFix fs t = some t' →
    addr t' = addr (plug fs t)
  | [], _, h => congrArg addr (Option.some.inj h).symm
  | ⟨s, cf, vf, .leaf a⟩ :: gs, _, h => by cases h
  | ⟨s, cf, vf, .node .red v l r⟩ :: gs, t, h => by
    rw [deleteFix] at h
    dsimp only at h
    split_ifs at h with hgs
    exact (addr_settle h).trans (addr_plug_of_ne_nil hgs _ _)
  | ⟨s, cf, vf, .node .black v l r⟩ :: gs, t, h => by
    rw [deleteFix] at h
    dsimp only at h
    split_ifs at h
    · rw [addr_deleteFix h]
      exact addr_plug_congr (by rw [addr_fork, addr_fork]) gs
    · exact addr_settle h

end Stuck

/-! ### A node that goes -/

/-- A node can go: it has at most one child, it is not the root unless it has none, and rebalancing,
which there is when it and its child are black, ends. -/
inductive CanGo (fs : Place) : Tree → Prop
  | leaf (c : Color) (v : NodeVal) (a b : ℕ) : CanGo fs (.node c v (.leaf a) (.leaf b))
  | one (s : Side) (c : Color) (v : NodeVal) (a : ℕ) (x : Tree) (hfs : fs ≠ [])
      (hfix : c = .black → x.color = .black → ¬Stuck fs) : CanGo fs (fork s c v (.leaf a) x)

section Going

variable {s : Side} {c : Color} {v : NodeVal} {l r x t t' z : Tree} {fs : Place} {a : ℕ}
  {key : BitVec 32} {ret : ℤ} {data : List ℕ}

/-- A node below the root can be taken out without a new root. -/
theorem addr_unlink (hfs : fs ≠ []) (h : unlink fs c x = some t') (z : Tree) :
    addr t' = addr (plug fs z) := by
  refine Eq.trans ?_ (addr_plug_of_ne_nil hfs x z)
  rw [unlink] at h
  split_ifs at h
  · rw [← Option.some.inj h]
  · rw [← Option.some.inj h]
    exact addr_plug_congr (addr_paint .black x) fs
  · exact addr_deleteFix h

/-- Only a black node with a black child is rebalanced, and so can be stuck. -/
theorem unlink_eq_none : unlink fs c x = none ↔ c = .black ∧ x.color = .black ∧ Stuck fs := by
  rw [unlink]
  split_ifs with hc hx
  · exact iff_of_false id fun h => (by cases hc.symm.trans h.1)
  · exact iff_of_false id fun h => (by cases hx.symm.trans h.2.1)
  · rw [deleteFix_eq_none, and_iff_right (Color.ne_red.mp hc), and_iff_right (Color.ne_red.mp hx)]

/-- What is left without a node that can go has the same root. -/
theorem CanGo.removeOne (h : CanGo fs z) : ∃ s c v a x t', z = fork s c v (.leaf a) x ∧
    Rbtree.removeOne fs z = some t' ∧ addr t' = addr (plug fs z) := by
  cases h with
  | leaf c v a b =>
    have haddr : addr (RbTree.leaf v.addr : Tree) = addr (.node c v (.leaf a) (.leaf b)) := rfl
    exact ⟨.left, c, v, a, .leaf b, _, rfl, rfl, addr_plug_congr haddr fs⟩
  | one s c v a x hfs hfix =>
    cases x with
    | leaf b =>
      exact ⟨s, c, v, a, _, _, rfl, removeOne_leaf b, addr_plug_congr (by rw [addr_fork]; rfl) fs⟩
    | node cx w l r =>
      rw [removeOne_node fun k heq => by cases heq]
      cases hunlink : unlink fs c (.node cx w l r) with
      | none =>
        obtain ⟨hc, hx, hstuck⟩ := unlink_eq_none.mp hunlink
        exact absurd hstuck (hfix hc hx)
      | some t' => exact ⟨s, c, v, a, _, t', rfl, rfl, addr_unlink hfs hunlink _⟩

/-- Conversely, when the root is left or there was no other node. -/
theorem canGo_of_removeOne (h : removeOne fs (fork s c v (.leaf a) x) = some t')
    (hnodup : (addrs (plug fs (fork s c v (.leaf a) x))).Nodup)
    (hroot : addr (plug fs (fork s c v (.leaf a) x)) ∈ addrs t') :
    CanGo fs (fork s c v (.leaf a) x) := by
  cases x with
  | leaf b =>
    cases s
    · exact .leaf c v a b
    · exact .leaf c v b a
  | node cx w l r =>
    rw [removeOne_node fun k heq => by cases heq] at h
    refine .one s c v a _ ?_ fun hc hx hstuck => ?_
    · rintro rfl
      -- the root itself has gone
      rw [addrs_congr (inorder_unlink h), plug_nil, plug_nil, addr_fork] at hroot
      have hperm := (addrs_plug_fork [] s c v a (.node cx w l r)).nodup_iff.mp hnodup
      exact (List.nodup_cons.mp hperm).1 (List.mem_cons_of_mem a hroot)
    · rw [unlink_eq_none.mpr ⟨hc, hx, hstuck⟩] at h
      cases h

/-- A node with two children cannot go. -/
theorem not_canGo {cl cr : Color} {vl vr : NodeVal} {ll lr rl rr : Tree}
    (hz : z = .node c v (.node cl vl ll lr) (.node cr vr rl rr)) : ¬CanGo fs z := by
  rintro (⟨c', v', a', b'⟩ | ⟨s, c', v', a', x, -, -⟩)
  · cases hz
  · cases s <;> cases hz

/-- The deletion takes no new cells. -/
theorem addrs_removeOne (h : removeOne fs (fork s c v (.leaf a) x) = some t') :
    addrs t' ⊆ addrs (plug fs (fork s c v (.leaf a) x)) := by
  cases x with
  | leaf b =>
    rw [removeOne_leaf] at h
    rw [← Option.some.inj h]
    intro y hy
    rw [(addrs_plug fs _).mem_iff, List.mem_append] at hy ⊢
    refine hy.imp_left fun hy => ?_
    rw [List.mem_singleton.mp hy, (addrs_fork s c v (.leaf a) (.leaf b)).mem_iff]
    exact List.mem_cons_self
  | node cx w l r =>
    rw [removeOne_node fun k heq => by cases heq] at h
    rw [addrs_congr (inorder_unlink h)]
    intro y hy
    rw [(addrs_plug_fork fs s c v a _).mem_iff]
    exact List.mem_cons_of_mem _ (List.mem_cons_of_mem _ hy)

/-- A deletion that returns takes one node out, or two calls of the cleaner. -/
theorem of_deleteAt (h : deleteAt fs (.node c v l r) = some (t', data)) :
    addrs t' ⊆ addrs (plug fs (.node c v l r)) ∧ data ≠ [] ∧
      (data.length = 1 → ∃ s a x, .node c v l r = fork s c v (.leaf a) x ∧ data = [v.data] ∧
        removeOne fs (fork s c v (.leaf a) x) = some t') := by
  have hone {s : Side} {a : ℕ} {x : Tree}
      (h : deleteAt fs (fork s c v (.leaf a) x) = some (t', data)) :
      addrs t' ⊆ addrs (plug fs (fork s c v (.leaf a) x)) ∧ data ≠ [] ∧
        (data.length = 1 → ∃ s' a' x', fork s c v (.leaf a) x = fork s' c v (.leaf a') x' ∧
          data = [v.data] ∧ removeOne fs (fork s' c v (.leaf a') x') = some t') := by
    rw [deleteAt_fork] at h
    obtain ⟨t, hremove, hpair⟩ := Option.map_eq_some_iff.mp h
    obtain ⟨rfl, rfl⟩ := Prod.mk.inj hpair
    exact ⟨addrs_removeOne hremove, List.cons_ne_nil _ _, fun _ => ⟨s, a, x, rfl, rfl, hremove⟩⟩
  cases l with
  | leaf a => exact hone (s := .left) h
  | node cl vl ll lr =>
    cases r with
    | leaf b => exact hone (s := .right) h
    | node cr vr rl rr =>
      obtain ⟨rel, cw, w, a, x, hrep, hremove, rfl⟩ := of_deleteAt_two h
      refine ⟨?_, List.cons_ne_nil _ _, fun hlength => by cases hlength⟩
      set v' : NodeVal := { v with key := w.key, data := w.data }
      have hsub := addrs_removeOne hremove
      have hplug := plug_rel hrep fs c v' (.node cr vr rl rr)
      have haddr : v'.addr = v.addr := rfl
      rwa [fork, hplug, addrs_revalue haddr] at hsub

/-- A deletion returns without a change, or one node is gone. -/
theorem of_deleteTree (h : deleteTree key t = some (ret, t', data)) :
    (t' = t ∧ data = []) ∨ ∃ fs z, search key [] t = some (fs, z) ∧ t'.size + 1 = t.size ∧
      addrs t' ⊆ addrs t ∧ data ≠ [] ∧ (data.length = 1 → ∃ s c v a x,
        z = fork s c v (.leaf a) x ∧ removeOne fs (fork s c v (.leaf a) x) = some t') := by
  have hsize := size_deleteTree h
  rw [deleteTree] at h
  cases hsearch : search key [] t with
  | none =>
    rw [hsearch] at h
    obtain ⟨-, hrest⟩ := Prod.mk.inj (Option.some.inj h)
    obtain ⟨rfl, rfl⟩ := Prod.mk.inj hrest
    exact .inl ⟨rfl, rfl⟩
  | some place =>
    obtain ⟨fs, z⟩ := place
    obtain ⟨hplug, c, v, l, r, rfl, -⟩ := of_search hsearch
    rw [plug_nil] at hplug
    rw [hsearch] at h
    obtain ⟨⟨t₁, data₁⟩, hat, heq⟩ := Option.map_eq_some_iff.mp h
    obtain ⟨rfl, hrest⟩ := Prod.mk.inj heq
    obtain ⟨rfl, rfl⟩ := Prod.mk.inj hrest
    obtain ⟨hsub, hdata, hone⟩ := of_deleteAt hat
    refine .inr ⟨fs, _, rfl, ?_, hplug ▸ hsub, hdata, fun hlength => ?_⟩
    · exact (size_deleteAt hat).trans (congrArg RbTree.size hplug)
    · obtain ⟨s, a, x, hz, -, hremove⟩ := hone hlength
      exact ⟨s, c, v, a, x, hz, hremove⟩

end Going

/-! ### The run of the deletions -/

/-- The nodes, each before its children. -/
def preorder : Tree → List NodeVal
  | .leaf _ => []
  | .node _ v l r => v :: (preorder l ++ preorder r)

/-- The nodes whose data the handler accepts, in the order in which their keys are popped. -/
def popped (handler : ℕ → Bool) (t : Tree) : List NodeVal :=
  ((preorder t).filter fun v => handler v.data).reverse

/-- Each deletion of the keys is of a node that the search finds and that can go. -/
def Clear : List (BitVec 32) → Tree → Prop
  | [], _ => True
  | key :: keys, t => ∃ fs z, search key [] t = some (fs, z) ∧ CanGo fs z ∧
      ∀ t', removeOne fs z = some t' → Clear keys t'

/-- A round of the loop of `rbtree_stack_del`. -/
def pop (fuel : ℕ) (s : State) (k : ℕ) : Option State :=
  step s ⟨fuel, .delete (s.heap.node k).key⟩

/-- A block has neither been freed nor overwritten. -/
structure Intact (before after : Heap) (k : ℕ) : Prop where
  free : k ∉ after.pool.free
  nil : (after.node k).nil = (before.node k).nil
  key : (after.node k).key = (before.node k).key
  data : (after.node k).data = (before.node k).data

section Run

variable {m m' : Heap} {root root' fuel : ℕ} {t z : Tree} {fs : Place} {v : NodeVal}
  {vs : List NodeVal} {ks cleaned cleaned' : List ℕ} {handler : ℕ → Bool}

/-- The walk of `stack_push` meets each node once. -/
theorem preorder_perm (t : Tree) : (preorder t).Perm t.values := by
  induction t with
  | leaf a => rfl
  | node c v l r ihl ihr =>
    rw [preorder, values_node]
    exact ((ihl.append ihr).cons v).trans List.perm_middle.symm

/-- So the keys popped are those of the nodes that the handler accepts. -/
theorem popped_perm (handler : ℕ → Bool) (t : Tree) :
    (popped handler t).Perm (t.values.filter fun v => handler v.data) :=
  (List.reverse_perm _).trans ((preorder_perm t).filter _)

/-- Popping turns the walk round: the right subtree comes first and the root last. -/
theorem popped_node (c : Color) (v : NodeVal) (l r : Tree) : popped handler (.node c v l r) =
    popped handler r ++ (popped handler l ++ if handler v.data then [v] else []) := by
  rw [popped, popped, popped, preorder, List.filter_cons, List.filter_append]
  split_ifs <;> simp

/-- The keys that are pushed. -/
theorem rbtreeErgodic_spec {father : ℕ} (handler : ℕ → Bool) (h : Sub m.node father t)
    (hne : ∀ a ∈ addrs t, a ≠ 0) (fuel : ℕ) (stack : List ℕ) :
    rbtreeErgodic m.node handler fuel (addr t) stack =
        .ok ((popped handler t).map NodeVal.addr ++ stack) ∨
      (∃ e, rbtreeErgodic m.node handler fuel (addr t) stack = .error e) ∧ fuel ≤ t.height := by
  induction t generalizing father fuel stack with
  | leaf a =>
    cases fuel with
    | zero => exact .inr ⟨⟨_, rfl⟩, Nat.zero_le _⟩
    | succ fuel =>
      have ha : a ≠ 0 := hne a (addr_mem_addrs (.leaf a))
      rw [rbtreeErgodic, addr_leaf, if_neg ha, get_of_ne ha]
      exact .inl (if_pos h.nil)
  | node c v l r ihl ihr =>
    cases fuel with
    | zero => exact .inr ⟨⟨_, rfl⟩, Nat.zero_le _⟩
    | succ fuel =>
      obtain ⟨hnil, -, hdata, hlc, hrc⟩ := h.record
      have hv : v.addr ≠ 0 := hne _ (addr_mem_addrs (.node c v l r))
      have hmem (b : ℕ) := (addrs_fork .left c v l r).mem_iff (a := b)
      have hl := ihl h.2.1 fun b hb => hne b ((hmem b).mpr (by simp [hb]))
      have hr := ihr h.2.2 fun b hb => hne b ((hmem b).mpr (by simp [hb]))
      -- the node itself goes on the stack before its children do
      set stack' := if handler v.data then v.addr :: stack else stack with hstack
      have hcall : rbtreeErgodic m.node handler (fuel + 1) v.addr stack = (do
          let stack ← rbtreeErgodic m.node handler fuel (addr l) stack'
          rbtreeErgodic m.node handler fuel (addr r) stack) := by
        rw [rbtreeErgodic, if_neg hv, get_of_ne hv, ok_bind, hnil, if_neg Bool.false_ne_true, hdata,
          hlc, hrc]
      rw [addr_node, hcall, height]
      rcases hl fuel stack' with hok | ⟨⟨e, herror⟩, hle⟩
      · rw [hok, ok_bind]
        rcases hr fuel ((popped handler l).map NodeVal.addr ++ stack') with hok | ⟨herror, hle⟩
        · refine .inl (hok.trans (congrArg Except.ok ?_))
          rw [popped_node, hstack]
          split_ifs <;> simp
        · exact .inr ⟨herror, by omega⟩
      · rw [herror, error_bind]
        exact .inr ⟨⟨e, rfl⟩, by omega⟩

/-- The record of a node of a tree. -/
theorem Sub.record_of_mem {father : ℕ} (h : Sub m.node father t) (hv : v ∈ t.values) :
    (m.node v.addr).nil = false ∧ (m.node v.addr).key = v.key ∧ (m.node v.addr).data = v.data := by
  induction t generalizing father with
  | leaf a => cases hv
  | node c w l r ihl ihr =>
    rw [values_node] at hv
    rcases List.mem_append.mp hv with hv | hv
    · exact ihl h.2.1 hv
    · rcases List.mem_cons.mp hv with rfl | hv
      · obtain ⟨hnil, hkey, hdata, -⟩ := h.record
        exact ⟨hnil, hkey, hdata⟩
      · exact ihr h.2.2 hv

/-- The nodes of a tree are intact if the tree before had them. -/
theorem intact_of_mem {before : Heap} {t₀ : Tree} {root₀ : ℕ} (hm : PoolOk m)
    (h₀ : Rooted before root₀ (some t₀)) (h : Rooted m root (some t)) (hv₀ : v ∈ t₀.values)
    (hv : v ∈ t.values) : Intact before m v.addr := by
  obtain ⟨hnil, hkey, hdata⟩ := h.2.1.sub.record_of_mem hv
  obtain ⟨hnil₀, hkey₀, hdata₀⟩ := h₀.2.1.sub.record_of_mem hv₀
  have hmem := h.2.2 _ (mem_addrs_of_mem_values hv)
  exact ⟨fun hfree => hm.sound.disjoint _ hfree hmem, hnil.trans hnil₀.symm, hkey.trans hkey₀.symm,
    hdata.trans hdata₀.symm⟩

/-- What is deleted with the key of a node, if the search finds a node that can go. -/
theorem deleteTree_canGo (hord : Ordered t) (hv : v ∈ t.values)
    (hsearch : search v.key [] t = some (fs, z)) (hgo : CanGo fs z) :
    ∃ t' pre post, deleteTree v.key t = some (0, t', [v.data]) ∧ removeOne fs z = some t' ∧
      addr t' = addr t ∧ t.values = pre ++ v :: post ∧ t'.values = pre ++ post := by
  obtain ⟨hplug, c', v', l, r, heq, hkey⟩ := of_search hsearch
  rw [plug_nil] at hplug
  obtain ⟨s, c, w, a, x, t', rfl, hremove, haddr⟩ := hgo.removeOne
  obtain rfl : w = v' := by
    cases s <;> cases heq <;> rfl
  obtain ⟨pre, post, hvalues, hrest⟩ := values_removeOne hremove
  rw [hplug] at hvalues haddr
  have hnodup : (keys t).Nodup := hord.imp ne_of_slt
  have hw : w ∈ t.values := by simp [hvalues]
  obtain rfl : w = v := List.inj_on_of_nodup_map hnodup hw hv hkey
  refine ⟨t', pre, post, ?_, hremove, haddr, hvalues, hrest⟩
  rw [deleteTree, hsearch]
  dsimp only
  rw [deleteAt_fork, hremove]
  rfl

/-- A deletion of a node that can go. -/
theorem rbtreeDelete_canGo (hm : PoolOk m) (h : Rooted m root (some t)) (hord : Ordered t)
    (hv : v ∈ t.values) (hsearch : search v.key [] t = some (fs, z)) (hgo : CanGo fs z)
    (hfuel : t.size + 3 ≤ fuel) :
    ∃ d t' pre post, rbtreeDelete fuel v.key root m = .ok d ∧ d.cleaned = [v.data] ∧
      d.root = root ∧ removeOne fs z = some t' ∧ PoolOk d.heap ∧ Rooted d.heap root (some t') ∧
      t.values = pre ++ v :: post ∧ t'.values = pre ++ post := by
  obtain ⟨t', pre, post, htree, hremove, haddr, hvalues, hrest⟩ :=
    deleteTree_canGo hord hv hsearch hgo
  rcases rbtreeDelete_spec v.key hm h fuel with ⟨d, t₁, hcall, hd, her⟩ | ⟨-, hnone | hle⟩
  · rw [htree] at hd
    obtain ⟨-, hpair⟩ := Prod.mk.inj (Option.some.inj hd)
    obtain ⟨rfl, hdata⟩ := Prod.mk.inj hpair
    have hroot : d.root = root := her.rooted.1.trans (haddr.trans h.1.symm)
    exact ⟨d, t', pre, post, hcall, hdata.symm, hroot, hremove, her.ok, hroot ▸ her.rooted, hvalues,
      hrest⟩
  · rw [htree] at hnone
    cases hnone
  · omega

/-- A round of the loop, for the address of a node. -/
theorem rbtreeStackDel_cons (h : Rooted m root (some t)) (hv : v ∈ t.values) (fuel : ℕ)
    (cleaned : List ℕ) : rbtreeStackDel fuel (v.addr :: ks) root m cleaned =
      rbtreeDelete fuel v.key root m >>= fun d =>
        rbtreeStackDel fuel ks d.root d.heap (cleaned ++ d.cleaned) := by
  have hv0 : v.addr ≠ 0 := h.2.1.ne_zero _ (mem_addrs_of_mem_values hv)
  rw [rbtreeStackDel, Heap.get, get_of_ne hv0, ok_bind, (h.2.1.sub.record_of_mem hv).2.1]

/-- The deletions of nodes that can go take them out, and leave the others. -/
theorem rbtreeStackDel_clear {before : Heap} {t₀ : Tree} {root₀ : ℕ}
    (h₀ : Rooted before root₀ (some t₀)) (hm : PoolOk m) (h : Rooted m root (some t))
    (hord : Ordered t) (hnodup : vs.Nodup) (hsub : ∀ v ∈ vs, v ∈ t.values ∧ v ∈ t₀.values)
    (hclear : Clear (vs.map NodeVal.key) t) (hfuel : t.size + 3 ≤ fuel) (cleaned : List ℕ) :
    ∃ m' t', rbtreeStackDel fuel (vs.map NodeVal.addr) root m cleaned =
        .ok (root, m', cleaned ++ vs.map NodeVal.data) ∧ Rooted m' root (some t') ∧
      t.values.Perm (vs ++ t'.values) ∧
      Runs.Meets (pop fuel) (fun s k => Intact before s.heap k) ⟨root, m⟩
        (vs.map NodeVal.addr) := by
  induction vs generalizing t m cleaned with
  | nil =>
    refine ⟨m, t, ?_, h, .refl _, trivial⟩
    rw [List.map_nil, List.map_nil, List.append_nil]
    rfl
  | cons v vs ih =>
    obtain ⟨fs, z, hsearch, hgo, hrest⟩ := hclear
    obtain ⟨hv, hv₀⟩ := hsub v List.mem_cons_self
    obtain ⟨hvs, hnodup'⟩ := List.nodup_cons.mp hnodup
    obtain ⟨d, t', pre, post, hcall, hclean, hroot, hremove, hok, hrooted, hvalues, hvalues'⟩ :=
      rbtreeDelete_canGo hm h hord hv hsearch hgo hfuel
    -- only `v` leaves the tree, so the rest of the stack stays in it
    have hperm : t.values.Perm (v :: t'.values) := by
      rw [hvalues, hvalues']
      exact List.perm_middle
    have hsize : t'.size + 1 = t.size := hperm.length_eq.symm
    have hsub' (w : NodeVal) (hw : w ∈ vs) : w ∈ t'.values ∧ w ∈ t₀.values := by
      obtain ⟨hwt, hwt₀⟩ := hsub w (List.mem_cons_of_mem v hw)
      have hne : w ≠ v := ne_of_mem_of_not_mem hw hvs
      exact ⟨(List.mem_cons.mp (hperm.mem_iff.mp hwt)).resolve_left hne, hwt₀⟩
    obtain ⟨m', t'', hrun, hrooted', hperm', hmeets⟩ := ih hok hrooted
      (hord.of_removed hvalues hvalues') hnodup' hsub' (hrest t' hremove) (by omega)
      (cleaned ++ [v.data])
    have hkey := (h.2.1.sub.record_of_mem hv).2.1
    refine ⟨m', t'', ?_, hrooted', hperm.trans (hperm'.cons v), fun s' hs' => ?_⟩
    · rw [List.map_cons, rbtreeStackDel_cons h hv, hcall, ok_bind, hroot, hclean, hrun,
        List.append_assoc]
      rfl
    · have hpop : pop fuel ⟨root, m⟩ v.addr = some ⟨root, d.heap⟩ := by
        rw [pop, step]
        dsimp only
        rw [hkey, hcall, ← hroot]
      obtain rfl := Option.some.inj (hpop.symm.trans hs')
      exact ⟨intact_of_mem hm h₀ h hv₀ hv, hmeets⟩

/-- What a run that returns makes of the numbers of keys and of calls of the cleaner. -/
theorem of_rbtreeStackDel (hm : PoolOk m) (h : Rooted m root (some t))
    (hrun : rbtreeStackDel fuel ks root m cleaned = .ok (root', m', cleaned')) :
    ∃ t', Rooted m' root' (some t') ∧ addrs t' ⊆ addrs t ∧ t.size ≤ t'.size + ks.length ∧
      (t.size = t'.size + ks.length → cleaned.length + ks.length ≤ cleaned'.length) := by
  induction ks generalizing t m root cleaned with
  | nil =>
    obtain ⟨rfl, hrest⟩ := Prod.mk.inj (Except.ok.inj hrun)
    obtain ⟨rfl, rfl⟩ := Prod.mk.inj hrest
    exact ⟨t, h, List.Subset.refl _, le_rfl, fun _ => le_rfl⟩
  | cons k ks ih =>
    rw [rbtreeStackDel] at hrun
    obtain ⟨r, -, hrun⟩ := bind_eq_ok.mp hrun
    obtain ⟨d, hcall, hrun⟩ := bind_eq_ok.mp hrun
    obtain ⟨t₁, htree, her⟩ := rbtreeDelete_ok hm h hcall
    obtain ⟨t', hrooted, hsub, hsize, hcount⟩ := ih her.ok her.rooted hrun
    rw [List.length_append] at hcount
    rw [List.length_cons]
    rcases of_deleteTree htree with ⟨rfl, -⟩ | ⟨fs, z, -, hsize₁, hsub₁, hdata, -⟩
    · exact ⟨t', hrooted, hsub, by omega, by omega⟩
    · have hpos : 0 < d.cleaned.length := List.length_pos_iff.mpr hdata
      exact ⟨t', hrooted, List.Subset.trans hsub hsub₁, by omega, by omega⟩

/-- A run that takes out as many keys as there are deletions, and calls the cleaner as many times,
is one of deletions of nodes that can go. -/
theorem clear_of_rbtreeStackDel (hm : PoolOk m) (h : Rooted m root (some t)) (hord : Ordered t)
    (hnodup : vs.Nodup) (hsub : ∀ v ∈ vs, v ∈ t.values)
    (hrun : rbtreeStackDel fuel (vs.map NodeVal.addr) root m cleaned = .ok (root, m', cleaned'))
    (hcleaned : cleaned'.length = cleaned.length + vs.length) {t' : Tree}
    (h' : Rooted m' root (some t')) (hsize : t.size = t'.size + vs.length) :
    Clear (vs.map NodeVal.key) t := by
  induction vs generalizing t m cleaned with
  | nil => trivial
  | cons v vs ih =>
    have hv := hsub v List.mem_cons_self
    obtain ⟨hvs, hnodup'⟩ := List.nodup_cons.mp hnodup
    rw [List.map_cons, rbtreeStackDel_cons h hv] at hrun
    obtain ⟨d, hcall, hrun⟩ := bind_eq_ok.mp hrun
    rw [List.length_cons] at hcleaned hsize
    obtain ⟨t₁, htree, her⟩ := rbtreeDelete_ok hm h hcall
    obtain ⟨t'', hrooted, hsub', hle, hcount⟩ := of_rbtreeStackDel her.ok her.rooted hrun
    obtain rfl := hrooted.unique h'
    rw [List.length_append, List.length_map] at hcount
    rw [List.length_map] at hle
    rcases of_deleteTree htree with ⟨rfl, -⟩ | ⟨fs, z, hsearch, hsize₁, -, hdata, hone⟩
    · omega
    · -- every deletion cleans an entry and the count is exact: each cleans one
      have hpos : 0 < d.cleaned.length := List.length_pos_iff.mpr hdata
      have hlength : d.cleaned.length = 1 := by omega
      obtain ⟨s, c, w, a, x, rfl, hremove⟩ := hone hlength
      have hplug : plug fs (fork s c w (.leaf a) x) = t := (of_search hsearch).1
      have hroot : addr (plug fs (fork s c w (.leaf a) x)) ∈ addrs t₁ := by
        rw [hplug, ← h.1, h'.1]
        exact hsub' (addr_mem_addrs t'')
      have hgo := canGo_of_removeOne hremove (hplug ▸ h.2.1.nodup) hroot
      obtain ⟨t₂, pre, post, -, hremove', haddr, hvalues, hvalues'⟩ :=
        deleteTree_canGo hord hv hsearch hgo
      obtain rfl := Option.some.inj (hremove.symm.trans hremove')
      refine ⟨fs, _, hsearch, hgo, fun t₂ ht₂ => ?_⟩
      obtain rfl := Option.some.inj (hremove.symm.trans ht₂)
      -- the root has to stay: the loop goes on with the one it was given
      have hkept : d.root = root := her.rooted.1.trans (haddr.trans h.1.symm)
      rw [hkept] at hrun
      refine ih her.ok (hkept ▸ her.rooted) (hord.of_removed hvalues hvalues') hnodup'
        (fun w hw => ?_) hrun ?_ (by omega)
      · have hmem := hsub w (List.mem_cons_of_mem v hw)
        rw [hvalues, List.perm_middle.mem_iff, ← hvalues', List.mem_cons] at hmem
        exact hmem.resolve_left (ne_of_mem_of_not_mem hw hvs)
      · rw [List.length_append]
        omega

/-- The bindings that a handler accepts, as nodes. -/
theorem pairs_filter (t : Tree) (p : ℕ → Bool) : (pairs t).filter (fun b => p b.2) =
    (t.values.filter fun v => p v.data).map fun v => (v.key, v.data) := by
  rw [pairs, List.filter_map]
  rfl

end Run

namespace ValidTree

variable (T : ValidTree) (handler : ℕ → Bool)

/-- The bindings whose data the handler accepts are deleted, with a call of the cleaner each. The
others are left at the root that the caller has passed, and each key is read from an intact node. -/
def Purges : Prop :=
  ∃ fuel stack m cleaned o, rbtreeErgodic T.heap.node handler fuel T.root [] = .ok stack ∧
    rbtreeStackDel fuel stack T.root T.heap [] = .ok (T.root, m, cleaned) ∧
    cleaned.Perm (((T.tree.elim [] pairs).filter fun b => handler b.2).map Prod.snd) ∧
    Rooted m T.root o ∧
    (o.elim [] pairs).Perm ((T.tree.elim [] pairs).filter fun b => !handler b.2) ∧
    Runs.Meets (pop fuel) (fun s k => Intact T.heap s.heap k) ⟨T.root, T.heap⟩ stack

variable {T handler}

/-- Of an empty tree nothing is to be deleted. -/
theorem purges_of_none (ht : T.tree = none) : T.Purges handler := by
  have hroot : T.root = 0 := by
    have hrooted := T.rooted
    rwa [ht] at hrooted
  refine ⟨1, [], T.heap, [], none, ?_, rfl, ?_, hroot, ?_, trivial⟩
  · rw [rbtreeErgodic, if_pos hroot]
    rfl
  · rw [ht]
    exact .refl _
  · rw [ht]
    exact .refl _

/-- No key is popped twice. -/
theorem nodup_popped {t : Tree} (ht : T.tree = some t) : (popped handler t).Nodup := by
  have hnodup : t.values.Nodup := List.Nodup.of_map NodeVal.key ((T.ordered t ht).imp ne_of_slt)
  exact (popped_perm handler t).nodup_iff.mpr (hnodup.filter _)

/-- If each deletion can go, the purge is right. -/
theorem purges_of_clear {t : Tree} (ht : T.tree = some t)
    (hclear : Clear ((popped handler t).map NodeVal.key) t) : T.Purges handler := by
  have hrooted := T.rooted_of ht
  have hmem (v : NodeVal) (hv : v ∈ popped handler t) : v ∈ t.values ∧ v ∈ t.values := by
    have hv := (List.mem_filter.mp ((popped_perm handler t).mem_iff.mp hv)).1
    exact ⟨hv, hv⟩
  obtain ⟨m, t', hrun, hrooted', hperm, hmeets⟩ := rbtreeStackDel_clear hrooted T.ok hrooted
    (T.ordered t ht) (nodup_popped ht) hmem hclear le_rfl []
  have hpush : rbtreeErgodic T.heap.node handler (t.size + 3) T.root [] =
      .ok ((popped handler t).map NodeVal.addr) := by
    rcases rbtreeErgodic_spec handler hrooted.2.1.sub hrooted.2.1.ne_zero (t.size + 3) [] with
      hok | ⟨-, hle⟩
    · rw [hrooted.1, hok, List.append_nil]
    · have hheight := height_le_size t
      omega
  -- the nodes are those that are accepted and those that are left
  have hleft : t'.values.Perm (t.values.filter fun v => !handler v.data) := by
    have hsplit := (List.filter_append_perm (fun v : NodeVal => handler v.data) t.values).symm
    have hboth := hperm.symm.trans (hsplit.trans ((popped_perm handler t).symm.append_right _))
    exact (List.perm_append_left_iff _).mp hboth
  refine ⟨t.size + 3, _, m, _, some t', hpush, hrun, ?_, hrooted', ?_, hmeets⟩
  · rw [ht, Option.elim_some, pairs_filter, List.map_map, List.nil_append]
    exact (popped_perm handler t).map NodeVal.data
  · rw [ht, Option.elim_some, Option.elim_some, pairs_filter t fun d => !handler d]
    exact hleft.map _

/-- If the purge is right, each deletion could go. -/
theorem clear_of_purges {t : Tree} (ht : T.tree = some t) (h : T.Purges handler) :
    Clear ((popped handler t).map NodeVal.key) t := by
  obtain ⟨fuel, stack, m, cleaned, o, hpush, hrun, hcleaned, hleft, hpairs, -⟩ := h
  have hrooted := T.rooted_of ht
  rcases rbtreeErgodic_spec handler hrooted.2.1.sub hrooted.2.1.ne_zero fuel [] with
    hok | ⟨⟨e, herror⟩, -⟩
  · rw [hrooted.1, hok, List.append_nil] at hpush
    obtain rfl := Except.ok.inj hpush
    obtain ⟨t', hrooted', -⟩ := of_rbtreeStackDel T.ok hrooted hrun
    obtain rfl : o = some t' := by
      cases o with
      | none => exact absurd hleft (Rooted.root_ne (s := ⟨T.root, m⟩) hrooted')
      | some t'' => exact congrArg some (hleft.unique hrooted')
    rw [ht, Option.elim_some, pairs_filter] at hcleaned
    rw [ht, Option.elim_some, Option.elim_some, pairs_filter t fun d => !handler d] at hpairs
    have hpopped := (popped_perm handler t).length_eq
    have hlength := hcleaned.length_eq
    have hsize : t'.size = _ := (List.length_map _).symm.trans hpairs.length_eq
    have hsplit :=
      (List.filter_append_perm (fun v : NodeVal => handler v.data) t.values).length_eq
    rw [List.length_map, List.length_map] at hlength
    rw [List.length_map] at hsize
    rw [List.length_append] at hsplit
    refine clear_of_rbtreeStackDel T.ok hrooted (T.ordered t ht) (nodup_popped ht) (fun v hv => ?_)
      hrun ?_ hrooted' ?_
    · exact (List.mem_filter.mp ((popped_perm handler t).mem_iff.mp hv)).1
    · rw [hlength, hpopped, List.length_nil, Nat.zero_add]
    · have htotal : t.size = t.values.length := rfl
      omega
  · rw [hrooted.1, herror] at hpush
    cases hpush

/-- A purge is right if each deletion is of a node that the search finds and that can go. -/
theorem purges_iff (T : ValidTree) (handler : ℕ → Bool) : T.Purges handler ↔
    ∀ t, T.tree = some t → Clear ((popped handler t).map NodeVal.key) t := by
  constructor
  · exact fun h t ht => clear_of_purges ht h
  · intro h
    cases ht : T.tree with
    | none => exact purges_of_none ht
    | some t => exact purges_of_clear ht (h t ht)

/-- Three keys. -/
def threeKeys : Tree :=
  .node .black ⟨1, 0, 2, 20⟩ (.node .red ⟨2, 0, 1, 10⟩ (.leaf 4) (.leaf 5))
    (.node .red ⟨3, 0, 3, 30⟩ (.leaf 6) (.leaf 7))

/-- The tree of three keys. -/
def triple : ValidTree where
  heap := ⟨layout 0 threeKeys, ⟨[8, 9], {1, 2, 3, 4, 5, 6, 7}⟩, 10, 11⟩
  ok := ⟨⟨by decide, by decide⟩, by decide, by decide, by decide⟩
  root := 1
  tree := some threeKeys
  rooted := ⟨rfl, holds_layout (by decide) (by decide), by decide⟩
  ordered := by simpa using (by decide : Ordered threeKeys)
  colored := by simpa using ⟨rfl, by decide, 1, rfl⟩

/-- The handler accepts the data of a node with two children. -/
theorem not_forall_purges : ¬∀ (T : ValidTree) (handler : ℕ → Bool), T.Purges handler := by
  intro h
  obtain ⟨fs, z, hsearch, hgo, -⟩ :=
    clear_of_purges (T := triple) (t := threeKeys) rfl (h triple fun d => d == 20)
  obtain ⟨-, rfl⟩ := Prod.mk.inj (Option.some.inj (hsearch.symm.trans rfl))
  exact not_canGo rfl hgo

end ValidTree

end Rbtree

end Lidas
