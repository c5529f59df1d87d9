import Lidas.Rbtree.Accounting
import Lidas.Rbtree.Removal

/-!
# What the tree has of its calls

Runs of insertions and deletions that return, with nothing asked of them. Whatever a deletion of a
node with two children does to the order, no binding is lost or made up: what has been inserted is
what is bound and what has been deleted (`Blocks.balanced_run`).

A run in which no such node is deleted, and whose keys all have one sign, is that of a map from keys
to data (`Blocks.refinesMap`): each call returns what the map says, the cleaner is called on what
the map forgets, and `rbtree_search` finds what it has.
-/

namespace Lidas

namespace Rbtree

open RbTree

/-- The bindings at a root. -/
def pairsOf (o : Option Tree) : List (BitVec 32 × ℕ) := o.elim [] pairs

/-! ### What a call does to the bindings -/

section Bindings

variable {key : BitVec 32} {data a b c : ℕ} {type : BitVec 4} {o : Option Tree} {ret : ℤ}
  {t t' : Tree} {fs : Place} {cleaned : List ℕ}

theorem pairs_congr (h : t'.inorder = t.inorder) : pairs t' = pairs t := by
  rw [pairs, values_eq_of_inorder h, pairs]

theorem pairs_eq_map_bindings (t : Tree) :
    pairs t = (bindings t).map fun e => (e.1, e.2.1) := by
  rw [pairs, bindings, List.map_map]
  rfl

/-- An insertion that returns is refused, or adds its binding. -/
theorem pairs_insertTree (h : insertTree key data type a b c o = some (ret, t)) :
    ret = -1 ∧ o = some t ∨ ret = 0 ∧ (pairs t).Perm ((key, data) :: pairsOf o) := by
  cases o with
  | none =>
    obtain ⟨rfl, rfl⟩ := Prod.mk.inj (Option.some.inj h)
    exact .inr ⟨rfl, .refl _⟩
  | some t₀ =>
    rw [insertTree] at h
    cases hseek : seek key [] t₀ with
    | none =>
      rw [hseek] at h
      obtain ⟨rfl, rfl⟩ := Prod.mk.inj (Option.some.inj h)
      exact .inl ⟨rfl, rfl⟩
    | some z =>
      obtain ⟨fs, p⟩ := z
      rw [hseek] at h
      obtain ⟨t', hfix, heq⟩ := Option.map_eq_some_iff.mp h
      obtain ⟨rfl, rfl⟩ := Prod.mk.inj heq
      have hplug : plug fs (.leaf p) = t₀ := plug_seek hseek
      have hword := inorder_insertFix (fun k heq => by cases heq) hfix
      have hnew := bindings_plug_new fs .red ⟨p, type, key, data⟩ c b p
      refine .inr ⟨rfl, ?_⟩
      rw [pairs_congr hword, pairsOf, Option.elim_some, pairs_eq_map_bindings,
        pairs_eq_map_bindings, ← hplug]
      exact hnew.map fun e => (e.1, e.2.1)

/-- A node with at most one child takes its binding with it. -/
theorem pairs_removeOne {s : Side} {cl : Color} {v : NodeVal} {x : Tree}
    (h : removeOne fs (fork s cl v (.leaf a) x) = some t') :
    (pairs (plug fs (fork s cl v (.leaf a) x))).Perm ((v.key, v.data) :: pairs t') := by
  obtain ⟨pre, post, hvalues, hrest⟩ := values_removeOne h
  rw [pairs, pairs, hvalues, hrest, ← List.map_cons (f := fun v : NodeVal => (v.key, v.data))]
  exact List.perm_middle.map _

/-- The bindings of a tree, one of its nodes set apart. -/
theorem pairs_plug_node (fs : Place) (cl : Color) (v : NodeVal) (l r : Tree) :
    (pairs (plug fs (.node cl v l r))).Perm ((v.key, v.data) ::
      (((before fs).filterMap Sum.getLeft? ++ l.values) ++
        (r.values ++ (after fs).filterMap Sum.getLeft?)).map fun v => (v.key, v.data)) := by
  rw [pairs, values_plug, values_node, ← List.map_cons (f := fun v : NodeVal => (v.key, v.data))]
  refine List.Perm.map _ ?_
  rw [← List.append_assoc, List.append_assoc ((before fs).filterMap _ ++ l.values)]
  exact List.perm_middle

/-- What is deleted at a node is its own binding. If the node has two children the cleaner is called
on the data of another node too, which is still bound. -/
theorem pairs_deleteAt {cl : Color} {v : NodeVal} {l r : Tree}
    (h : deleteAt fs (.node cl v l r) = some (t', cleaned)) :
    (pairs (plug fs (.node cl v l r))).Perm ((v.key, v.data) :: pairs t') ∧
      ∃ early, cleaned = v.data :: early ∧ early.length ≤ 1 ∧
        ∀ d ∈ early, d ∈ (pairs t').map Prod.snd := by
  have hone {s : Side} {a : ℕ} {x : Tree}
      (h : deleteAt fs (fork s cl v (.leaf a) x) = some (t', cleaned)) :
      (pairs (plug fs (fork s cl v (.leaf a) x))).Perm ((v.key, v.data) :: pairs t') ∧
        ∃ early, cleaned = v.data :: early ∧ early.length ≤ 1 ∧
          ∀ d ∈ early, d ∈ (pairs t').map Prod.snd := by
    rw [deleteAt_fork] at h
    obtain ⟨t, hremove, heq⟩ := Option.map_eq_some_iff.mp h
    obtain ⟨rfl, rfl⟩ := Prod.mk.inj heq
    exact ⟨pairs_removeOne hremove, [], rfl, Nat.zero_le 1, fun d hd => by cases hd⟩
  cases l with
  | leaf a => exact hone (s := .left) h
  | node cl' vl ll lr =>
    cases r with
    | leaf b => exact hone (s := .right) h
    | node cr vr rl rr =>
      obtain ⟨rel, cw, w, a, x, hrep, hremove, rfl⟩ := of_deleteAt_two h
      set v' : NodeVal := { v with key := w.key, data := w.data } with hv'
      have hplug := plug_rel hrep fs cl v' (.node cr vr rl rr)
      -- the other node goes, and its binding is that of this one now
      have hgone := pairs_removeOne hremove
      rw [show fork .left cw w (.leaf a) x = .node cw w (.leaf a) x from rfl, hplug] at hgone
      have hold := pairs_plug_node fs cl v (.node cl' vl ll lr) (.node cr vr rl rr)
      have hnew := pairs_plug_node fs cl v' (.node cl' vl ll lr) (.node cr vr rl rr)
      have hrest := (hnew.symm.trans hgone).cons_inv
      refine ⟨hold.trans (hrest.cons _), [w.data], rfl, le_rfl, fun d hd => ?_⟩
      have hw : w ∈ RbTree.values (.node cl' vl ll lr) := by
        have hmem := mem_values_plug (c := cw) (v := w) (l := .leaf a) (r := x) rel
        rwa [plug_replacement hrep] at hmem
      rw [List.mem_singleton.mp hd]
      refine List.mem_map.mpr ⟨(w.key, w.data), hrest.subset ?_, rfl⟩
      exact List.mem_map_of_mem (List.mem_append_left _ (List.mem_append_right _ hw))

/-- A deletion that returns finds nothing, or takes one binding of its key. -/
theorem pairs_deleteTree (h : deleteTree key t = some (ret, t', cleaned)) :
    ret = -1 ∧ t' = t ∧ cleaned = [] ∨
      ret = 0 ∧ ∃ d early, cleaned = d :: early ∧ (pairs t).Perm ((key, d) :: pairs t') ∧
        early.length ≤ 1 ∧ ∀ d' ∈ early, d' ∈ (pairs t').map Prod.snd := by
  rw [deleteTree] at h
  cases hsearch : search key [] t with
  | none =>
    rw [hsearch] at h
    obtain ⟨rfl, hrest⟩ := Prod.mk.inj (Option.some.inj h)
    obtain ⟨rfl, rfl⟩ := Prod.mk.inj hrest
    exact .inl ⟨rfl, rfl, rfl⟩
  | some z =>
    obtain ⟨fs, z⟩ := z
    obtain ⟨hplug, cl, v, l, r, rfl, rfl⟩ := of_search hsearch
    rw [hsearch] at h
    obtain ⟨⟨t₁, cleaned₁⟩, hat, heq⟩ := Option.map_eq_some_iff.mp h
    obtain ⟨rfl, hrest⟩ := Prod.mk.inj heq
    obtain ⟨rfl, rfl⟩ := Prod.mk.inj hrest
    obtain ⟨hperm, early, rfl, hlength, hearly⟩ := pairs_deleteAt hat
    rw [hplug, plug_nil] at hperm
    exact .inr ⟨rfl, v.data, early, rfl, hperm, hlength, hearly⟩

end Bindings

/-! ### The ledger -/

/-- A state, with the bindings of the insertions that returned 0 and those of the deletions that
did: the key, and the data that the cleaner was called on first. -/
structure Ledger where
  state : State
  inserted : List (BitVec 32 × ℕ)
  deleted : List (BitVec 32 × ℕ)

/-- A call that returns, with its entry in the ledger. -/
def Ledger.step (b : Ledger) (c : Call) : Option Ledger :=
  match c.op with
  | .insert key data type =>
    match rbtreeInsert c.fuel b.state.root key data type b.state.heap with
    | .ok (ret, h, m) => some
      { state := ⟨h, m⟩
        inserted := if ret = 0 then (key, data) :: b.inserted else b.inserted
        deleted := b.deleted }
    | .error _ => none
  | .delete key =>
    match rbtreeDelete c.fuel key b.state.root b.state.heap with
    | .ok d => some
      { state := ⟨d.root, d.heap⟩
        inserted := b.inserted
        deleted := if d.ret = 0 then (d.cleaned.take 1).map (Prod.mk key) ++ b.deleted
          else b.deleted }
    | .error _ => none

/-- The records are a tree, or the root is `NULL`, and what has been inserted is bound or has been
deleted. -/
structure Ledger.Balanced (b : Ledger) : Prop where
  ok : PoolOk b.state.heap
  balance : ∃ o, Rooted b.state.heap b.state.root o ∧ b.inserted.Perm (pairsOf o ++ b.deleted)

/-- The step of the ledger is that of the states. -/
theorem Ledger.step_state (b : Ledger) (c : Call) :
    (b.step c).map Ledger.state = Rbtree.step b.state c := by
  obtain ⟨fuel, op⟩ := c
  cases op with
  | insert key data type =>
    rw [Ledger.step, Rbtree.step]
    dsimp only
    cases rbtreeInsert fuel b.state.root key data type b.state.heap with
    | error e => rfl
    | ok q => rfl
  | delete key =>
    rw [Ledger.step, Rbtree.step]
    dsimp only
    cases rbtreeDelete fuel key b.state.root b.state.heap with
    | error e => rfl
    | ok d => rfl

/-- Every call that returns keeps the balance. -/
theorem Ledger.Balanced.step {b b' : Ledger} {c : Call} (h : b.Balanced)
    (hstep : b.step c = some b') : b'.Balanced := by
  obtain ⟨o, hrooted, hperm⟩ := h.balance
  obtain ⟨fuel, op⟩ := c
  cases op with
  | insert key data type =>
    rw [Ledger.step] at hstep
    dsimp only at hstep
    split at hstep
    · rename_i ret root m hcall
      obtain rfl := Option.some.inj hstep
      obtain ⟨x, y, z, rest, t, -, htree, hins⟩ := rbtreeInsert_ok h.ok hrooted hcall
      refine ⟨hins.ok, some t, hins.rooted, ?_⟩
      -- the pair goes into the tree or nowhere, as the return value tells
      rcases pairs_insertTree htree with ⟨rfl, rfl⟩ | ⟨rfl, hpairs⟩
      · exact hperm
      · exact (hperm.cons _).trans (hpairs.symm.append_right b.deleted)
    · cases hstep
  | delete key =>
    rw [Ledger.step] at hstep
    dsimp only at hstep
    split at hstep
    · rename_i d hcall
      obtain rfl := Option.some.inj hstep
      cases o with
      | none =>
        rw [show b.state.root = 0 from hrooted] at hcall
        cases fuel <;> cases hcall
      | some t =>
        obtain ⟨t', htree, her⟩ := rbtreeDelete_ok h.ok hrooted hcall
        refine ⟨her.ok, some t', her.rooted, ?_⟩
        -- the pair goes from the tree to the deleted ones
        rcases pairs_deleteTree htree with ⟨hret, rfl, -⟩ | ⟨hret, x, early, hdata, hpairs, -⟩
        · rw [hret]
          exact hperm
        · rw [hret, hdata]
          exact hperm.trans ((hpairs.append_right _).trans List.perm_middle.symm)
    · cases hstep

namespace Blocks

variable (B : Blocks)

/-- Before the first call. -/
def ledger : Ledger := ⟨⟨0, B.heap⟩, [], []⟩

/-- **No binding is lost.** In every run of calls that return, from a null pointer on, the bindings
inserted are those of the tree and those deleted, each as often. -/
theorem balanced_run (calls : List Call) :
    Runs.Holds Ledger.step Ledger.Balanced B.ledger calls :=
  Runs.holds_of_meets (fun _ _ _ h _ hstep => h.step hstep)
    ⟨B.ok, none, rfl, .refl _⟩ (Runs.meets_true _ calls)

end Blocks

/-! ### The map -/

/-- What a call means for a map from keys to data. -/
def Op.apply (f : BitVec 32 → Option ℕ) : Op → BitVec 32 → Option ℕ
  | .insert key data _ => Function.update f key (some ((f key).getD data))
  | .delete key => Function.update f key none

def Op.key : Op → BitVec 32
  | .insert key _ _ => key
  | .delete key => key

/-- The map goes along with a run. -/
def mapStep : State × (BitVec 32 → Option ℕ) → Call → Option (State × (BitVec 32 → Option ℕ)) :=
  Runs.recorded (fun _ c f => c.op.apply f) step

/-- The node that a deletion finds, if it finds one, has a leaf. -/
def FindsLeaf (m : Nodes) (fuel : ℕ) (key : BitVec 32) (h : ℕ) : Prop :=
  match rbtreeSearch m fuel key h rbtDel with
  | .ok p => p = 0 ∨ (m (m p).lChild).nil = true ∨ (m (m p).rChild).nil = true
  | .error _ => True

/-- A call whose key has the given sign, and that finds no node with two children to delete. -/
def Regular (sign : Bool) (s : State) (c : Call) : Prop :=
  c.op.key.msb = sign ∧
    match c.op with
    | .insert .. => True
    | .delete key => FindsLeaf s.heap.node c.fuel key s.root

instance (m : Nodes) (fuel : ℕ) (key : BitVec 32) (h : ℕ) :
    Decidable (FindsLeaf m fuel key h) :=
  match hsearch : rbtreeSearch m fuel key h rbtDel with
  | .ok p => decidable_of_iff
      (p = 0 ∨ (m (m p).lChild).nil = true ∨ (m (m p).rChild).nil = true)
      (by rw [FindsLeaf, hsearch])
  | .error _ => isTrue (by rw [FindsLeaf, hsearch]; trivial)

instance (sign : Bool) (s : State) (c : Call) : Decidable (Regular sign s c) :=
  match c with
  | ⟨_, .insert key _ _⟩ => inferInstanceAs (Decidable (key.msb = sign ∧ True))
  | ⟨fuel, .delete key⟩ => inferInstanceAs
      (Decidable (key.msb = sign ∧ FindsLeaf s.heap.node fuel key s.root))

/-- The call returns what the map says, and the cleaner is called on what it forgets. -/
def Answers (f : BitVec 32 → Option ℕ) (s : State) (c : Call) : Prop :=
  match c.op with
  | .insert key data type => ∀ ret h m,
      rbtreeInsert c.fuel s.root key data type s.heap = .ok (ret, h, m) →
      ret = if f key = none then 0 else -1
  | .delete key => ∀ d, rbtreeDelete c.fuel key s.root s.heap = .ok d →
      d.ret = (if f key = none then -1 else 0) ∧ d.cleaned = (f key).toList

/-- There is no tree and nothing in the map, or `rbtree_search` finds what is in it under the keys
of the given sign. -/
def Searches (sign : Bool) (f : BitVec 32 → Option ℕ) (s : State) : Prop :=
  s.root = 0 ∧ (∀ key, f key = none) ∨ ∀ key, key.msb = sign → ∃ n, ∀ fuel ≥ n,
    rbtreeSearch s.heap.node fuel key s.root rbtSearch = .ok ((f key).getD 0)

/-- The tree is ordered, its keys have the given sign, and it binds what is in the map. -/
structure Binds (sign : Bool) (f : BitVec 32 → Option ℕ) (s : State) : Prop where
  ok : PoolOk s.heap
  tree : ∃ o, Rooted s.heap s.root o ∧ (∀ t ∈ o, Ordered t) ∧
    (∀ b ∈ pairsOf o, b.1.msb = sign) ∧ ∀ key d, (key, d) ∈ pairsOf o ↔ f key = some d

section Map

variable {sign : Bool} {f : BitVec 32 → Option ℕ} {s s' : State} {c : Call} {key : BitVec 32}
  {t : Tree}

theorem sameSign_of_forall (h : ∀ k ∈ keys t, k.msb = key.msb) : SameSign key t := by
  induction t with
  | leaf a => trivial
  | node c v l r ihl ihr =>
    have hmem (k : BitVec 32) (hk : k ∈ keys l ∨ k ∈ keys r) : k ∈ keys (.node c v l r) :=
      mem_keys_node.mpr (hk.imp_right .inr)
    refine ⟨fun _ => h _ (mem_keys_node.mpr (.inr (.inl rfl))), ?_, ?_⟩
    · exact ihl fun k hk => h k (hmem k (.inl hk))
    · exact ihr fun k hk => h k (hmem k (.inr hk))

theorem mem_keys_iff : key ∈ keys t ↔ ∃ d, (key, d) ∈ pairs t := by
  rw [keys_eq_map_pairs, List.mem_map]
  constructor
  · rintro ⟨⟨k, d⟩, hmem, rfl⟩
    exact ⟨d, hmem⟩
  · rintro ⟨d, hmem⟩
    exact ⟨_, hmem, rfl⟩

/-- The datum of a key that is found. -/
theorem bound_data (hmap : ∀ key d, (key, d) ∈ pairs t ↔ f key = some d) :
    (bound key t).map NodeVal.data = f key := by
  cases hbound : bound key t with
  | none =>
    have hnot := bound_eq_none.mp hbound
    rw [mem_keys_iff, not_exists] at hnot
    cases hf : f key with
    | none => rfl
    | some d => exact absurd ((hmap key d).mpr hf) (hnot d)
  | some v =>
    have hmem := List.mem_of_find?_eq_some hbound
    have hkey : v.key = key := by simpa using List.find?_some hbound
    rw [← hkey, Option.map_some]
    exact ((hmap v.key v.data).mp (List.mem_map_of_mem hmem)).symm

theorem Binds.searches (h : Binds sign f s) : Searches sign f s := by
  obtain ⟨o, hrooted, hord, hsign, hmap⟩ := h.tree
  cases o with
  | none =>
    refine .inl ⟨hrooted, fun key => ?_⟩
    cases hf : f key with
    | none => rfl
    | some d => exact absurd ((hmap key d).mpr hf) List.not_mem_nil
  | some t =>
    obtain ⟨hroot, hholds, -⟩ := hrooted
    refine .inr fun key hkey => ⟨t.height + 1, fun fuel hfuel => ?_⟩
    have hsame : SameSign key t := sameSign_of_forall fun k hk => by
      obtain ⟨d, hmem⟩ := mem_keys_iff.mp hk
      rw [hkey]
      exact hsign (k, d) hmem
    have hspec := (rbtreeSearch_spec key hholds fuel rbtSearch).resolve_right
      fun ⟨_, hle⟩ => Nat.not_succ_le_self t.height (le_trans hfuel hle)
    rw [hroot, hspec, found_of_sameSign (hord t rfl) hsame, ← bound_data hmap]
    cases bound key t with
    | none => rfl
    | some v => rfl

/-- A new tree whose bindings are those of the new map. -/
theorem Binds.of_mem {t' : Tree} {f' : BitVec 32 → Option ℕ} (hok : PoolOk s'.heap)
    (hrooted : Rooted s'.heap s'.root (some t')) (hord : Ordered t')
    (hsign : ∀ key d, f' key = some d → key.msb = sign)
    (hmap : ∀ key d, (key, d) ∈ pairs t' ↔ f' key = some d) : Binds sign f' s' := by
  refine ⟨hok, some t', hrooted, fun t₁ ht₁ => ?_, fun b hb => ?_, hmap⟩
  · rwa [← Option.some.inj ht₁]
  · exact hsign b.1 b.2 ((hmap b.1 b.2).mp hb)

theorem Binds.msb_eq (h : Binds sign f s) {d : ℕ} (hf : f key = some d) : key.msb = sign := by
  obtain ⟨o, -, -, hsign, hmap⟩ := h.tree
  exact hsign (key, d) ((hmap key d).mpr hf)

theorem notMem_keys (h : key ∉ keys t) (d : ℕ) : (key, d) ∉ pairs t :=
  fun hmem => h (mem_keys_iff.mpr ⟨d, hmem⟩)

/-- An insertion. -/
theorem Binds.insert (h : Binds sign f s) {fuel data root : ℕ} {type : BitVec 4} {ret : ℤ}
    {m : Heap} (hkey : key.msb = sign)
    (hcall : rbtreeInsert fuel s.root key data type s.heap = .ok (ret, root, m)) :
    ret = (if f key = none then 0 else -1) ∧
      Binds sign (Function.update f key (some ((f key).getD data))) ⟨root, m⟩ := by
  have hsigned (k : BitVec 32) (d : ℕ)
      (hf : Function.update f key (some ((f key).getD data)) k = some d) : k.msb = sign := by
    rw [Function.update_apply] at hf
    split_ifs at hf with hk
    · rwa [hk]
    · exact h.msb_eq hf
  obtain ⟨o, hrooted, hord, -, hmap⟩ := h.tree
  obtain ⟨a, b, c, rest, t, -, htree, hins⟩ := rbtreeInsert_ok h.ok hrooted hcall
  -- a key that is bound keeps its data and the call answers -1
  rcases insertTree_ordered hord htree with ⟨rfl, rfl, hmem⟩ | ⟨rfl, hnew, hordt, hperm⟩
  · obtain ⟨d, hd⟩ := mem_keys_iff.mp hmem
    have hf : f key = some d := (hmap key d).mp hd
    rw [if_neg (hf ▸ Option.some_ne_none d)]
    refine ⟨rfl, Binds.of_mem hins.ok hins.rooted (hord t rfl) hsigned fun k d' => ?_⟩
    rw [hf, Option.getD_some, ← hf, Function.update_eq_self]
    exact hmap k d'
  · have hf : f key = none := by
      cases hf : f key with
      | none => rfl
      | some d =>
        refine absurd ?_ hnew
        have hmem := (hmap key d).mpr hf
        cases o with
        | none => cases hmem
        | some t₀ =>
          rw [bindingsOf, Option.elim_some, ← keys_eq_map_bindings]
          exact mem_keys_iff.mpr ⟨d, hmem⟩
    rw [if_pos hf]
    refine ⟨rfl, Binds.of_mem hins.ok hins.rooted hordt hsigned fun k d => ?_⟩
    -- a new key adds its own pair and nothing else
    have hpairs : (pairs t).Perm ((key, data) :: pairsOf o) := by
      rcases pairs_insertTree htree with ⟨hret, -⟩ | ⟨-, hpairs⟩
      · cases hret
      · exact hpairs
    rw [hpairs.mem_iff, List.mem_cons, hmap, hf, Option.getD_none, Function.update_apply,
      Prod.mk.injEq]
    by_cases hk : k = key
    · rw [if_pos hk, hk, hf]
      simp [eq_comm]
    · rw [if_neg hk]
      simp [hk]

/-- The leaf that is found in the records is one of the tree. -/
theorem FindsLeaf.exists_fork {m : Nodes} {fuel p : ℕ} {fs : Place} {z : Tree}
    (h : FindsLeaf m fuel key (addr t)) (hholds : Holds m t)
    (hsearch : search key [] t = some (fs, z))
    (hcall : rbtreeSearch m fuel key (addr t) rbtDel = .ok p) :
    ∃ side cl v a x, z = fork side cl v (.leaf a) x := by
  obtain ⟨hplug, cl, v, l, r, rfl, -⟩ := of_search hsearch
  have hv : Holds m (plug fs (.node cl v l r)) := by rwa [hplug]
  have hp : p = v.addr := by
    rcases rbtreeSearch_spec key hholds fuel rbtDel with hspec | ⟨hspec, -⟩
    · rw [hcall, found, hsearch] at hspec
      exact Except.ok.inj hspec
    · rw [hcall] at hspec
      cases hspec
  have hv0 : v.addr ≠ 0 := hv.focus_ne_zero (addr_mem_addrs (.node cl v l r))
  obtain ⟨-, -, -, hl, hr⟩ := hv.focus.record
  rw [FindsLeaf, hcall, hp] at h
  dsimp only at h
  rw [hl, hr] at h
  have hleft : Holds m (plug (⟨.left, cl, v, r⟩ :: fs) l) := hv
  have hright : Holds m (plug (⟨.right, cl, v, l⟩ :: fs) r) := hv
  cases l with
  | leaf a => exact ⟨.left, cl, v, a, r, rfl⟩
  | node cl' vl ll lr =>
    cases r with
    | leaf a => exact ⟨.right, cl, v, a, .node cl' vl ll lr, rfl⟩
    | node cr vr rl rr =>
      rw [addr_node, addr_node, hleft.focus.record.1, hright.focus.record.1] at h
      simp [hv0] at h

/-- A deletion. -/
theorem Binds.delete (h : Binds sign f s) {fuel : ℕ} {d : Deleted} (hkey : key.msb = sign)
    (hleaf : FindsLeaf s.heap.node fuel key s.root)
    (hcall : rbtreeDelete fuel key s.root s.heap = .ok d) :
    (d.ret = (if f key = none then -1 else 0) ∧ d.cleaned = (f key).toList) ∧
      Binds sign (Function.update f key none) ⟨d.root, d.heap⟩ := by
  have hsigned (k : BitVec 32) (x : ℕ) (hf : Function.update f key none k = some x) :
      k.msb = sign := by
    rw [Function.update_apply] at hf
    split_ifs at hf with hk
    exact h.msb_eq hf
  obtain ⟨o, hrooted, hord, hsign, hmap⟩ := h.tree
  cases o with
  | none =>
    rw [show s.root = 0 from hrooted] at hcall
    cases fuel <;> cases hcall
  | some t =>
    obtain ⟨t', htree, her⟩ := rbtreeDelete_ok h.ok hrooted hcall
    have hsame : SameSign key t := sameSign_of_forall fun k hk => by
      obtain ⟨x, hmem⟩ := mem_keys_iff.mp hk
      rw [hkey]
      exact hsign (k, x) hmem
    have hfound : (search key [] t).isSome ↔ key ∈ keys t ∧ SameSign key t :=
      isSome_search_iff (hord t rfl) []
    rw [deleteTree] at htree
    cases hsearch : search key [] t with
    | none =>
      rw [hsearch] at htree hfound
      obtain ⟨hret, hrest⟩ := Prod.mk.inj (Option.some.inj htree)
      obtain ⟨rfl, hdata⟩ := Prod.mk.inj hrest
      -- with keys of one sign, what the search does not find is not there
      have hnot : key ∉ keys t := fun hmem => Bool.false_ne_true (hfound.mpr ⟨hmem, hsame⟩)
      have hf : f key = none := by
        cases hf : f key with
        | none => rfl
        | some x => exact absurd ((hmap key x).mpr hf) (notMem_keys hnot x)
      rw [← hret, ← hdata, hf, if_pos rfl]
      refine ⟨⟨rfl, rfl⟩, Binds.of_mem her.ok her.rooted (hord t rfl) hsigned fun k x => ?_⟩
      rw [← hf, Function.update_eq_self]
      exact hmap k x
    | some z =>
      obtain ⟨fs, z⟩ := z
      obtain ⟨p, hp, -⟩ := bind_eq_ok.mp hcall
      rw [hrooted.1] at hp hleaf
      -- a node with a leaf goes itself, and so its own data is cleaned
      obtain ⟨side, cl, v, a, x, rfl⟩ := hleaf.exists_fork hrooted.2.1 hsearch hp
      have hplug : plug fs (fork side cl v (.leaf a) x) = t := (of_search hsearch).1
      have hvkey : v.key = key := by
        obtain ⟨-, c', v', l', r', heq, hk⟩ := of_search hsearch
        cases side <;> (cases heq; exact hk)
      subst hvkey
      rw [hsearch] at htree
      dsimp only at htree
      rw [deleteAt_fork] at htree
      obtain ⟨⟨t₁, data⟩, hat, heq⟩ := Option.map_eq_some_iff.mp htree
      obtain ⟨t₂, hremove, hpair⟩ := Option.map_eq_some_iff.mp hat
      obtain ⟨rfl, rfl⟩ := Prod.mk.inj hpair
      obtain ⟨hret, hrest⟩ := Prod.mk.inj heq
      obtain ⟨rfl, hdata⟩ := Prod.mk.inj hrest
      obtain ⟨pre, post, hvalues, hvalues'⟩ := values_removeOne hremove
      rw [hplug] at hvalues
      have hf : f v.key = some v.data := by
        refine (hmap v.key v.data).mp ?_
        rw [pairsOf, Option.elim_some, pairs, hvalues]
        simp
      have hpairs := pairs_removed (hord t rfl) hvalues hvalues'
      rw [← hret, ← hdata, hf, if_neg (Option.some_ne_none _)]
      refine ⟨⟨rfl, rfl⟩, Binds.of_mem her.ok her.rooted ((hord t rfl).of_removed hvalues hvalues')
        hsigned fun k y => ?_⟩
      rw [hpairs.mem_iff, List.mem_filter, show pairs t = pairsOf (some t) from rfl, hmap,
        Function.update_apply]
      by_cases hk : k = v.key
      · simp [hk]
      · simp [hk]

/-- A call of a regular run. -/
theorem Binds.step (h : Binds sign f s) (hregular : Regular sign s c) (hstep : step s c = some s') :
    Answers f s c ∧ Binds sign (c.op.apply f) s' := by
  obtain ⟨fuel, op⟩ := c
  obtain ⟨hkey, hnode⟩ := hregular
  cases op with
  | insert key data type =>
    obtain ⟨ret, hcall⟩ := exists_of_step_insert hstep
    refine ⟨fun ret' root m hcall' => (h.insert hkey hcall').1, (h.insert hkey hcall).2⟩
  | delete key =>
    obtain ⟨d, hcall, rfl⟩ := exists_of_step_delete hstep
    have hdelete (d : Deleted) (hcall : rbtreeDelete fuel key s.root s.heap = .ok d) :=
      h.delete hkey hnode hcall
    exact ⟨fun d' hcall' => (hdelete d' hcall').1, (hdelete d hcall).2⟩

end Map

namespace Blocks

variable (B : Blocks)

theorem binds (sign : Bool) : Binds sign (fun _ => none) ⟨0, B.heap⟩ := by
  refine ⟨B.ok, none, rfl, fun t ht => (by cases ht), fun b hb => (by cases hb), fun key d => ?_⟩
  exact iff_of_false List.not_mem_nil fun h => by cases h

/-- **The tree is a map.** In a regular run of calls that return, from a null pointer on, each call
returns what a map from keys to data says, and after each call the search finds what the map has. -/
theorem refinesMap {sign : Bool} {calls : List Call}
    (h : Runs.Meets step (Regular sign) ⟨0, B.heap⟩ calls) :
    Runs.Meets mapStep (fun p c => Answers p.2 p.1 c) (⟨0, B.heap⟩, fun _ => none) calls ∧
      Runs.Holds mapStep (fun p => Searches sign p.2 p.1) (⟨0, B.heap⟩, fun _ => none) calls := by
  have hmeets : Runs.Meets mapStep (fun p c => Regular sign p.1 c)
      (⟨0, B.heap⟩, fun _ => none) calls := h.recorded _
  have hstep (p : State × (BitVec 32 → Option ℕ)) (c : Call)
      (p' : State × (BitVec 32 → Option ℕ)) (hp : Binds sign p.2 p.1)
      (hregular : Regular sign p.1 c) (hp' : mapStep p c = some p') :
      Answers p.2 p.1 c ∧ Binds sign p'.2 p'.1 := by
    obtain ⟨s', hs', rfl⟩ := Option.map_eq_some_iff.mp hp'
    exact hp.step hregular hs'
  have hinit := B.binds sign
  refine ⟨Runs.meets_of_inv (I := fun p => Binds sign p.2 p.1)
    (fun p c p' hp hc hp' => (hstep p c p' hp hc hp').2)
    (fun p c p' hp hc hp' => (hstep p c p' hp hc hp').1) hinit hmeets, ?_⟩
  have hall := Runs.holds_of_meets (I := fun p => Binds sign p.2 p.1)
    (fun p c p' hp hc hp' => (hstep p c p' hp hc hp').2) hinit hmeets
  exact hall.mono fun p hp => hp.searches

/-- A key that is inserted twice and then deleted. -/
theorem refinesMap_nine :
    Runs.Meets mapStep (fun p c => Answers p.2 p.1 c) (⟨0, nine.heap⟩, fun _ => none)
        [⟨1, .insert 1 7 0⟩, ⟨3, .insert 1 8 0⟩, ⟨3, .insert 2 9 0⟩, ⟨9, .delete 1⟩] ∧
      Runs.Holds mapStep (fun p => Searches false p.2 p.1) (⟨0, nine.heap⟩, fun _ => none)
        [⟨1, .insert 1 7 0⟩, ⟨3, .insert 1 8 0⟩, ⟨3, .insert 2 9 0⟩, ⟨9, .delete 1⟩] :=
  nine.refinesMap (by decide)

end Blocks

end Rbtree

end Lidas
