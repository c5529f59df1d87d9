import Lidas.Lib.Runs
import Lidas.Rbtree.Deletion
import Lidas.Rbtree.Sequences

/-!
# The blocks of the tree

Runs of insertions and deletions that return. Each key has a node and, with the one leaf that there
is more than nodes, a leaf of its own, so that `2 * k + 1` blocks are out for `k` keys. Every call
keeps it so but for an insertion that is refused: it has taken three blocks, and returns without
giving them back.
-/

namespace Lidas

namespace Rbtree

open RbTree

/-- A root and the records. -/
structure State where
  root : ℕ
  heap : Heap

inductive Op where
  | insert (key : BitVec 32) (data : ℕ) (type : BitVec 4)
  | delete (key : BitVec 32)

/-- A call, with a bound on its rounds. -/
structure Call where
  fuel : ℕ
  op : Op

/-- What a call leaves that returns. -/
def step (s : State) (c : Call) : Option State :=
  match c.op with
  | .insert key data type =>
    match rbtreeInsert c.fuel s.root key data type s.heap with
    | .ok (_, h, m) => some ⟨h, m⟩
    | .error _ => none
  | .delete key =>
    match rbtreeDelete c.fuel key s.root s.heap with
    | .ok d => some ⟨d.root, d.heap⟩
    | .error _ => none

/-- Before the first insertion the root is `NULL`, and nothing is out but what was before. After it
there is a tree, and a block out for each node and for each leaf. -/
def Accounted (before : ℕ) (s : State) : Prop :=
  s.root = 0 ∧ s.heap.pool.out.card = before ∨
    ∃ t, Rooted s.heap s.root (some t) ∧ s.heap.pool.out.card = before + (2 * t.size + 1)

/-- An insertion that is refused changes nothing. -/
def RefusesRight (s : State) (c : Call) : Prop :=
  ∀ key data type h m, c.op = .insert key data type →
    rbtreeInsert c.fuel s.root key data type s.heap = .ok (-1, h, m) → h = s.root ∧ m = s.heap

/-- The way down of an insertion meets its key. -/
def Meets (key : BitVec 32) (s : State) : Prop :=
  ∃ t, Rooted s.heap s.root (some t) ∧ seek key [] t = none

/-- A call that does not insert a key it meets. -/
def Fresh (s : State) (c : Call) : Prop :=
  match c.op with
  | .insert key _ _ => ¬Meets key s
  | .delete _ => True

/-- What is kept by the calls that insert no key that they meet. -/
structure Kept (before : ℕ) (s : State) : Prop where
  ok : PoolOk s.heap
  accounted : Accounted before s

section Steps

variable {before fuel : ℕ} {s s' : State} {c : Call} {key : BitVec 32} {data : ℕ} {type : BitVec 4}

theorem exists_of_step_insert (h : step s ⟨fuel, .insert key data type⟩ = some s') :
    ∃ ret, rbtreeInsert fuel s.root key data type s.heap = .ok (ret, s'.root, s'.heap) := by
  rw [step] at h
  dsimp only at h
  split at h
  · obtain rfl := Option.some.inj h
    exact ⟨_, ‹_›⟩
  · cases h

theorem exists_of_step_delete (h : step s ⟨fuel, .delete key⟩ = some s') :
    ∃ d, rbtreeDelete fuel key s.root s.heap = .ok d ∧ s' = ⟨d.root, d.heap⟩ := by
  rw [step] at h
  dsimp only at h
  split at h
  · exact ⟨_, ‹_›, (Option.some.inj h).symm⟩
  · cases h

theorem exists_tree (h : Accounted before s) :
    ∃ o, Rooted s.heap s.root o ∧
      s.heap.pool.out.card = before + o.elim 0 fun t => 2 * t.size + 1 := by
  rcases h with ⟨hroot, hcard⟩ | ⟨t, hrooted, hcard⟩
  · exact ⟨none, hroot, hcard⟩
  · exact ⟨some t, hrooted, hcard⟩

theorem Rooted.root_ne {t : Tree} (h : Rooted s.heap s.root (some t)) : s.root ≠ 0 := by
  rw [h.1]
  exact h.2.1.ne_zero _ (addr_mem_addrs t)

/-- What an insertion returns, and the number of keys then. -/
theorem insertTree_cases {o : Option Tree} {a b c : ℕ} {ret : ℤ} {t : Tree}
    (h : insertTree key data type a b c o = some (ret, t)) :
    ret = -1 ∧ o = some t ∧ seek key [] t = none ∨
      ret = 0 ∧ (∀ t₀ ∈ o, seek key [] t₀ ≠ none) ∧ t.size = o.elim 0 RbTree.size + 1 := by
  cases o with
  | none =>
    obtain ⟨rfl, rfl⟩ := Prod.mk.inj (Option.some.inj h)
    exact .inr ⟨rfl, fun t₀ ht₀ => (by cases ht₀), rfl⟩
  | some t₀ =>
    rw [insertTree] at h
    cases hseek : seek key [] t₀ with
    | none =>
      rw [hseek] at h
      obtain ⟨rfl, rfl⟩ := Prod.mk.inj (Option.some.inj h)
      exact .inl ⟨rfl, rfl, hseek⟩
    | some z =>
      obtain ⟨fs, p⟩ := z
      rw [hseek] at h
      obtain ⟨t', hfix, heq⟩ := Option.map_eq_some_iff.mp h
      obtain ⟨rfl, rfl⟩ := Prod.mk.inj heq
      refine .inr ⟨rfl, fun t₁ ht₁ => ?_, ?_⟩
      · obtain rfl := Option.some.inj ht₁
        rw [hseek]
        exact Option.some_ne_none _
      · have hsize := size_plug_add fs (.node .red ⟨p, type, key, data⟩ (.leaf c) (.leaf b))
          (.leaf p : Tree)
        rw [plug_seek hseek] at hsize
        rw [size_eq_of_inorder (inorder_insertFix (fun k heq => by cases heq) hfix)]
        exact hsize

/-- What an insertion returns, and the blocks it leaves out. -/
theorem Kept.insert (hk : Kept before s) {ret : ℤ} {h : ℕ} {m : Heap}
    (hcall : rbtreeInsert fuel s.root key data type s.heap = .ok (ret, h, m)) :
    (Meets key s ∧ ret = -1 ∧ ¬Accounted before ⟨h, m⟩) ∨
      ¬Meets key s ∧ ret = 0 ∧ Kept before ⟨h, m⟩ := by
  obtain ⟨o, hrooted, hcard⟩ := exists_tree hk.accounted
  obtain ⟨a, b, c, rest, t', -, htree, hins⟩ := rbtreeInsert_ok hk.ok hrooted hcall
  have hout := hins.out
  rcases insertTree_cases htree with ⟨rfl, rfl, hseek⟩ | ⟨rfl, hseek, hsize⟩
  · refine .inl ⟨⟨t', hrooted, hseek⟩, rfl, fun hacc => ?_⟩
    have hblocks : insertBlocks (some t') (-1) = 3 := rfl
    rcases hacc with ⟨hroot, -⟩ | ⟨t, hrooted', hcard'⟩
    · exact Rooted.root_ne hins.rooted hroot
    · obtain rfl := hins.rooted.unique hrooted'
      rw [Option.elim_some] at hcard
      dsimp only at hcard'
      omega
  · refine .inr ⟨?_, rfl, hins.ok, .inr ⟨t', hins.rooted, ?_⟩⟩
    · rintro ⟨t, hrooted', hmet⟩
      cases o with
      | none => exact Rooted.root_ne hrooted' hrooted
      | some t₀ =>
        obtain rfl := Rooted.unique hrooted hrooted'
        exact hseek t₀ rfl hmet
    · dsimp only
      cases o with
      | none =>
        have hblocks : insertBlocks none 0 = 3 := rfl
        rw [Option.elim_none] at hcard hsize
        omega
      | some t₀ =>
        have hblocks : insertBlocks (some t₀) 0 = 2 := rfl
        rw [Option.elim_some] at hcard hsize
        omega

theorem Kept.delete (hk : Kept before s) {d : Deleted}
    (hcall : rbtreeDelete fuel key s.root s.heap = .ok d) : Kept before ⟨d.root, d.heap⟩ := by
  rcases hk.accounted with ⟨hroot, -⟩ | ⟨t, hrooted, hcard⟩
  · rw [hroot] at hcall
    cases fuel <;> cases hcall
  · obtain ⟨t', htree, her⟩ := rbtreeDelete_ok hk.ok hrooted hcall
    have hout := her.out
    refine ⟨her.ok, .inr ⟨t', her.rooted, ?_⟩⟩
    rcases size_deleteTree htree with ⟨hret, rfl⟩ | ⟨hret, hsize⟩
    · rw [hret, if_neg (by decide)] at hout
      exact hout.trans hcard
    · rw [hret, if_pos rfl] at hout
      dsimp only
      omega

/-- The calls that insert no key that they meet keep the account, and no others do. -/
theorem Kept.step_iff (hk : Kept before s) (hstep : step s c = some s') :
    (Accounted before s' ∧ RefusesRight s c ↔ Fresh s c) ∧ (Fresh s c → Kept before s') := by
  obtain ⟨fuel, op⟩ := c
  cases op with
  | insert key data type =>
    obtain ⟨ret, hcall⟩ := exists_of_step_insert hstep
    rcases hk.insert hcall with ⟨hmeets, -, hacc⟩ | ⟨hfresh, rfl, hk'⟩
    · exact ⟨iff_of_false (fun h => hacc h.1) fun hfresh => hfresh hmeets,
        fun hfresh => absurd hmeets hfresh⟩
    · refine ⟨iff_of_true ⟨hk'.accounted, fun key' data' type' h' m' hop hcall' => ?_⟩ hfresh,
        fun _ => hk'⟩
      cases hop
      rw [hcall] at hcall'
      cases hcall'
  | delete key =>
    obtain ⟨d, hcall, rfl⟩ := exists_of_step_delete hstep
    have hk' := hk.delete hcall
    exact ⟨iff_of_true ⟨hk'.accounted, fun _ _ _ _ _ hop => by cases hop⟩ trivial, fun _ => hk'⟩

end Steps

namespace Blocks

variable (B : Blocks) (calls : List Call)

/-- Along a run from a null pointer the blocks are accounted for. -/
def Accounts : Prop :=
  Runs.Holds step (Accounted B.heap.pool.out.card) ⟨0, B.heap⟩ calls ∧
    Runs.Meets step RefusesRight ⟨0, B.heap⟩ calls

/-- The blocks are accounted for in the runs in which no call inserts a key that it meets. -/
theorem accounts_iff_fresh : B.Accounts calls ↔ Runs.Meets step Fresh ⟨0, B.heap⟩ calls :=
  Runs.holds_and_meets_iff_meets (I := Kept B.heap.pool.out.card) (fun _ hk => hk.accounted)
    (fun _ _ _ hk hfresh hstep => (hk.step_iff hstep).2 hfresh)
    (fun _ _ _ hk hstep => (hk.step_iff hstep).1) ⟨B.ok, .inl ⟨rfl, rfl⟩⟩ calls

/-- A key that is inserted twice. -/
theorem not_forall_accounts : ¬∀ (B : Blocks) (calls : List Call), B.Accounts calls := by
  intro h
  obtain ⟨hholds, -⟩ := h nine [⟨1, .insert 1 0 0⟩, ⟨3, .insert 1 0 0⟩]
  have hk : Kept 0 ⟨0, nine.heap⟩ := ⟨nine.ok, .inl ⟨rfl, rfl⟩⟩
  have hfree : nine.heap.pool.free = 1 :: 2 :: 3 :: [4, 5, 6, 7, 8, 9] := rfl
  obtain ⟨m₁, hcall₁, hins₁⟩ := rbtreeInsert_null 1 0 0 hk.ok hfree 1
  have hstep₁ : step ⟨0, nine.heap⟩ ⟨1, .insert 1 0 0⟩ = some ⟨1, m₁⟩ := by
    rw [step]
    dsimp only
    rw [hcall₁]
  have hroom : 3 ≤ m₁.pool.free.length := by
    have hlength : m₁.pool.free.length + 3 = 9 := hins₁.free
    omega
  obtain ⟨a, b, c, rest, hfree₁⟩ := exists_of_three_le hroom
  have hmet : seek 1 [] (.node .black ⟨1, 0, 1, 0⟩ (.leaf 3) (.leaf 2)) = none := rfl
  obtain ⟨m₂, hcall₂, -⟩ := (rbtreeInsert_met 0 0 hins₁.ok hins₁.rooted hfree₁ hmet 3).resolve_right
    fun hlow => absurd hlow.2 (by decide)
  have hstep₂ : step ⟨1, m₁⟩ ⟨3, .insert 1 0 0⟩ = some ⟨1, m₂⟩ := by
    rw [step]
    dsimp only
    rw [hcall₂]
  have hk₁ : Kept 0 ⟨1, m₁⟩ := ⟨hins₁.ok, (hholds.2 _ hstep₁).1⟩
  rcases hk₁.insert hcall₂ with ⟨-, -, hacc⟩ | ⟨hfresh, -, -⟩
  · exact hacc ((hholds.2 _ hstep₁).2 _ hstep₂)
  · exact hfresh ⟨_, hins₁.rooted, hmet⟩

end Blocks

end Rbtree

end Lidas
