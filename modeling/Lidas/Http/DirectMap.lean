import Lidas.Http.AttriMap
import Mathlib.Logic.Function.Basic

/-!
# The hash table is direct-mapped

Since nothing is ever linked behind the first node of a bucket, the table with its chains answers
as one without: a bucket takes the first binding that comes for it and keeps that for good.
`DirectMap` is this table as a function. The calls of `hash_set`, `hash_search` and `hash_ergodic`,
in any order, have the same answers on both (`tableRun_eq`).
-/

namespace Lidas

/-- One binding for each bucket. -/
abbrev DirectMap (len : ℕ) (κ α : Type) := Fin len → Option (κ × α)

namespace DirectMap

variable {len : ℕ} {κ α : Type} (keySet : κ → Fin len)

def empty : DirectMap len κ α := fun _ => none

/-- The first binding stays. -/
def set (d : DirectMap len κ α) (key : κ) (content : α) : DirectMap len κ α :=
  Function.update d (keySet key) (some ((d (keySet key)).getD (key, content)))

def search [DecidableEq κ] (d : DirectMap len κ α) (key : κ) : Option α :=
  ((d (keySet key)).filter fun b => b.1 == key).map Prod.snd

/-- The contents of the buckets, in their order. -/
def ergodic (d : DirectMap len κ α) : List α :=
  (List.finRange len).filterMap fun i => (d i).map Prod.snd

end DirectMap

/-- A call on a table. -/
inductive HashCall (κ α : Type) where
  | hashSet (key : κ) (content : α)
  | hashSearch (key : κ)
  | hashErgodic

/-- What the caller gets, and the handler. -/
inductive HashAnswer (α : Type) where
  | done
  | found (content : Option α)
  | handled (contents : List α)

section Runs

variable {len : ℕ} {κ α : Type} [DecidableEq κ] (keySet : κ → Fin len)

/-- A call on the table. -/
def tableStep (t : AttriTable κ α) :
    HashCall κ α → Except Fault (HashAnswer α × AttriTable κ α)
  | .hashSet key content => do
    let t' ← hashSet t key content (keySet key)
    return (.done, t')
  | .hashSearch key => do
    let found ← hashSearch t (keySet key) fun attri => .ok (attri == key)
    return (.found found, t)
  | .hashErgodic => do
    let handled ← hashErgodic len t
    return (.handled handled, t)

/-- The same call on the function. -/
def directStep (d : DirectMap len κ α) : HashCall κ α → HashAnswer α × DirectMap len κ α
  | .hashSet key content => (.done, d.set keySet key content)
  | .hashSearch key => (.found (d.search keySet key), d)
  | .hashErgodic => (.handled d.ergodic, d)

/-- The answers of a table. -/
def tableRun : List (HashCall κ α) → AttriTable κ α → Except Fault (List (HashAnswer α))
  | [], _ => .ok []
  | c :: cs, t => do
    let (a, t') ← tableStep keySet t c
    return a :: (← tableRun cs t')

/-- The answers of the function. -/
def directRun : List (HashCall κ α) → DirectMap len κ α → List (HashAnswer α)
  | [], _ => []
  | c :: cs, d => (directStep keySet d c).1 :: directRun cs (directStep keySet d c).2

end Runs

section Simulation

variable {len : ℕ} {κ α : Type} {t : AttriTable κ α} {d : DirectMap len κ α}
  {calls : List (SetCall κ α)}

/-- The function has the first of the calls for each bucket. -/
structure Simulates (d : DirectMap len κ α) (calls : List (SetCall κ α)) (t : AttriTable κ α) :
    Prop where
  filled : Filled len calls t
  first : ∀ i : Fin len,
    d i = (calls.find? fun c => c.cnt = (i : ℕ)).map fun c => (c.key, c.content)

theorem simulates_empty :
    Simulates (DirectMap.empty : DirectMap len κ α) [] (AttriTable.empty len) where
  filled := filled_empty len
  first _ := rfl

theorem Simulates.hashSet (h : Simulates d calls t) (keySet : κ → Fin len) (key : κ)
    (content : α) : ∃ t', hashSet t key content (keySet key) = .ok t' ∧
      Simulates (d.set keySet key content) (calls ++ [⟨keySet key, key, content⟩]) t' := by
  obtain ⟨t', ht', hfilled⟩ := h.filled.hashSet ⟨keySet key, key, content⟩ (keySet key).isLt
  refine ⟨t', ht', hfilled, fun i => ?_⟩
  rw [DirectMap.set, Function.update_apply, List.find?_append]
  split_ifs with hi
  · rw [h.first (keySet key), hi]
    cases calls.find? fun c => c.cnt = (keySet key : ℕ) with
    | none => simp
    | some c => rfl
  · have hne : ((keySet key : ℕ) = (i : ℕ)) = False := eq_false fun heq => hi (Fin.ext heq.symm)
    rw [h.first i]
    simp [hne]

theorem Simulates.hashSearch [DecidableEq κ] (h : Simulates d calls t) (keySet : κ → Fin len)
    (key : κ) : hashSearch t (keySet key) (fun attri => .ok (attri == key)) =
      .ok (d.search keySet key) := by
  rw [@Filled.hashSearch _ _ _ _ _ h.filled (keySet key) (keySet key).isLt _
    (fun attri => attri == key) fun _ _ => rfl, DirectMap.search, h.first (keySet key)]
  cases calls.find? fun c => c.cnt = (keySet key : ℕ) with
  | none => rfl
  | some c =>
    by_cases hkey : c.key = key
    · simp [Option.filter, hkey]
    · simp [Option.filter, hkey]

theorem Simulates.hashErgodic (h : Simulates d calls t) :
    hashErgodic len t = .ok d.ergodic := by
  rw [Lidas.hashErgodic, h.filled.ergodicFrom (by omega), DirectMap.ergodic,
    ← List.range_eq_range', ← List.map_coe_finRange_eq_range, List.filterMap_map]
  congr 1
  refine List.filterMap_congr fun i _ => ?_
  rw [h.first i, Option.map_map]
  rfl

/-- One call. -/
theorem Simulates.step [DecidableEq κ] (h : Simulates d calls t) (keySet : κ → Fin len)
    (c : HashCall κ α) : ∃ t' calls', tableStep keySet t c = .ok ((directStep keySet d c).1, t') ∧
      Simulates (directStep keySet d c).2 calls' t' := by
  cases c with
  | hashSet key content =>
    obtain ⟨t', ht', h'⟩ := h.hashSet keySet key content
    exact ⟨t', _, by rw [tableStep, ht']; rfl, h'⟩
  | hashSearch key => exact ⟨t, calls, by rw [tableStep, h.hashSearch]; rfl, h⟩
  | hashErgodic => exact ⟨t, calls, by rw [tableStep, h.hashErgodic]; rfl, h⟩

theorem Simulates.run [DecidableEq κ] (h : Simulates d calls t) (keySet : κ → Fin len)
    (cs : List (HashCall κ α)) : tableRun keySet cs t = .ok (directRun keySet cs d) := by
  induction cs generalizing d calls t with
  | nil => rfl
  | cons c cs ih =>
    obtain ⟨t', calls', hstep, h'⟩ := h.step keySet c
    rw [tableRun, hstep, ok_bind]
    dsimp only
    rw [ih h']
    rfl

/-- **The table refines a direct-mapped one.** Every run of the calls, in any order, comes to its
end, and has the answers of the function. -/
theorem tableRun_eq [DecidableEq κ] (keySet : κ → Fin len) (cs : List (HashCall κ α)) :
    tableRun keySet cs (AttriTable.empty len) = .ok (directRun keySet cs DirectMap.empty) :=
  simulates_empty.run keySet cs

end Simulation

end Lidas
