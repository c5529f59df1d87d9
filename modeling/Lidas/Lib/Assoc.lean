import Mathlib.Data.List.Find
import Mathlib.Data.List.Nodup

/-!
# First bindings

A list of bindings, each a key and a content, taken as a map that keeps the first binding of a
key. `firstBindings` lists what it keeps. With a bucket for each key, the first binding of a
bucket is the first binding of a key if no other key has the same bucket (`find?_bucket`), and
`bucketHeads` lists the first bindings of all buckets.
-/

namespace Lidas

variable {κ : Type*} {α : Type*}

section FirstBindings

variable [DecidableEq κ] {bs : List (κ × α)}

/-- The first binding of each key. -/
def firstBindings : List (κ × α) → List (κ × α)
  | [] => []
  | b :: bs => b :: (firstBindings bs).filter fun c => c.1 ≠ b.1

theorem mem_firstBindings {b : κ × α} :
    b ∈ firstBindings bs ↔ (bs.find? fun c => c.1 = b.1) = some b := by
  induction bs with
  | nil => simp [firstBindings]
  | cons c bs ih =>
    rw [firstBindings, List.mem_cons, List.mem_filter, ih, List.find?_cons]
    by_cases hkey : c.1 = b.1
    · simp [hkey, eq_comm]
    · have hne : b ≠ c := fun h => hkey (by rw [h])
      simp [hkey, hne, Ne.symm hkey]

theorem firstBindings_sublist (bs : List (κ × α)) : (firstBindings bs).Sublist bs := by
  induction bs with
  | nil => exact List.Sublist.refl []
  | cons b bs ih => exact (List.filter_sublist.trans ih).cons_cons b

/-- No key is bound twice. -/
theorem nodup_keys_firstBindings (bs : List (κ × α)) :
    ((firstBindings bs).map Prod.fst).Nodup := by
  induction bs with
  | nil => simp [firstBindings]
  | cons b bs ih =>
    rw [firstBindings, List.map_cons, List.nodup_cons]
    refine ⟨?_, ih.sublist (List.filter_sublist.map Prod.fst)⟩
    simp [List.mem_map, List.mem_filter]

theorem mem_keys_firstBindings {k : κ} :
    k ∈ (firstBindings bs).map Prod.fst ↔ k ∈ bs.map Prod.fst := by
  constructor
  · exact fun h => ((firstBindings_sublist bs).map Prod.fst).subset h
  · intro h
    obtain ⟨b, hb, rfl⟩ := List.mem_map.mp h
    obtain ⟨c, hc⟩ : ∃ c, (bs.find? fun c => c.1 = b.1) = some c :=
      Option.isSome_iff_exists.mp (List.find?_isSome.mpr ⟨b, hb, by simp⟩)
    have hkey : c.1 = b.1 := by simpa using List.find?_some hc
    exact List.mem_map.mpr ⟨c, mem_firstBindings.mpr (by rwa [hkey]), hkey⟩

/-- A binding behind the others is kept if its key is new. -/
theorem firstBindings_concat (bs : List (κ × α)) (b : κ × α) :
    firstBindings (bs ++ [b]) =
      if b.1 ∈ bs.map Prod.fst then firstBindings bs else firstBindings bs ++ [b] := by
  induction bs with
  | nil => rfl
  | cons c bs ih =>
    have hmem : b.1 ∈ (c :: bs).map Prod.fst ↔ b.1 = c.1 ∨ b.1 ∈ bs.map Prod.fst := by
      rw [List.map_cons, List.mem_cons]
    rw [List.cons_append, firstBindings, ih, firstBindings, if_congr hmem rfl rfl]
    by_cases hold : b.1 ∈ bs.map Prod.fst
    · rw [if_pos hold, if_pos (.inr hold)]
    · rw [if_neg hold, List.filter_append]
      by_cases hkey : b.1 = c.1
      · rw [if_pos (.inl hkey)]
        simp [hkey]
      · rw [if_neg (not_or.mpr ⟨hkey, hold⟩)]
        simp [hkey]

/-- Without a repeated key, all bindings are kept. -/
theorem firstBindings_eq_self (h : (bs.map Prod.fst).Nodup) : firstBindings bs = bs := by
  induction bs with
  | nil => rfl
  | cons b bs ih =>
    rw [List.map_cons, List.nodup_cons] at h
    rw [firstBindings, ih h.2, List.filter_eq_self.mpr]
    intro c hc
    have hne : c.1 ≠ b.1 := fun heq => h.1 (heq ▸ List.mem_map_of_mem hc)
    simpa using hne

end FirstBindings

section Buckets

variable {f : κ → ℕ} {bs : List (κ × α)}

/-- In a list of things with keys, a key alone in its bucket is found as the bucket's first. -/
theorem find?_bucket [DecidableEq κ] {β : Type*} {key : β → κ} {l : List β} {k : κ}
    (h : ∀ b ∈ l, f (key b) = f k → key b = k) :
    (l.find? fun b => f (key b) = f k) = l.find? fun b => key b = k :=
  List.find?_congr fun b hb => decide_eq_decide.mpr ⟨h b hb, fun heq => by rw [heq]⟩

/-- If different keys have different buckets, the first binding of a bucket is all that a search
for a key has to look at. -/
theorem filter_find?_bucket [DecidableEq κ] (k : κ)
    (h : ∀ b ∈ bs, ∀ c ∈ bs, f b.1 = f c.1 → b.1 = c.1) :
    ((bs.find? fun b => f b.1 = f k).filter fun b => b.1 == k) = bs.find? fun b => b.1 = k := by
  cases hkey : bs.find? fun b => b.1 = k with
  | some b =>
    have hb : b ∈ bs := List.mem_of_find?_eq_some hkey
    have hbk : b.1 = k := by simpa using List.find?_some hkey
    have halone : ∀ c ∈ bs, f c.1 = f k → c.1 = k := fun c hc heq => by
      rw [← hbk] at heq ⊢
      exact h c hc b hb heq
    rw [find?_bucket halone, hkey]
    simp [Option.filter, hbk]
  | none =>
    refine Option.filter_eq_none_iff.mpr fun b hb hbk => ?_
    have hne := List.find?_eq_none.mp hkey b (List.mem_of_find?_eq_some hb)
    exact hne (by simpa using hbk)

/-- The first binding of each of the first `len` buckets. -/
def bucketHeads (f : κ → ℕ) (len : ℕ) (bs : List (κ × α)) : List (κ × α) :=
  (List.range len).filterMap fun i => bs.find? fun b => f b.1 = i

theorem mem_bucketHeads {len : ℕ} {b : κ × α} :
    b ∈ bucketHeads f len bs ↔ f b.1 < len ∧ (bs.find? fun c => f c.1 = f b.1) = some b := by
  rw [bucketHeads, List.mem_filterMap]
  constructor
  · rintro ⟨i, hi, hfind⟩
    have hb : f b.1 = i := by simpa using List.find?_some hfind
    subst hb
    exact ⟨List.mem_range.mp hi, hfind⟩
  · rintro ⟨hlt, hfind⟩
    exact ⟨f b.1, List.mem_range.mpr hlt, hfind⟩

theorem nodup_bucketHeads (f : κ → ℕ) (len : ℕ) (bs : List (κ × α)) :
    (bucketHeads f len bs).Nodup := by
  refine List.Nodup.filterMap (fun i j b hi hj => ?_) List.nodup_range
  have hbi : f b.1 = i := by simpa using List.find?_some hi
  have hbj : f b.1 = j := by simpa using List.find?_some hj
  rw [← hbi, hbj]

/-- When different keys have different buckets, the first of the buckets are the first of the
keys. -/
theorem bucketHeads_perm [DecidableEq κ] {len : ℕ} (hlen : ∀ b ∈ bs, f b.1 < len)
    (h : ∀ b ∈ bs, ∀ c ∈ bs, f b.1 = f c.1 → b.1 = c.1) :
    (bucketHeads f len bs).Perm (firstBindings bs) := by
  refine (List.perm_ext_iff_of_nodup (nodup_bucketHeads f len bs)
    (nodup_keys_firstBindings bs).of_map).mpr fun b => ?_
  rw [mem_bucketHeads, mem_firstBindings]
  constructor
  · rintro ⟨-, hfind⟩
    have hb : b ∈ bs := List.mem_of_find?_eq_some hfind
    rwa [find?_bucket fun c hc heq => h c hc b hb heq] at hfind
  · intro hfind
    have hb : b ∈ bs := List.mem_of_find?_eq_some hfind
    refine ⟨hlen b hb, ?_⟩
    rwa [find?_bucket fun c hc heq => h c hc b hb heq]

end Buckets

end Lidas
