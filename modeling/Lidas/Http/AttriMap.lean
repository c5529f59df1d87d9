import Lidas.Http.Attrihash
import Lidas.Lib.Assoc

/-!
# The attribute hash table as a map

A table filled by calls of `hash_set`, under any key function, searched for any key, and
traversed by `hash_ergodic`. All three walk along the chains, and no chain has more than one
node: what the table has of the calls are the first calls of its buckets, `bucketHeads`.
-/

namespace Lidas

section Ergodic

variable {κ α : Type}

/-- The `while` loop of `hash_ergodic`: the contents the handler is applied to. -/
def ergodicChain (t : AttriTable κ α) : ℕ → Option ℕ → Except Fault (List α)
  | _, none => .ok []
  | 0, some _ => .error .diverges
  | fuel + 1, some p => do
    let n ← t.node p
    return n.content :: (← ergodicChain t fuel n.next)

/-- One round of the `for` loop of `hash_ergodic`. -/
def ergodicBucket (t : AttriTable κ α) (i : ℕ) : Except Fault (List α) := do
  match ← t.bucket i with
  | none => return []
  | some p =>
    let n ← t.node p
    return n.content :: (← ergodicChain t t.nodes.length n.next)

/-- `hash_ergodic` from bucket `i` on, for `len` buckets. -/
def ergodicFrom (t : AttriTable κ α) : ℕ → ℕ → Except Fault (List α)
  | 0, _ => .ok []
  | len + 1, i => do
    let contents ← ergodicBucket t i
    return contents ++ (← ergodicFrom t len (i + 1))

/-- `hash_ergodic`: the contents the handler is applied to, in order. -/
def hashErgodic (len : ℕ) (t : AttriTable κ α) : Except Fault (List α) := ergodicFrom t len 0

/-- Calls of `hash_set`, with `keySet` for the key function. -/
def hashSets (keySet : κ → ℕ) : List (κ × α) → AttriTable κ α → Except Fault (AttriTable κ α)
  | [], t => .ok t
  | b :: bs, t => do hashSets keySet bs (← hashSet t b.1 b.2 (keySet b.1))

end Ergodic

section Filled

variable {κ α : Type} {len : ℕ} {calls : List (SetCall κ α)} {t : AttriTable κ α}

theorem Filled.ergodicBucket (h : Filled len calls t) {i : ℕ} (hi : i < len) :
    ergodicBucket t i =
      .ok ((calls.find? fun c => c.cnt = i).map SetCall.content).toList := by
  cases hb : calls.findIdx? fun c => c.cnt = i with
  | none =>
    have hnone : calls.find? (fun c => c.cnt = i) = none := by
      rw [List.find?_eq_bind_findIdx?_getElem?, hb]
      rfl
    rw [Lidas.ergodicBucket, h.bucket_eq hi, hb, ok_bind, hnone]
    rfl
  | some p =>
    obtain ⟨c, hp, hfind⟩ := exists_of_findIdx? hb
    rw [Lidas.ergodicBucket, h.bucket_eq hi, hb, ok_bind, hfind]
    simp only [h.node_eq hp, ok_bind]
    cases t.nodes.length <;> rfl

theorem Filled.ergodicFrom (h : Filled len calls t) {n i : ℕ} (hlen : i + n ≤ len) :
    ergodicFrom t n i = .ok ((List.range' i n).filterMap fun j =>
      (calls.find? fun c => c.cnt = j).map SetCall.content) := by
  induction n generalizing i with
  | zero => rfl
  | succ n ih =>
    rw [Lidas.ergodicFrom, h.ergodicBucket (by omega), ok_bind, ih (by omega), ok_bind,
      List.range'_succ, pure_eq_ok]
    cases hfind : calls.find? fun c => c.cnt = i with
    | none => simp [hfind]
    | some c => simp [hfind]

end Filled

variable {κ α : Type} {len : ℕ}

/-- The call of `hash_set` for a binding. -/
def setCall (keySet : κ → Fin len) (b : κ × α) : SetCall κ α := ⟨keySet b.1, b.1, b.2⟩

theorem find?_setCalls (keySet : κ → Fin len) (bs : List (κ × α)) (i : ℕ) :
    (bs.map (setCall keySet)).find? (fun c => c.cnt = i) =
      (bs.find? fun b => (keySet b.1 : ℕ) = i).map (setCall keySet) := by
  rw [List.find?_map]
  rfl

/-- Calls of `hash_set` fill the table. -/
theorem Filled.hashSets {calls : List (SetCall κ α)} {t : AttriTable κ α}
    (h : Filled len calls t) (keySet : κ → Fin len) (bs : List (κ × α)) :
    ∃ t', hashSets (fun k => keySet k) bs t = .ok t' ∧
      Filled len (calls ++ bs.map (setCall keySet)) t' := by
  induction bs generalizing calls t with
  | nil => exact ⟨t, rfl, by simpa using h⟩
  | cons b bs ih =>
    obtain ⟨t₁, hset, h₁⟩ := h.hashSet (setCall keySet b) (keySet b.1).isLt
    obtain ⟨t', hsets, h'⟩ := ih h₁
    refine ⟨t', ?_, by simpa using h'⟩
    have hset' : Lidas.hashSet t b.1 b.2 (keySet b.1) = .ok t₁ := hset
    rw [Lidas.hashSets, hset', ok_bind, hsets]

variable [DecidableEq κ]

/-- After the calls, a search for a key. -/
def searchAfter (t : AttriTable κ α) (keySet : κ → Fin len) (k : κ) : Except Fault (Option α) :=
  hashSearch t (keySet k) fun attri => .ok (attri == k)

/-- The table is a map: the calls and every search come to an end, a search finds the content of
the first call with its key, and the handler is applied to the contents of the given bindings,
to each of them once. -/
def ActsAsMap (keySet : κ → Fin len) (calls bindings : List (κ × α)) : Prop :=
  ∃ t, hashSets (fun k => keySet k) calls (AttriTable.empty len) = .ok t ∧
    (∀ k, searchAfter t keySet k = .ok ((calls.find? fun b => b.1 = k).map Prod.snd)) ∧
    ∃ handled, hashErgodic len t = .ok handled ∧ handled.Perm (bindings.map Prod.snd)

/-- What a table does after the calls. -/
theorem exists_hashSets (keySet : κ → Fin len) (calls : List (κ × α)) :
    ∃ t, hashSets (fun k => keySet k) calls (AttriTable.empty len) = .ok t ∧
      (∀ k, searchAfter t keySet k =
        .ok (((calls.find? fun b => (keySet b.1 : ℕ) = keySet k).filter fun b => b.1 == k).map
          Prod.snd)) ∧
      hashErgodic len t = .ok ((bucketHeads (fun k => keySet k) len calls).map Prod.snd) := by
  obtain ⟨t, hsets, h⟩ := (filled_empty (κ := κ) (α := α) len).hashSets keySet calls
  refine ⟨t, hsets, fun k => ?_, ?_⟩
  · rw [searchAfter, @Filled.hashSearch _ _ _ _ _ h (keySet k) (keySet k).isLt _
      (fun attri => attri == k) fun _ _ => rfl, List.nil_append, find?_setCalls]
    cases calls.find? fun b => (keySet b.1 : ℕ) = keySet k with
    | none => rfl
    | some b =>
      by_cases hkey : b.1 = k
      · simp [Option.filter, setCall, hkey]
      · simp [Option.filter, setCall, hkey]
  · rw [hashErgodic, h.ergodicFrom (by omega), ← List.range_eq_range', List.nil_append,
      bucketHeads, List.map_filterMap]
    congr 1
    refine List.filterMap_congr fun i _ => ?_
    rw [find?_setCalls, Option.map_map]
    rfl

/-- Different keys among the calls have different buckets. -/
def Apart (keySet : κ → Fin len) (calls : List (κ × α)) : Prop :=
  ∀ b ∈ calls, ∀ c ∈ calls, keySet b.1 = keySet c.1 → b.1 = c.1

theorem ActsAsMap.apart {keySet : κ → Fin len} {calls bindings : List (κ × α)}
    (h : ActsAsMap keySet calls bindings) : Apart keySet calls := by
  obtain ⟨t, hsets, hsearch, -⟩ := h
  obtain ⟨t', hsets', hsearch', -⟩ := exists_hashSets keySet calls
  obtain rfl := Except.ok.inj (hsets.symm.trans hsets')
  -- the first call of the bucket has the key of each call in the bucket
  have hfirst : ∀ b ∈ calls, ∃ d,
      (calls.find? fun c => (keySet c.1 : ℕ) = keySet b.1) = some d ∧ d.1 = b.1 := by
    intro b hb
    obtain ⟨e, he⟩ : ∃ e, (calls.find? fun c => c.1 = b.1) = some e :=
      Option.isSome_iff_exists.mp (List.find?_isSome.mpr ⟨b, hb, by simp⟩)
    have hfound := hsearch' b.1
    rw [hsearch b.1, he, Except.ok.injEq, Option.map_some, eq_comm,
      Option.map_eq_some_iff] at hfound
    obtain ⟨d, hd, -⟩ := hfound
    obtain ⟨hfind, hkey⟩ := Option.filter_eq_some_iff.mp hd
    exact ⟨d, hfind, by simpa using hkey⟩
  intro b hb c hc hbc
  obtain ⟨d, hd, hdb⟩ := hfirst b hb
  obtain ⟨d', hd', hdc⟩ := hfirst c hc
  rw [hbc, hd', Option.some.injEq] at hd
  rw [← hdb, ← hdc, hd]

theorem Apart.actsAsMap {keySet : κ → Fin len} {calls : List (κ × α)} (h : Apart keySet calls) :
    ActsAsMap keySet calls (firstBindings calls) := by
  obtain ⟨t, hsets, hsearch, hergodic⟩ := exists_hashSets keySet calls
  have hval : ∀ b ∈ calls, ∀ c ∈ calls, (keySet b.1 : ℕ) = keySet c.1 → b.1 = c.1 :=
    fun b hb c hc heq => h b hb c hc (Fin.ext heq)
  refine ⟨t, hsets, fun k => ?_, _, hergodic,
    (bucketHeads_perm (fun b _ => (keySet b.1).isLt) hval).map Prod.snd⟩
  rw [hsearch, filter_find?_bucket (f := fun k => (keySet k : ℕ)) k hval]

/-- If every call counts as a binding, no bucket is used twice. -/
theorem ActsAsMap.nodup {keySet : κ → Fin len} {calls : List (κ × α)}
    (h : ActsAsMap keySet calls calls) : (calls.map fun b => keySet b.1).Nodup := by
  have hapart := h.apart
  obtain ⟨t', hsets', -, handled', hergodic', hperm'⟩ := hapart.actsAsMap
  obtain ⟨t, hsets, -, handled, hergodic, hperm⟩ := h
  obtain rfl := Except.ok.inj (hsets.symm.trans hsets')
  obtain rfl := Except.ok.inj (hergodic.symm.trans hergodic')
  have hlength := (hperm.symm.trans hperm').length_eq
  rw [List.length_map, List.length_map] at hlength
  have hself : firstBindings calls = calls :=
    (firstBindings_sublist calls).eq_of_length hlength.symm
  have hkeys : (calls.map Prod.fst).Nodup := hself ▸ nodup_keys_firstBindings calls
  have hmap : (fun b : κ × α => keySet b.1) = keySet ∘ Prod.fst := rfl
  rw [hmap, ← List.map_map]
  refine hkeys.map_on fun k hk k' hk' heq => ?_
  obtain ⟨b, hb, rfl⟩ := List.mem_map.mp hk
  obtain ⟨c, hc, rfl⟩ := List.mem_map.mp hk'
  exact hapart b hb c hc heq

/-- **The table as a map.** The table is a map, with the first call for each key as its
bindings, if and only if different keys among the calls have different buckets. With every call
as a binding of its own it is one if and only if no two calls have the same bucket. -/
theorem actsAsMap_iff (keySet : κ → Fin len) (calls : List (κ × α)) :
    (ActsAsMap keySet calls (firstBindings calls) ↔ Apart keySet calls) ∧
      (ActsAsMap keySet calls calls ↔ (calls.map fun b => keySet b.1).Nodup) := by
  refine ⟨⟨ActsAsMap.apart, Apart.actsAsMap⟩, ActsAsMap.nodup, fun hnodup => ?_⟩
  have hinj : ∀ b ∈ calls, ∀ c ∈ calls, keySet b.1 = keySet c.1 → b = c := fun b hb c hc heq =>
    List.inj_on_of_nodup_map hnodup hb hc heq
  have hkeys : (calls.map Prod.fst).Nodup :=
    (List.Nodup.of_map _ hnodup).map_on fun b hb c hc heq => hinj b hb c hc (by rw [heq])
  have hmap := Apart.actsAsMap fun b hb c hc heq => by rw [hinj b hb c hc heq]
  rwa [firstBindings_eq_self hkeys] at hmap

/-- Two keys in one bucket: the second one is not found. -/
theorem not_actsAsMap_twoKeys :
    ¬∀ (len : ℕ) (keySet : ℕ → Fin len) (calls : List (ℕ × ℕ)), 1 ≤ len →
      ActsAsMap keySet calls (firstBindings calls) := by
  intro h
  obtain ⟨t, hsets, hsearch, -⟩ := h 1 (fun _ => 0) [(1, 10), (2, 20)] (by decide)
  have ht : t = ⟨[some 0], [⟨10, 1, none⟩, ⟨20, 2, none⟩]⟩ := (Except.ok.inj hsets).symm
  have hfound : some 20 = none := by
    have hsearch2 := hsearch 2
    rw [ht] at hsearch2
    exact (Except.ok.inj hsearch2).symm
  simp at hfound

end Lidas
