import Lidas.Http.Crc32
import Lidas.Rbtree.Accounting

/-!
# Looking up the cache

`file_cache_to_client` stores the record of a file under the checksum of its path; `cache_search`
looks up the checksum of a host and a path. The string that it builds for that is written into an
array without room for the terminator. Nor is the path of the record compared with the string: the
record of another path with the same checksum is a hit. A record is not found if the search, which
takes keys as unsigned, and the insertion disagree about the way, and nothing is ever stored in
`disk_cache_obj`.
-/

namespace Lidas

namespace Cache

open Rbtree

/-- `MEM_CACHE`, `DISK_CACHE` or another value of the argument `type`. -/
inductive CacheType where
  | memCache
  | diskCache
  | other

/-- The key of a path: its CRC-32. `crc32_port` takes it modulo `len`, an argument that `cache.c`
does not pass; `% len` is left out here. -/
def crc32Key (q : List UInt8) : BitVec 32 := (crc32 0 q).toBitVec

/-- `RBT_MEM_CACHE`, in the four bits of the field. -/
def rbtMemCache : BitVec 4 := 23

/-- `sprintf (str, "%s%s", host, query)` into an array of the given size. -/
def sprintfStr (size : ℕ) (host query : List UInt8) : Except Fault (List UInt8) :=
  if host.length + query.length + 1 ≤ size then .ok (host ++ query) else .error .outOfBounds

/-- `cache_search`. The array has `room` bytes more than the two strings are long: none in the
source. -/
def cacheSearch (room fuel : ℕ) (m : Nodes) (memCacheObj diskCacheObj : ℕ) (type : CacheType)
    (host query : List UInt8) : Except Fault ℕ := do
  let str ← sprintfStr (host.length + query.length + room) host query
  match type with
  | .memCache => rbtreeSearch m fuel (crc32Key str) memCacheObj rbtSearch
  | .diskCache => rbtreeSearch m fuel (crc32Key str) diskCacheObj rbtSearch
  | .other => return 0

/-- The binding that `file_cache_to_client` adds for a record of a path. -/
def entry (query : ℕ → List UInt8) (r : ℕ) : Rbtree.Entry := (crc32Key (query r), r, rbtMemCache)

/-- The call of `rbtree_insert` for it. -/
def store (query : ℕ → List UInt8) (fuel r : ℕ) : Call :=
  ⟨fuel, .insert (crc32Key (query r)) r rbtMemCache⟩

/-! ### What is stored -/

/-- A tree with the first bindings, or none. -/
structure Filled (es : List Rbtree.Entry) (s : State) : Prop where
  ok : PoolOk s.heap
  tree : ∃ o, Rooted s.heap s.root o ∧ (∀ t ∈ o, Ordered t) ∧ (bindingsOf o).Perm (firstBindings es)

section Filled

variable {es : List Rbtree.Entry} {s s' : State} {fuel data : ℕ} {key : BitVec 32} {type : BitVec 4}
  {query : ℕ → List UInt8}

theorem Filled.step (h : Filled es s)
    (hstep : Rbtree.step s ⟨fuel, .insert key data type⟩ = some s') :
    Filled (es ++ [(key, data, type)]) s' := by
  obtain ⟨o, hrooted, hord, hbindings⟩ := h.tree
  have hkeys (k : BitVec 32) : k ∈ (bindingsOf o).map Prod.fst ↔ k ∈ es.map Prod.fst :=
    (hbindings.map Prod.fst).mem_iff.trans mem_keys_firstBindings
  obtain ⟨ret, hcall⟩ := exists_of_step_insert hstep
  obtain ⟨a, b, c, rest, t, -, htree, hins⟩ := rbtreeInsert_ok h.ok hrooted hcall
  refine ⟨hins.ok, some t, hins.rooted, ?_⟩
  rw [firstBindings_concat]
  rcases insertTree_ordered hord htree with ⟨-, rfl, hmem⟩ | ⟨-, hnew, hord', hperm⟩
  · rw [keys_eq_map_bindings] at hmem
    rw [if_pos ((hkeys key).mp hmem)]
    exact ⟨hord, hbindings⟩
  · rw [if_neg fun hmem => hnew ((hkeys key).mpr hmem)]
    refine ⟨fun t' ht' => Option.some.inj ht' ▸ hord', hperm.trans ?_⟩
    exact (hbindings.cons _).trans (List.perm_append_singleton _ _).symm

theorem Filled.run {calls : List (ℕ × ℕ)} (h : Filled es s)
    (hrun : Runs.exec Rbtree.step s (calls.map fun c => store query c.1 c.2) = some s') :
    Filled (es ++ calls.map fun c => entry query c.2) s' := by
  induction calls generalizing es s with
  | nil =>
    obtain rfl := Option.some.inj hrun
    rwa [List.map_nil, List.append_nil]
  | cons c calls ih =>
    obtain ⟨s₁, hstep, hrun⟩ := Runs.exec_cons_eq_some.mp hrun
    have hrest := ih (h.step hstep) hrun
    rwa [List.append_assoc] at hrest

/-- The first record that was stored with a checksum is what the tree binds it to. -/
theorem map_bound {t : Tree} {records : List ℕ} (hord : Ordered t)
    (hperm : (bindings t).Perm (firstBindings (records.map (entry query)))) (k : BitVec 32) :
    (bound k t).map NodeVal.data = records.find? fun r => crc32Key (query r) = k := by
  have hfind : ((records.map (entry query)).find? fun e => e.1 = k) =
      (records.find? fun r => crc32Key (query r) = k).map (entry query) := List.find?_map ..
  cases hbound : bound k t with
  | none =>
    have hkey : k ∉ (records.map (entry query)).map Prod.fst := by
      rw [← mem_keys_firstBindings, ← (hperm.map Prod.fst).mem_iff, ← keys_eq_map_bindings]
      exact bound_eq_none.mp hbound
    refine (List.find?_eq_none.mpr fun r hr hk => hkey ?_).symm
    rw [← of_decide_eq_true hk]
    exact List.mem_map_of_mem (List.mem_map_of_mem hr)
  | some v =>
    obtain rfl : v.key = k := by simpa using List.find?_some hbound
    have hmem : v.entry ∈ bindings t := List.mem_map_of_mem ((bound_eq_some hord).mp hbound)
    have hfirst := mem_firstBindings.mp (hperm.mem_iff.mp hmem)
    rw [show v.entry.1 = v.key from rfl, hfind] at hfirst
    obtain ⟨r, hr, heq⟩ := Option.map_eq_some_iff.mp hfirst
    rw [hr, Option.map_some]
    exact congrArg (fun e : Rbtree.Entry => some e.2.1) heq.symm

end Filled

/-! ### The hits -/

/-- Records that have been stored, by calls that return. A call has a bound on its rounds and a
record, and `query` gives the paths of the records. -/
structure Stored where
  heap : Heap
  ok : PoolOk heap
  query : ℕ → List UInt8
  calls : List (ℕ × ℕ)
  ne_zero : ∀ c ∈ calls, c.2 ≠ 0
  state : State
  run : Runs.exec Rbtree.step ⟨0, heap⟩ (calls.map fun c => store query c.1 c.2) = some state

namespace Stored

variable (T : Stored) (room : ℕ) (type : CacheType) (host query : List UInt8)

def records : List ℕ := T.calls.map Prod.snd

/-- The record that has been stored for a path, or `NULL`. -/
def recordOf (path : List UInt8) : ℕ := (T.records.find? fun r => T.query r = path).getD 0

/-- The search returns the record that has been stored for the host and the path, or `NULL`. -/
def Hits : Prop :=
  ∃ fuel, cacheSearch room fuel T.state.heap.node T.state.root 0 type host query =
    .ok (match type with
      | .memCache => T.recordOf (host ++ query)
      | _ => 0)

/-- The first record with the checksum of a path, if there is one, is that of the path, and no key
above it has another sign, or else there is no record of the path. -/
def Matches (path : List UInt8) (t : Tree) : Prop :=
  ∀ r, (T.records.find? fun r => crc32Key (T.query r) = crc32Key path) = some r →
    SameSign (crc32Key path) t ∧ T.query r = path ∨
      ¬SameSign (crc32Key path) t ∧ ∀ r ∈ T.records, T.query r ≠ path

/-- Something has been stored, and the first record with the checksum matches. -/
def Right : Prop :=
  match type with
  | .memCache => ∃ t, Rooted T.state.heap T.state.root (some t) ∧ T.Matches (host ++ query) t
  | .diskCache => False
  | .other => True

variable {T room type host query} {path : List UInt8} {t : Tree} {r : ℕ}

/-- No record is at `NULL`. -/
theorem ne_zero_of_mem (hr : r ∈ T.records) : r ≠ 0 := by
  obtain ⟨c, hc, rfl⟩ := List.mem_map.mp hr
  exact T.ne_zero c hc

/-- `NULL` is returned for a path that no record has. -/
theorem recordOf_eq_zero : T.recordOf path = 0 ↔ ∀ r ∈ T.records, T.query r ≠ path := by
  rw [recordOf]
  cases hfind : T.records.find? fun r => T.query r = path with
  | none => exact iff_of_true rfl fun r hr => by simpa using List.find?_eq_none.mp hfind r hr
  | some r =>
    have hr := List.mem_of_find?_eq_some hfind
    have hpath : T.query r = path := by simpa using List.find?_some hfind
    exact iff_of_false (ne_zero_of_mem hr) fun h => h r hr hpath

/-- The first record with the checksum of a path is that of the path if it has this path. -/
theorem recordOf_eq_iff
    (hfirst : (T.records.find? fun r => crc32Key (T.query r) = crc32Key path) = some r) :
    T.recordOf path = r ↔ T.query r = path := by
  have hr := List.mem_of_find?_eq_some hfirst
  constructor
  · intro hrecord
    rw [recordOf] at hrecord
    cases hfind : T.records.find? fun r => T.query r = path with
    | none =>
      rw [hfind] at hrecord
      exact absurd hrecord.symm (ne_zero_of_mem hr)
    | some r' =>
      rw [hfind] at hrecord
      obtain rfl : r' = r := hrecord
      simpa using List.find?_some hfind
  · intro hpath
    obtain ⟨-, before, after, hsplit, hbefore⟩ := List.find?_eq_some_iff_append.mp hfirst
    have hfind : (T.records.find? fun r => T.query r = path) = some r := by
      refine List.find?_eq_some_iff_append.mpr ⟨by simpa using hpath, before, after, hsplit, ?_⟩
      intro r' hr'
      have hne := hbefore r' hr'
      simp only [Bool.not_eq_true', decide_eq_false_iff_not] at hne ⊢
      exact fun heq => hne (congrArg crc32Key heq)
    rw [recordOf, hfind]
    rfl

/-- What the tree answers is the record of the path exactly if the first record matches. -/
theorem answer_eq_iff (hord : Ordered t)
    (hperm : (bindings t).Perm (firstBindings (T.records.map (entry T.query)))) :
    answer rbtSearch (found (crc32Key path) t) = T.recordOf path ↔ T.Matches path t := by
  have hdata := map_bound hord hperm (crc32Key path)
  -- with keys of one sign the search gets to the first record of the checksum; with another sign
  -- above it, it returns `NULL`
  by_cases hsame : SameSign (crc32Key path) t
  · rw [found_of_sameSign hord hsame]
    cases hbound : bound (crc32Key path) t with
    | none =>
      rw [hbound, Option.map_none] at hdata
      refine iff_of_true (recordOf_eq_zero.mpr fun r hr hpath => ?_).symm fun r hr => ?_
      · exact List.find?_eq_none.mp hdata.symm r hr (decide_eq_true (congrArg crc32Key hpath))
      · rw [← hdata] at hr
        cases hr
    | some v =>
      rw [hbound, Option.map_some] at hdata
      have hanswer : answer rbtSearch (some v) = v.data := rfl
      rw [hanswer, eq_comm, recordOf_eq_iff hdata.symm, Matches, ← hdata]
      constructor
      · rintro hpath r hr
        obtain rfl := Option.some.inj hr
        exact .inl ⟨hsame, hpath⟩
      · exact fun h => ((h v.data rfl).resolve_right fun hnot => hnot.1 hsame).2
  · obtain ⟨hfound, hbound⟩ := found_of_not_sameSign hord hsame
    obtain ⟨v, hv⟩ := Option.ne_none_iff_exists'.mp hbound
    rw [hv, Option.map_some] at hdata
    have hanswer : answer rbtSearch none = 0 := rfl
    rw [hfound, hanswer, eq_comm, recordOf_eq_zero, Matches, ← hdata]
    constructor
    · exact fun hnone r _ => .inr ⟨hsame, hnone⟩
    · exact fun h => ((h v.data rfl).resolve_left fun hboth => hsame hboth.1).2

/-- The tree has the first record of each checksum. -/
theorem filled (T : Stored) : Filled (T.records.map (entry T.query)) T.state := by
  have hempty : Filled [] ⟨0, T.heap⟩ :=
    ⟨T.ok, none, rfl, fun t ht => (by cases ht), List.Perm.refl _⟩
  have hrun := hempty.run T.run
  rw [records, List.map_map]
  exact hrun

/-- Without room for the terminator there is no hit. -/
theorem not_hits_zero : ¬T.Hits 0 type host query := by
  rintro ⟨fuel, hcall⟩
  have hroom : ¬host.length + query.length + 1 ≤ host.length + query.length + 0 :=
    Nat.not_succ_le_self _
  rw [cacheSearch, sprintfStr, if_neg hroom] at hcall
  cases hcall

/-- The search in the tree that has been stored. -/
theorem search_iff : (∃ fuel, rbtreeSearch T.state.heap.node fuel (crc32Key path) T.state.root
      rbtSearch = .ok (T.recordOf path)) ↔
    ∃ t, Rooted T.state.heap T.state.root (some t) ∧ T.Matches path t := by
  obtain ⟨o, hrooted, hord, hperm⟩ := T.filled.tree
  cases o with
  | none =>
    have hroot : T.state.root = 0 := hrooted
    refine iff_of_false ?_ fun ⟨t, ht, _⟩ => Rooted.root_ne ht hroot
    rintro ⟨fuel, hcall⟩
    rw [hroot] at hcall
    cases fuel <;> cases hcall
  | some t =>
    have hanswer : answer rbtSearch (found (crc32Key path) t) = T.recordOf path ↔
        T.Matches path t := answer_eq_iff (hord t rfl) hperm
    constructor
    · rintro ⟨fuel, hcall⟩
      refine ⟨t, hrooted, hanswer.mp ?_⟩
      rw [hrooted.1] at hcall
      rcases rbtreeSearch_spec (crc32Key path) hrooted.2.1 fuel rbtSearch with hok | ⟨herror, -⟩
      · exact Except.ok.inj (hok.symm.trans hcall)
      · rw [hcall] at herror
        cases herror
    · rintro ⟨t', hrooted', hmatches⟩
      obtain rfl := hrooted.unique hrooted'
      refine ⟨t.height + 1, ?_⟩
      rw [hrooted.1, ← hanswer.mpr hmatches]
      exact (rbtreeSearch_spec _ hrooted.2.1 _ _).resolve_right fun h => Nat.not_succ_le_self _ h.2

/-- With room for the terminator there is one if the first record with the checksum matches. -/
theorem hits_succ_iff : T.Hits (room + 1) type host query ↔ T.Right type host query := by
  have hroom : host.length + query.length + 1 ≤ host.length + query.length + (room + 1) := by omega
  cases type with
  | memCache =>
    refine Iff.trans (exists_congr fun fuel => ?_) search_iff
    rw [cacheSearch, sprintfStr, if_pos hroom, ok_bind]
  | diskCache =>
    refine iff_of_false ?_ id
    rintro ⟨fuel, hcall⟩
    rw [cacheSearch, sprintfStr, if_pos hroom, ok_bind] at hcall
    cases fuel <;> cases hcall
  | other =>
    refine iff_of_true ⟨0, ?_⟩ trivial
    rw [cacheSearch, sprintfStr, if_pos hroom, ok_bind]
    rfl

/-- There is no hit as it stands; with room for the terminator there is one if something has been
stored, and the first record with the checksum matches. -/
theorem hits_iff (T : Stored) (type : CacheType) (host query : List UInt8) :
    ¬T.Hits 0 type host query ∧
      ∀ room, T.Hits (room + 1) type host query ↔ T.Right type host query :=
  ⟨not_hits_zero, fun _ => hits_succ_iff⟩

/-- Three free blocks, and nothing stored in them yet. -/
def threeBlocks : Heap := ⟨fun _ => RbtreeT.zero, ⟨[1, 2, 3], ∅⟩, 4, 5⟩

/-- A record for one path is a hit for another one with the same checksum. -/
theorem exists_collision (room : ℕ) : ∃ T : Stored, T.records = [9] ∧
    T.query 9 = ascii "plumless" ∧ ¬T.Hits (room + 1) .memCache (ascii "buck") (ascii "eroo") := by
  have hok : PoolOk threeBlocks := ⟨⟨by decide, by decide⟩, by decide, by decide, by decide⟩
  obtain ⟨m, hcall, hins⟩ := rbtreeInsert_null (crc32Key (ascii "plumless")) 9 rbtMemCache hok
    (rfl : threeBlocks.pool.free = [1, 2, 3]) 1
  let T : Stored := {
    heap := threeBlocks, ok := hok, query := fun _ => ascii "plumless", calls := [(1, 9)]
    ne_zero := by simp
    state := ⟨1, m⟩
    run := by
      rw [List.map_cons, List.map_nil, Runs.exec_cons, store, Rbtree.step]
      dsimp only
      rw [hcall]
      rfl }
  refine ⟨T, rfl, rfl, fun hhits => ?_⟩
  obtain ⟨t, hrooted, hmatches⟩ := hits_succ_iff.mp hhits
  have hkey : crc32Key (ascii "plumless") = crc32Key (ascii "buck" ++ ascii "eroo") := by
    decide +kernel
  have hne : ascii "plumless" ≠ ascii "buck" ++ ascii "eroo" := by decide +kernel
  have hfirst : (T.records.find? fun r => crc32Key (T.query r) =
      crc32Key (ascii "buck" ++ ascii "eroo")) = some 9 :=
    List.find?_cons_of_pos (decide_eq_true hkey)
  obtain rfl := hins.rooted.unique hrooted
  rcases hmatches 9 hfirst with ⟨-, hpath⟩ | ⟨hnot, -⟩
  · exact hne hpath
  · exact hnot ⟨fun h => (by rcases h with h | h <;> cases h), trivial, trivial⟩

theorem not_forall_hits :
    (¬∀ (T : Stored) (type : CacheType) (host query : List UInt8), T.Hits 0 type host query) ∧
      ¬∀ (T : Stored) (type : CacheType) (host query : List UInt8), T.Hits 1 type host query := by
  obtain ⟨T, -, -, hnot⟩ := exists_collision 0
  exact ⟨fun h => not_hits_zero (h T .other [] []), fun h => hnot (h T _ _ _)⟩

end Stored

end Cache

end Lidas
