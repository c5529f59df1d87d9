import Lidas.Memory.Pages

/-!
# Destroying a per-connection pool

`mem_pool_destroy` frees the areas of the large requests, which it finds by following the records
from `extra` on to a null pointer, the pages behind the first one, and the page itself. What it
reads and frees is a trace.

`mem_pool_add` links a new record and never sets `next` in it, so the last record has there what
`malloc` left in the page. The walk ends behind it exactly if this is a null pointer
(`destroysRight_iff`).
-/

namespace Lidas

namespace Pages

/-- A read of a pointer, or a call of `free`. -/
inductive Access where
  | read (a : ℕ)
  | free (p : ℕ)

/-- The pointer that is freed. -/
def Access.freed : Access → Option ℕ
  | .read _ => none
  | .free p => some p

/-- The loop of `mem_pool_destroy` over the records, of no more than the given number of rounds. -/
def freeLarge (m : Mem) : ℕ → ℕ → Except Fault (List Access)
  | 0, _ => .error .diverges
  | fuel + 1, s =>
    if s = 0 then .ok []
    else do
      let rest ← freeLarge m fuel (m.load64 (s + 16))
      return .read s :: .free (m.load64 s) :: .read (s + 16) :: rest

/-- `mem_pool_destroy`. -/
def memPoolDestroy (m : Mem) : ℕ → ℕ → Except Fault (List Access)
  | 0, _ => .error .diverges
  | fuel + 1, p => do
    let large ← freeLarge m fuel (m.load64 (p + 24))
    let trace := .read (p + 24) :: large ++ [.read (p + 16)]
    if m.load64 (p + 16) = 0 then return trace ++ [.free p]
    else do
      let pages ← memPoolDestroy m fuel (m.load64 (p + 16))
      return trace ++ pages ++ [.free p]

/-- A read behind a call of `free` is not of the region that was freed. -/
def Unfreed (regions : List (ℕ × ℕ)) : Access → Access → Prop
  | .free p, .read a => ∀ q ∈ regions, q.1 = p → Apart (a, 8) q
  | _, _ => True

namespace Calls

variable (c : Calls)

/-- What `malloc` has returned: the page, and the areas. -/
def regions : List (ℕ × ℕ) := (c.page, pageSiz) :: areas c.requests

/-- All that `malloc` has returned is freed, once, nothing else is, and nothing is read that has
been freed. -/
structure FreesOnce (trace : List Access) : Prop where
  nodup : (trace.filterMap Access.freed).Nodup
  mem_iff : ∀ p, p ∈ trace.filterMap Access.freed ↔ ∃ q ∈ c.regions, q.1 = p
  unfreed : trace.Pairwise (Unfreed c.regions)

/-- After the calls, if they return, the pool can be destroyed. -/
def DestroysRight (m : Mem) : Prop :=
  ∀ fuel rets m', memPoolAllocs fuel c.page c.requests (memPoolCreat m c.page) = .ok (rets, m') →
    ∃ fuel' trace, memPoolDestroy m' fuel' c.page = .ok trace ∧ c.FreesOnce trace

/-- If the calls return, `malloc` has left a null pointer where `next` of the last record is. -/
def Terminated (m : Mem) : Prop :=
  cost c.requests ≤ poolSiz →
    ∀ n ∈ (recordsAt c.page 0 c.requests).getLast?, m.load64 (n + 16) = 0

end Calls

/-! ### The walk over the records -/

/-- What the loop does for records. -/
def walk (m : Mem) (nodes : List ℕ) : List Access :=
  nodes.flatMap fun n => [.read n, .free (m.load64 n), .read (n + 16)]

section Walk

variable {m : Mem} {n g fuel : ℕ} {nodes : List ℕ} {a : ℕ × ℕ} {as : List (ℕ × ℕ)}
  {trace : List Access}

theorem freeLarge_zero : freeLarge m (fuel + 1) 0 = .ok [] := by rw [freeLarge, if_pos rfl]

theorem freeLarge_succ (hn : n ≠ 0) :
    freeLarge m (fuel + 1) n = .ok trace ↔
      ∃ rest, freeLarge m fuel (m.load64 (n + 16)) = .ok rest ∧ trace = walk m [n] ++ rest := by
  rw [freeLarge, if_neg hn, bind_eq_ok]
  constructor
  · rintro ⟨rest, hrest, heq⟩
    exact ⟨rest, hrest, (Except.ok.inj heq).symm⟩
  · rintro ⟨rest, hrest, rfl⟩
    exact ⟨rest, hrest, rfl⟩

/-- The loop goes through the records and on from what is in `next` of the last one. -/
theorem Chained.freeLarge_iff (h : Chained m nodes as) (hnull : ∀ n ∈ nodes, n ≠ 0)
    (hlast : ∀ n ∈ nodes.getLast?, m.load64 (n + 16) = g) :
    (∃ fuel, freeLarge m fuel (nodes.headD g) = .ok trace) ↔
      ∃ fuel rest, freeLarge m fuel g = .ok rest ∧ trace = walk m nodes ++ rest := by
  induction nodes generalizing as trace with
  | nil =>
    constructor
    · rintro ⟨fuel, hwalk⟩
      exact ⟨fuel, trace, hwalk, rfl⟩
    · rintro ⟨fuel, rest, hwalk, rfl⟩
      exact ⟨fuel, hwalk⟩
  | cons n nodes ih => cases as with
    | nil => cases h
    | cons a as =>
      have hn := hnull n List.mem_cons_self
      -- the last node of the list goes on with the garbage `g`
      have hnext : m.load64 (n + 16) = nodes.headD g := by
        cases nodes with
        | nil => exact hlast n rfl
        | cons v nodes => exact h.2.2.1 v rfl
      have hlast' : ∀ l ∈ nodes.getLast?, m.load64 (l + 16) = g := by
        intro l hl
        obtain ⟨v, vs, rfl⟩ := List.exists_cons_of_ne_nil
          (List.ne_nil_of_mem (List.mem_of_getLast? hl))
        exact hlast l (by rwa [List.getLast?_cons_cons])
      have hnull' : ∀ v ∈ nodes, v ≠ 0 := fun v hv => hnull v (List.mem_cons_of_mem n hv)
      constructor
      · rintro ⟨fuel, hwalk⟩
        cases fuel with
        | zero => cases hwalk
        | succ fuel =>
          obtain ⟨rest, hrest, rfl⟩ := (freeLarge_succ hn).mp hwalk
          rw [hnext] at hrest
          obtain ⟨fuel', rest', hrest', rfl⟩ := (ih h.2.2.2 hnull' hlast').mp ⟨fuel, hrest⟩
          exact ⟨fuel', rest', hrest', rfl⟩
      · rintro ⟨fuel, rest, hrest, rfl⟩
        obtain ⟨fuel', hwalk⟩ := (ih h.2.2.2 hnull' hlast').mpr ⟨fuel, rest, hrest, rfl⟩
        refine ⟨fuel' + 1, (freeLarge_succ hn).mpr ⟨_, ?_, rfl⟩⟩
        rw [hnext]
        exact hwalk

/-- The areas of the records are freed. -/
theorem Chained.freed_walk (h : Chained m nodes as) :
    (walk m nodes).filterMap Access.freed = as.map Prod.fst := by
  induction nodes generalizing as with
  | nil => cases as with
    | nil => rfl
    | cons a as => cases h
  | cons n nodes ih => cases as with
    | nil => cases h
    | cons a as =>
      have hwalk : walk m (n :: nodes) =
          .read n :: .free (m.load64 n) :: .read (n + 16) :: walk m nodes := rfl
      rw [hwalk, List.map_cons, ← ih h.2.2.2, ← h.1]
      rfl

/-- What is done for a page, between whose reads the records are walked. -/
def pageTrace (page : ℕ) (large : List Access) : List Access :=
  .read (page + 24) :: large ++ [.read (page + 16)] ++ [.free page]

/-- With only one page, its records are walked and it is freed. -/
theorem memPoolDestroy_iff {page : ℕ} (hpages : m.load64 (page + 16) = 0) :
    (∃ fuel, memPoolDestroy m fuel page = .ok trace) ↔
      ∃ large, (∃ fuel, freeLarge m fuel (m.load64 (page + 24)) = .ok large) ∧
        trace = pageTrace page large := by
  constructor
  · rintro ⟨fuel, hdestroy⟩
    cases fuel with
    | zero => cases hdestroy
    | succ fuel =>
      rw [memPoolDestroy] at hdestroy
      obtain ⟨large, hlarge, hrest⟩ := bind_eq_ok.mp hdestroy
      rw [if_pos hpages] at hrest
      exact ⟨large, ⟨fuel, hlarge⟩, (Except.ok.inj hrest).symm⟩
  · rintro ⟨large, ⟨fuel, hlarge⟩, rfl⟩
    refine ⟨fuel + 1, ?_⟩
    rw [memPoolDestroy, hlarge, ok_bind, if_pos hpages]
    rfl

end Walk

/-! ### Destruction -/

namespace Calls

variable (c : Calls) {m m' : Mem} {fuel : ℕ} {rets : List ℕ}

/-- Calls that return have laid out the page. -/
theorem laid_of_memPoolAllocs
    (h : memPoolAllocs fuel c.page c.requests (memPoolCreat m c.page) = .ok (rets, m')) :
    cost c.requests ≤ poolSiz ∧
      Laid m m' c.page (cost c.requests) (recordsAt c.page 0 c.requests) (areas c.requests) := by
  have hfits : cost c.requests ≤ poolSiz :=
    not_lt.mp fun hfull => c.memPoolAllocs_of_lt hfull fuel _ h
  refine ⟨hfits, ?_⟩
  cases fuel with
  | zero =>
    have hnil := memPoolAllocs_zero h
    rw [hnil] at h ⊢
    obtain ⟨-, rfl⟩ := Prod.mk.inj (Except.ok.inj h)
    exact laid_memPoolCreat c.page_lt
  | succ fuel =>
    obtain ⟨m₁, hallocs, hlaid⟩ := c.memPoolAllocs_of_le (m := m) hfits fuel
    rw [h] at hallocs
    obtain ⟨-, rfl⟩ := Prod.mk.inj (Except.ok.inj hallocs)
    exact hlaid

theorem regions_pos : ∀ q ∈ c.regions, 0 < q.2 := by
  refine List.forall_mem_cons.mpr ⟨Nat.succ_pos 4095, fun q hq => ?_⟩
  obtain ⟨r, hr, rfl⟩ := List.mem_map.mp hq
  have hlarge : poolSiz < r.size := of_decide_eq_true (List.mem_filter.mp hr).2
  exact lt_of_le_of_lt (Nat.zero_le _) hlarge

/-- The areas and the page are different. -/
theorem nodup_regions : (c.regions.map Prod.fst).Nodup := by
  refine List.pairwise_map.mpr (c.apart.imp_of_mem fun {q q'} hq hq' hapart heq => ?_)
  have := c.regions_pos q hq
  have := c.regions_pos q' hq'
  rw [Apart] at hapart
  omega

/-- A read in the page, or a call of `free` for an area. -/
def Inner : Access → Prop
  | .read a => c.page ≤ a ∧ a + 8 ≤ c.page + pageSiz
  | .free p => p ∈ (areas c.requests).map Prod.fst

/-- The areas are outside the page. -/
theorem Inner.unfreed {x y : Access} (hx : c.Inner x) (hy : c.Inner y) : Unfreed c.regions x y := by
  cases x with
  | read => trivial
  | free p => cases y with
    | free => trivial
    | read a =>
      have hnodup := c.nodup_regions
      have hapart := c.apart
      rw [regions, List.map_cons, List.nodup_cons] at hnodup
      rw [List.pairwise_cons] at hapart
      intro q hq hqp
      rcases List.mem_cons.mp hq with rfl | hq
      · exact absurd (hqp ▸ hx) hnodup.1
      · have hpage := hapart.1 q hq
        rw [Inner] at hy
        rw [Apart] at hpage ⊢
        dsimp only at hpage ⊢
        omega

section Page

variable (h : Laid m m' c.page (cost c.requests) (recordsAt c.page 0 c.requests)
  (areas c.requests))
include h

theorem inner_walk : ∀ x ∈ walk m' (recordsAt c.page 0 c.requests), c.Inner x := by
  obtain ⟨hhead, hlarge, hpage, hpool⟩ := sizes
  intro x hx
  have hfreed : ∀ p, x = .free p → p ∈ (areas c.requests).map Prod.fst := by
    rintro p rfl
    rw [← h.chained.freed_walk]
    exact List.mem_filterMap.mpr ⟨_, hx, rfl⟩
  obtain ⟨n, hn, hmem⟩ := List.mem_flatMap.mp hx
  have hused := h.used_le
  have hinside := h.inside n hn
  simp only [List.mem_cons, List.not_mem_nil, or_false] at hmem
  rcases hmem with rfl | rfl | rfl
  · exact ⟨by omega, by omega⟩
  · exact hfreed _ rfl
  · exact ⟨by omega, by omega⟩

/-- What is freed when the walk goes on with `rest` behind the records. -/
theorem freed_pageTrace (rest : List Access) :
    (pageTrace c.page (walk m' (recordsAt c.page 0 c.requests) ++ rest)).filterMap Access.freed =
      (areas c.requests).map Prod.fst ++ rest.filterMap Access.freed ++ [c.page] := by
  rw [pageTrace, List.filterMap_append, List.filterMap_append, List.filterMap_cons,
    List.filterMap_append, h.chained.freed_walk]
  simp [Access.freed]

/-- The walk that ends behind the records frees everything once. -/
theorem freesOnce_of_null :
    c.FreesOnce (pageTrace c.page (walk m' (recordsAt c.page 0 c.requests))) := by
  have hfreed := c.freed_pageTrace h []
  have hnodup := c.nodup_regions
  rw [regions, List.map_cons] at hnodup
  simp only [List.filterMap_nil, List.append_nil] at hfreed
  refine ⟨?_, fun p => ?_, ?_⟩
  · rw [hfreed]
    exact (List.perm_append_singleton _ _).nodup_iff.mpr hnodup
  · rw [hfreed, regions]
    simp [or_comm, eq_comm]
  · obtain ⟨-, -, hpage, -⟩ := sizes
    have hinner : ∀ x ∈ .read (c.page + 24) :: walk m' (recordsAt c.page 0 c.requests) ++
        [Access.read (c.page + 16)], c.Inner x := by
      rw [List.forall_mem_append, List.forall_mem_cons, List.forall_mem_singleton]
      exact ⟨⟨⟨by omega, by omega⟩, c.inner_walk h⟩, ⟨by omega, by omega⟩⟩
    rw [pageTrace, List.pairwise_append]
    refine ⟨List.pairwise_of_forall_mem_list fun x hx y hy =>
      Inner.unfreed c (hinner x hx) (hinner y hy), List.pairwise_singleton _ _, fun x _ y hy => ?_⟩
    rw [List.mem_singleton.mp hy]
    cases x <;> trivial

/-- The walk that goes on behind the records frees something else, or something twice. -/
theorem not_freesOnce_of_walk (n : ℕ) (rest : List Access) :
    ¬c.FreesOnce
      (pageTrace c.page (walk m' (recordsAt c.page 0 c.requests) ++ (walk m' [n] ++ rest))) := by
  rintro ⟨hnodup, hmem, -⟩
  have hwalk : (walk m' [n] ++ rest).filterMap Access.freed =
      m'.load64 n :: rest.filterMap Access.freed := rfl
  rw [c.freed_pageTrace h, hwalk] at hnodup hmem
  rw [List.nodup_append, List.nodup_append] at hnodup
  obtain ⟨⟨-, -, hareas⟩, -, hpage⟩ := hnodup
  obtain ⟨q, hq, hqn⟩ := (hmem (m'.load64 n)).mp (by simp)
  rcases List.mem_cons.mp hq with rfl | hq
  · exact hpage (m'.load64 n) (by simp) c.page (by simp) hqn.symm
  · exact hareas q.1 (List.mem_map_of_mem hq) (m'.load64 n) List.mem_cons_self hqn

/-- What is in `next` of the last record, where the walk goes on. -/
theorem exists_next :
    ∃ g, (∀ n ∈ (recordsAt c.page 0 c.requests).getLast?, m'.load64 (n + 16) = g) ∧
      m'.load64 (c.page + 24) = (recordsAt c.page 0 c.requests).headD g ∧
      ((∀ n ∈ (recordsAt c.page 0 c.requests).getLast?, m.load64 (n + 16) = 0) ↔ g = 0) := by
  have hextra := h.extra
  have hlast := h.last
  cases hl : (recordsAt c.page 0 c.requests).getLast? with
  | none =>
    rw [List.getLast?_eq_none_iff.mp hl] at hextra ⊢
    exact ⟨0, (fun n hn => by cases hn), hextra, iff_of_true (fun n hn => by cases hn) rfl⟩
  | some l =>
    obtain ⟨v, vs, hcons⟩ := List.exists_cons_of_ne_nil
      (List.ne_nil_of_mem (List.mem_of_getLast? hl))
    rw [hcons, List.headD_cons] at hextra
    refine ⟨m'.load64 (l + 16), fun n hn => by rw [Option.some.inj hn], ?_, ?_⟩
    · rw [hextra, hcons, List.headD_cons]
    · rw [hlast l hl]
      simp

/-- The destruction of a page that is laid out. -/
theorem destroys_iff :
    (∃ fuel trace, memPoolDestroy m' fuel c.page = .ok trace ∧ c.FreesOnce trace) ↔
      ∀ n ∈ (recordsAt c.page 0 c.requests).getLast?, m.load64 (n + 16) = 0 := by
  obtain ⟨g, hlast, hextra, hzero⟩ := c.exists_next h
  have hnull := h.ne_null c.page_ne_null
  rw [hzero]
  constructor
  · rintro ⟨fuel, trace, hdestroy, hfrees⟩
    obtain ⟨large, hlarge, rfl⟩ := (memPoolDestroy_iff h.next).mp ⟨fuel, hdestroy⟩
    rw [hextra, h.chained.freeLarge_iff hnull hlast] at hlarge
    obtain ⟨fuel', rest, hrest, rfl⟩ := hlarge
    by_contra hg
    cases fuel' with
    | zero => cases hrest
    | succ fuel' =>
      obtain ⟨rest', -, rfl⟩ := (freeLarge_succ hg).mp hrest
      exact c.not_freesOnce_of_walk h g rest' hfrees
  · rintro rfl
    obtain ⟨fuel, hwalk⟩ := (h.chained.freeLarge_iff hnull hlast).mpr
      ⟨1, [], freeLarge_zero, (List.append_nil _).symm⟩
    rw [← hextra] at hwalk
    obtain ⟨fuel', hdestroy⟩ := (memPoolDestroy_iff h.next).mpr ⟨_, ⟨fuel, hwalk⟩, rfl⟩
    exact ⟨fuel', _, hdestroy, c.freesOnce_of_null h⟩

end Page

/-- **Destruction** is right exactly if `malloc` has left a null pointer behind the last record. -/
theorem destroysRight_iff (m : Mem) : c.DestroysRight m ↔ c.Terminated m := by
  constructor
  · intro h hfits
    obtain ⟨m', hallocs, hlaid⟩ := c.memPoolAllocs_of_le (m := m) hfits 0
    exact (c.destroys_iff hlaid).mp (h 1 _ m' hallocs)
  · intro h fuel rets m' hallocs
    obtain ⟨hfits, hlaid⟩ := c.laid_of_memPoolAllocs hallocs
    exact (c.destroys_iff hlaid).mpr (h hfits)

end Calls

/-- A large request. -/
def oneArea : Calls where
  page := 4096
  requests := [⟨5000, 8192⟩]
  apart := by decide
  nonnull := by decide
  in_memory := by decide

/-- The bytes of the page are not `0`. -/
theorem not_destroysRight_oneArea : ¬∀ (c : Calls) (m : Mem), c.DestroysRight m := by
  intro h
  obtain ⟨m', hallocs, hlaid⟩ := oneArea.memPoolAllocs_of_le (m := fun _ => 1) (by decide) 0
  have hnull := (oneArea.destroys_iff hlaid).mp (h oneArea _ 1 _ m' hallocs) 4136 rfl
  exact absurd hnull (by decide)

end Pages

end Lidas
