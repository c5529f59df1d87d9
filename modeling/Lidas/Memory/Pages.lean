import Lidas.Lib.ByteMem
import Lidas.Memory.Pool

/-!
# The links of a per-connection pool

The pool of `Memory.Pool` in byte-addressed memory. A `struct mem_pool_head` has `start` at offset
0, `end` at 8, `next` at 16, `extra` at 24 and `tail` at 32; a `struct mem_pool_large` has `start`
at 0, `end` at 8 and `next` at 16. What `malloc` returns is part of a request, and its bytes are
those that the memory has there.

The page that is made with the pool remains the only one, so that the requests are served as long as
they fit it, a large one with its `struct mem_pool_large` (`servesAll_iff`), and so it is without
the links (`pool_memPoolAllocs_iff`).
-/

namespace Lidas

namespace Pages

/-- `mem_pool_creat`, with `h` what `malloc` returned. -/
def memPoolCreat (m : Mem) (h : ℕ) : Mem :=
  let m := (m.store64 h (h + sizeofMemPoolHead)).store64 (h + 8) (h + pageSiz)
  ((m.store64 (h + 16) 0).store64 (h + 24) 0).store64 (h + 32) 0

/-- The `for` loop of `mem_pool_alloc`, of no more than the given number of rounds: the page with
enough space, or `NULL`. -/
def browse (m : Mem) (size : ℕ) : ℕ → ℕ → Except Fault ℕ
  | 0, _ => .error .diverges
  | fuel + 1, p =>
    if p = 0 then .ok 0
    else if size ≤ (m.load64 (p + 8) + 2 ^ 64 - m.load64 p) % 2 ^ 64 then .ok p
    else browse m size fuel (m.load64 (p + 16))

/-- `mem_pool_alloc` for a size that fits a page: the pointer returned, and the memory. -/
def pageAlloc (fuel : ℕ) (m : Mem) (pool size : ℕ) : Except Fault (ℕ × Mem) := do
  let p ← browse m size fuel pool
  -- `p->next = new`
  if p = 0 then .error .nullDeref
  else return (m.load64 p, m.store64 p (m.load64 p + size))

/-- The two branches of `mem_pool_add`, with the record at `new`. -/
def link (m : Mem) (pool new : ℕ) : Mem :=
  if m.load64 (pool + 24) = 0 then (m.store64 (pool + 24) new).store64 (pool + 32) new
  else
    let m := m.store64 (m.load64 (pool + 32) + 16) new
    m.store64 (pool + 32) (m.load64 (m.load64 (pool + 32) + 16))

/-- `mem_pool_add`. -/
def memPoolAdd (fuel : ℕ) (m : Mem) (pool p size : ℕ) : Except Fault Mem := do
  let (new, m) ← pageAlloc fuel m pool sizeofMemPoolLarge
  return ((link m pool new).store64 new p).store64 (new + 8) (p + size)

/-- A call of `mem_pool_alloc`; `area` is what `malloc` returns if the size is a large one. -/
structure Request where
  size : ℕ
  area : ℕ

def Request.Large (r : Request) : Prop := poolSiz < r.size

instance (r : Request) : Decidable r.Large := inferInstanceAs (Decidable (_ < _))

/-- `mem_pool_alloc`: the pointer returned, and the memory. -/
def memPoolAlloc (fuel : ℕ) (m : Mem) (pool : ℕ) (r : Request) : Except Fault (ℕ × Mem) :=
  if r.Large then do
    let m ← memPoolAdd fuel m pool r.area r.size
    return (r.area, m)
  else pageAlloc fuel m pool r.size

/-- Calls of `mem_pool_alloc`, one after the other: the pointers returned, and the memory. -/
def memPoolAllocs (fuel pool : ℕ) : List Request → Mem → Except Fault (List ℕ × Mem)
  | [], m => .ok ([], m)
  | r :: rs, m => do
    let (ret, m) ← memPoolAlloc fuel m pool r
    let (rets, m) ← memPoolAllocs fuel pool rs m
    return (ret :: rets, m)

/-! ### What is returned -/

/-- The areas of the large requests, each with its size. -/
def areas (rs : List Request) : List (ℕ × ℕ) :=
  (rs.filter fun r => decide r.Large).map fun r => (r.area, r.size)

/-- Two regions have no byte in common. -/
def Apart (a b : ℕ × ℕ) : Prop := a.1 + a.2 ≤ b.1 ∨ b.1 + b.2 ≤ a.1

instance (a b : ℕ × ℕ) : Decidable (Apart a b) := inferInstanceAs (Decidable (_ ∨ _))

/-- A page and the requests made to its pool; what `malloc` returns is fresh. -/
structure Calls where
  page : ℕ
  requests : List Request
  apart : ((page, pageSiz) :: areas requests).Pairwise Apart
  nonnull : ∀ a ∈ (page, pageSiz) :: areas requests, a.1 ≠ 0
  in_memory : ∀ a ∈ (page, pageSiz) :: areas requests, a.1 + a.2 < 2 ^ 64

/-- From the record at `n` on, the records are those of the given areas. -/
def Recorded (m : Mem) : ℕ → List (ℕ × ℕ) → Prop
  | _, [] => True
  | n, a :: as => n ≠ 0 ∧ m.load64 n = a.1 ∧ m.load64 (n + 8) = a.1 + a.2 ∧
    Recorded m (m.load64 (n + 16)) as

/-- The pointer is to the area of a large request, or to as many bytes of the page behind its
header. -/
def Fits (page : ℕ) (r : Request) (ret : ℕ) : Prop :=
  if r.Large then ret = r.area
  else page + sizeofMemPoolHead ≤ ret ∧ ret + r.size ≤ page + pageSiz

/-- The calls return, each a region of its own, and the large areas are recorded. -/
def Calls.ServesAll (c : Calls) (m : Mem) : Prop :=
  ∃ fuel rets m', memPoolAllocs fuel c.page c.requests (memPoolCreat m c.page) = .ok (rets, m') ∧
    List.Forall₂ (Fits c.page) c.requests rets ∧
    (rets.zip (c.requests.map Request.size)).Pairwise Apart ∧
    Recorded m' (m'.load64 (c.page + 24)) (areas c.requests)

/-- What a request takes of the page. -/
def Request.cost (r : Request) : ℕ := if r.Large then sizeofMemPoolLarge else r.size

/-- What requests take of the page. -/
def cost (rs : List Request) : ℕ := (rs.map Request.cost).sum

/-! ### The page -/

/-- The records at the given addresses are those of the given areas, each linked to the next one. -/
def Chained (m : Mem) : List ℕ → List (ℕ × ℕ) → Prop
  | [], [] => True
  | n :: ns, a :: as => m.load64 n = a.1 ∧ m.load64 (n + 8) = a.1 + a.2 ∧
    (∀ n' ∈ ns.head?, m.load64 (n + 16) = n') ∧ Chained m ns as
  | _, _ => False

/-- `used` bytes of the page are taken, the records `nodes` are those of the areas, and what is free
has the bytes of `m₀`. -/
structure Laid (m₀ m : Mem) (page used : ℕ) (nodes : List ℕ) (as : List (ℕ × ℕ)) : Prop where
  used_le : used ≤ poolSiz
  start : m.load64 page = page + sizeofMemPoolHead + used
  end_eq : m.load64 (page + 8) = page + pageSiz
  next : m.load64 (page + 16) = 0
  extra : m.load64 (page + 24) = nodes.headD 0
  tail : m.load64 (page + 32) = nodes.getLast?.getD 0
  chained : Chained m nodes as
  inside : ∀ n ∈ nodes, page + sizeofMemPoolHead ≤ n ∧
    n + sizeofMemPoolLarge ≤ page + sizeofMemPoolHead + used
  sorted : nodes.Pairwise fun n n' => n + sizeofMemPoolLarge ≤ n'
  last : ∀ n ∈ nodes.getLast?, m.load64 (n + 16) = m₀.load64 (n + 16)
  free : ∀ x, page + sizeofMemPoolHead + used ≤ x → x < page + pageSiz → m x = m₀ x

section Page

variable {m₀ m m' : Mem} {page used size area fuel n : ℕ} {nodes : List ℕ} {a : ℕ × ℕ}
  {as : List (ℕ × ℕ)} {r : Request} {rs : List Request}

/-- The sizes of the structs and of a page. -/
theorem sizes : sizeofMemPoolHead = 40 ∧ sizeofMemPoolLarge = 24 ∧ pageSiz = 4096 ∧
    poolSiz = 4056 := ⟨rfl, rfl, rfl, rfl⟩

/-- The records stay when none of them is written. -/
theorem Chained.congr (h : Chained m nodes as)
    (hsame : ∀ n ∈ nodes, m'.load64 n = m.load64 n ∧ m'.load64 (n + 8) = m.load64 (n + 8) ∧
      m'.load64 (n + 16) = m.load64 (n + 16)) : Chained m' nodes as := by
  induction nodes generalizing as with
  | nil => cases as with
    | nil => trivial
    | cons a as => cases h
  | cons n nodes ih => cases as with
    | nil => cases h
    | cons a as =>
      obtain ⟨hstart, hend, hnext⟩ := hsame n List.mem_cons_self
      refine ⟨hstart.trans h.1, hend.trans h.2.1, fun n' hn' => hnext.trans (h.2.2.1 n' hn'), ?_⟩
      exact ih h.2.2.2 fun v hv => hsame v (List.mem_cons_of_mem n hv)

/-- A record is linked behind the last one. -/
theorem Chained.append (h : Chained m nodes as)
    (hfields : ∀ n ∈ nodes, m'.load64 n = m.load64 n ∧ m'.load64 (n + 8) = m.load64 (n + 8))
    (hlinks : ∀ n ∈ nodes, n ∉ nodes.getLast? → m'.load64 (n + 16) = m.load64 (n + 16))
    (hlast : ∀ l ∈ nodes.getLast?, m'.load64 (l + 16) = n) (hnodup : nodes.Nodup)
    (hstart : m'.load64 n = a.1) (hend : m'.load64 (n + 8) = a.1 + a.2) :
    Chained m' (nodes ++ [n]) (as ++ [a]) := by
  induction nodes generalizing as with
  | nil => cases as with
    | nil => exact ⟨hstart, hend, (fun _ hn => by cases hn), trivial⟩
    | cons a as => cases h
  | cons v nodes ih => cases as with
    | nil => cases h
    | cons b as =>
      obtain ⟨hv, hnodup⟩ := List.nodup_cons.mp hnodup
      obtain ⟨hvstart, hvend⟩ := hfields v List.mem_cons_self
      have hgrow : ∀ w ∈ nodes, w ∉ nodes.getLast? → w ∉ (v :: nodes).getLast? := by
        intro w hw hnot
        obtain ⟨u, us, rfl⟩ := List.exists_cons_of_ne_nil (List.ne_nil_of_mem hw)
        rwa [List.getLast?_cons_cons]
      refine ⟨hvstart.trans h.1, hvend.trans h.2.1, ?_, ih h.2.2.2
        (fun w hw => hfields w (List.mem_cons_of_mem v hw))
        (fun w hw hnot => hlinks w (List.mem_cons_of_mem v hw) (hgrow w hw hnot)) ?_ hnodup⟩
      · cases nodes with
        | nil =>
          rintro n' hn'
          rw [← Option.some.inj hn']
          exact hlast v rfl
        | cons u us =>
          rintro n' hn'
          rw [hlinks v List.mem_cons_self, h.2.2.1 n' hn']
          rw [List.getLast?_cons_cons]
          exact fun hmem => hv (List.mem_of_getLast? hmem)
      · intro l hl
        obtain ⟨u, us, rfl⟩ := List.exists_cons_of_ne_nil
          (List.ne_nil_of_mem (List.mem_of_getLast? hl))
        exact hlast l (by rwa [List.getLast?_cons_cons])

/-- A new pool has an empty page and no records. -/
theorem laid_memPoolCreat (hmem : page + pageSiz < 2 ^ 64) :
    Laid m (memPoolCreat m page) page 0 [] [] := by
  obtain ⟨hhead, -, hpage, -⟩ := sizes
  rw [memPoolCreat]
  refine ⟨Nat.zero_le _, ?_, ?_, ?_, ?_, ?_, trivial, by simp, .nil, by simp, fun x hx hx' => ?_⟩
  · simp (disch := omega) only [Mem.load64_store64_of_disjoint, Mem.load64_store64, Nat.add_zero]
  · simp (disch := omega) only [Mem.load64_store64_of_disjoint, Mem.load64_store64]
  · simp (disch := omega) only [Mem.load64_store64_of_disjoint, Mem.load64_store64]
  · simp (disch := omega) only [Mem.load64_store64_of_disjoint, Mem.load64_store64, List.headD_nil]
  · simp (disch := omega) only [Mem.load64_store64]
    rfl
  · simp (disch := omega) only [Mem.store64_of_outside]

/-- No record is at `NULL` if the page is not. -/
theorem Laid.ne_null (h : Laid m₀ m page used nodes as) (hpage : page ≠ 0) : ∀ n ∈ nodes, n ≠ 0 :=
  fun n hn => by
    have := (h.inside n hn).1
    omega

/-- What `mem_pool_alloc` compares the size with. -/
theorem Laid.room (h : Laid m₀ m page used nodes as) :
    (m.load64 (page + 8) + 2 ^ 64 - m.load64 page) % 2 ^ 64 = poolSiz - used := by
  obtain ⟨hhead, -, hpage, hpool⟩ := sizes
  have hused := h.used_le
  rw [h.start, h.end_eq, show page + pageSiz + 2 ^ 64 - (page + sizeofMemPoolHead + used) =
    poolSiz - used + 2 ^ 64 by omega, Nat.add_mod_right, Nat.mod_eq_of_lt (by omega)]

/-- A size that fits the rest of the page is taken from it. -/
theorem Laid.pageAlloc_of_le (h : Laid m₀ m page used nodes as) (hnull : page ≠ 0)
    (hfits : used + size ≤ poolSiz) :
    pageAlloc (fuel + 1) m page size = .ok (page + sizeofMemPoolHead + used,
      m.store64 page (page + sizeofMemPoolHead + (used + size))) := by
  have hbrowse : browse m size (fuel + 1) page = .ok page := by
    rw [browse, if_neg hnull, h.room, if_pos (by omega)]
  rw [pageAlloc, hbrowse, ok_bind, if_neg hnull, h.start, Nat.add_assoc _ used]
  rfl

/-- Another one is not served. -/
theorem Laid.pageAlloc_of_lt (h : Laid m₀ m page used nodes as) (hnull : page ≠ 0)
    (hfull : poolSiz < used + size) (ret : ℕ × Mem) : pageAlloc fuel m page size ≠ .ok ret := by
  have hskip : ∀ fuel, browse m size (fuel + 1) page = browse m size fuel 0 := fun fuel => by
    have hused := h.used_le
    rw [browse, if_neg hnull, h.room, if_neg (by omega), h.next]
  rw [pageAlloc]
  cases fuel with
  | zero =>
    rw [browse, error_bind]
    exact fun heq => by cases heq
  | succ fuel =>
    rw [hskip]
    cases fuel with
    | zero =>
      rw [browse, error_bind]
      exact fun heq => by cases heq
    | succ fuel =>
      rw [browse, if_pos rfl, ok_bind, if_pos rfl]
      exact fun heq => by cases heq

/-- The bytes taken may be anything, the records are elsewhere. -/
theorem Laid.grow (h : Laid m₀ m page used nodes as) (hmem : page + pageSiz < 2 ^ 64)
    (hfits : used + size ≤ poolSiz) :
    Laid m₀ (m.store64 page (page + sizeofMemPoolHead + (used + size))) page (used + size)
      nodes as := by
  obtain ⟨hhead, hlarge, hpage, hpool⟩ := sizes
  have hinside := h.inside
  have hlast := h.last
  refine ⟨hfits, Mem.load64_store64 (by omega), ?_, ?_, ?_, ?_, h.chained.congr fun n hn => ?_,
    fun n hn => ?_, h.sorted, fun n hn => ?_, fun x hx hx' => ?_⟩
  · rw [Mem.load64_store64_of_disjoint (by omega), h.end_eq]
  · rw [Mem.load64_store64_of_disjoint (by omega), h.next]
  · rw [Mem.load64_store64_of_disjoint (by omega), h.extra]
  · rw [Mem.load64_store64_of_disjoint (by omega), h.tail]
  · have := hinside n hn
    simp (disch := omega) only [Mem.load64_store64_of_disjoint, and_self]
  · have := hinside n hn
    omega
  · have := hinside n (List.mem_of_getLast? hn)
    rw [Mem.load64_store64_of_disjoint (by omega), h.last n hn]
  · rw [Mem.store64_of_outside (by omega), h.free x (by omega) hx']

/-- The pointer that `mem_pool_add` stores first: `extra`, or `next` of the last record. -/
def LinkCell (page : ℕ) (nodes : List ℕ) (c : ℕ) : Prop :=
  nodes = [] ∧ c = page + 24 ∨ ∃ init l, nodes = init ++ [l] ∧ c = l + 16

/-- A record is linked by two writes: where the last one ends, and to `last` of the page. -/
theorem Laid.exists_linkCell (h : Laid m₀ m page used nodes as) (hn : n < 2 ^ 64) :
    ∃ c, LinkCell page nodes c ∧ Pages.link m page n = (m.store64 c n).store64 (page + 32) n := by
  obtain ⟨hhead, hlarge, hpage, hpool⟩ := sizes
  rcases nodes.eq_nil_or_concat with rfl | ⟨init, l, rfl⟩
  · have hextra : m.load64 (page + 24) = 0 := h.extra
    exact ⟨page + 24, Or.inl ⟨rfl, rfl⟩, by rw [Pages.link, if_pos hextra]⟩
  · rw [List.concat_eq_append] at h ⊢
    have hinside := h.inside
    have hextra : m.load64 (page + 24) ≠ 0 := by
      rw [h.extra]
      cases init with
      | nil =>
        have := hinside l (by simp)
        simp only [List.nil_append, List.headD_cons]
        omega
      | cons v init =>
        have := hinside v (by simp)
        simp only [List.cons_append, List.headD_cons]
        omega
    have hl := hinside l (by simp)
    have htail : m.load64 (page + 32) = l := by
      rw [h.tail, List.getLast?_concat, Option.getD_some]
    have htail' : (m.store64 (l + 16) n).load64 (page + 32) = l := by
      rw [Mem.load64_store64_of_disjoint (by omega), htail]
    refine ⟨l + 16, Or.inr ⟨init, l, rfl, rfl⟩, ?_⟩
    rw [Pages.link, if_neg hextra]
    simp only [htail, htail', Mem.load64_store64 hn]

/-- The cell is in the header, or it is the last one of a record in front of `n`. -/
theorem Laid.linkCell_le (h : Laid m₀ m page used nodes as) {c : ℕ} (hcell : LinkCell page nodes c)
    (hbehind : ∀ v ∈ nodes, v + sizeofMemPoolLarge ≤ n) :
    c = page + 24 ∨ page + sizeofMemPoolHead ≤ c ∧ c + 8 ≤ n := by
  obtain ⟨-, hlarge, -, -⟩ := sizes
  rcases hcell with ⟨-, rfl⟩ | ⟨init, l, rfl, rfl⟩
  · exact Or.inl rfl
  · have := h.inside l (by simp)
    have := hbehind l (by simp)
    omega

/-- It is neither `start` nor `end` of a record. -/
theorem Laid.linkCell_fields (h : Laid m₀ m page used nodes as) {c v : ℕ}
    (hcell : LinkCell page nodes c) (hv : v ∈ nodes) : v + 16 ≤ c ∨ c + 8 ≤ v := by
  obtain ⟨hhead, hlarge, -, -⟩ := sizes
  have := h.inside v hv
  have hsorted := h.sorted
  rcases hcell with ⟨-, rfl⟩ | ⟨init, l, rfl, rfl⟩
  · omega
  · rcases List.mem_append.mp hv with hv | hv
    · have := (List.pairwise_append.mp hsorted).2.2 v hv l (by simp)
      omega
    · rw [List.mem_singleton.mp hv]
      omega

/-- It is `next` of the last record only. -/
theorem Laid.linkCell_next (h : Laid m₀ m page used nodes as) {c v : ℕ}
    (hcell : LinkCell page nodes c) (hv : v ∈ nodes) (hnot : v ∉ nodes.getLast?) :
    v + 24 ≤ c ∨ c + 8 ≤ v := by
  obtain ⟨hhead, hlarge, -, -⟩ := sizes
  have := h.inside v hv
  have hsorted := h.sorted
  rcases hcell with ⟨-, rfl⟩ | ⟨init, l, rfl, rfl⟩
  · omega
  · rw [List.getLast?_concat, Option.mem_some] at hnot
    rcases List.mem_append.mp hv with hv | hv
    · have := (List.pairwise_append.mp hsorted).2.2 v hv l (by simp)
      omega
    · exact absurd (List.mem_singleton.mp hv).symm hnot

/-- The records after the stores of `mem_pool_add`. -/
theorem Laid.chained_record (h : Laid m₀ m page used nodes as) (hmem : page + pageSiz < 2 ^ 64)
    (hbehind : ∀ v ∈ nodes, v + sizeofMemPoolLarge ≤ n)
    (hn : n + sizeofMemPoolLarge ≤ page + sizeofMemPoolHead + used)
    (harea : area + size < 2 ^ 64) {c : ℕ} (hcell : LinkCell page nodes c) :
    Chained ((((m.store64 c n).store64 (page + 32) n).store64 n area).store64 (n + 8)
      (area + size)) (nodes ++ [n]) (as ++ [(area, size)]) := by
  obtain ⟨hhead, hlarge, hpage, hpool⟩ := sizes
  have hused := h.used_le
  have hc := h.linkCell_le hcell hbehind
  refine h.chained.append (fun v hv => ?_) (fun v hv hnot => ?_) (fun l hl => ?_) ?_ ?_ ?_
  · have := h.inside v hv
    have := hbehind v hv
    have := h.linkCell_fields hcell hv
    simp (disch := omega) only [Mem.load64_store64_of_disjoint, and_self]
  · have := h.inside v hv
    have := hbehind v hv
    have := h.linkCell_next hcell hv hnot
    simp (disch := omega) only [Mem.load64_store64_of_disjoint]
  · rcases hcell with ⟨rfl, -⟩ | ⟨init, v, rfl, rfl⟩
    · cases hl
    · rw [List.getLast?_concat, Option.mem_some] at hl
      subst hl
      have := h.inside v (by simp)
      have := hbehind v (by simp)
      simp (disch := omega) only [Mem.load64_store64_of_disjoint, Mem.load64_store64]
  · exact h.sorted.imp fun hlt => by omega
  · simp (disch := omega) only [Mem.load64_store64_of_disjoint, Mem.load64_store64]
  · simp (disch := omega) only [Mem.load64_store64]

/-- `mem_pool_add` links a record behind the last one. -/
theorem Laid.record (h : Laid m₀ m page used nodes as) (hmem : page + pageSiz < 2 ^ 64)
    (hbehind : ∀ v ∈ nodes, v + sizeofMemPoolLarge ≤ n) (hn : page + sizeofMemPoolHead ≤ n)
    (hn' : n + sizeofMemPoolLarge ≤ page + sizeofMemPoolHead + used)
    (hbytes : ∀ x, n ≤ x → x < n + sizeofMemPoolLarge → m x = m₀ x)
    (harea : area + size < 2 ^ 64) :
    Laid m₀ (((Pages.link m page n).store64 n area).store64 (n + 8) (area + size)) page used
      (nodes ++ [n]) (as ++ [(area, size)]) := by
  obtain ⟨hhead, hlarge, hpage, hpool⟩ := sizes
  have hused := h.used_le
  obtain ⟨c, hcell, hlink⟩ := h.exists_linkCell (n := n) (by omega)
  have hc := h.linkCell_le hcell hbehind
  rw [hlink]
  refine ⟨hused, ?_, ?_, ?_, ?_, ?_, h.chained_record hmem hbehind hn' harea hcell, ?_, ?_, ?_,
    fun x hx hx' => ?_⟩
  · simp (disch := omega) only [Mem.load64_store64_of_disjoint, h.start]
  · simp (disch := omega) only [Mem.load64_store64_of_disjoint, h.end_eq]
  · simp (disch := omega) only [Mem.load64_store64_of_disjoint, h.next]
  · -- the record is linked from the head of the page or from the last record
    rcases hcell with ⟨rfl, rfl⟩ | ⟨init, l, rfl, rfl⟩
    · simp (disch := omega) only [Mem.load64_store64_of_disjoint, Mem.load64_store64]
      rfl
    · have := h.inside l (by simp)
      simp (disch := omega) only [Mem.load64_store64_of_disjoint, h.extra]
      cases init <;> rfl
  · simp (disch := omega) only [Mem.load64_store64_of_disjoint, Mem.load64_store64]
    simp
  · rw [List.forall_mem_append, List.forall_mem_singleton]
    exact ⟨h.inside, hn, hn'⟩
  · rw [List.pairwise_append]
    exact ⟨h.sorted, List.pairwise_singleton _ _, fun v hv w hw => by
      rw [List.mem_singleton.mp hw]
      exact hbehind v hv⟩
  · rw [List.getLast?_concat]
    rintro v hv
    obtain rfl := Option.some.inj hv
    simp (disch := omega) only [Mem.load64_store64_of_disjoint]
    exact Mem.load64_congr fun i hi => hbytes _ (by omega) (by omega)
  · simp (disch := omega) only [Mem.store64_of_outside]
    exact h.free x hx hx'

/-! ### Calls -/

/-- The pointer returned for a request when `used` bytes of the page are taken. -/
def placedAt (page used : ℕ) (r : Request) : ℕ :=
  if r.Large then r.area else page + sizeofMemPoolHead + used

/-- The pointers returned for requests. -/
def placed (page : ℕ) : ℕ → List Request → List ℕ
  | _, [] => []
  | used, r :: rs => placedAt page used r :: placed page (used + r.cost) rs

/-- The records of the large requests. -/
def recordsAt (page : ℕ) : ℕ → List Request → List ℕ
  | _, [] => []
  | used, r :: rs =>
    if r.Large then (page + sizeofMemPoolHead + used) :: recordsAt page (used + r.cost) rs
    else recordsAt page (used + r.cost) rs

theorem areas_cons (r : Request) (rs : List Request) :
    areas (r :: rs) = if r.Large then (r.area, r.size) :: areas rs else areas rs := by
  rw [areas, List.filter_cons]
  by_cases hlarge : r.Large
  · rw [if_pos (decide_eq_true hlarge), if_pos hlarge]
    rfl
  · rw [if_neg (by simpa using hlarge), if_neg hlarge]
    rfl

/-- What holds of all areas, one request at a time. -/
theorem forall_mem_areas_cons {P : ℕ × ℕ → Prop} :
    (∀ a ∈ areas (r :: rs), P a) ↔ (r.Large → P (r.area, r.size)) ∧ ∀ a ∈ areas rs, P a := by
  rw [areas_cons]
  split_ifs with hlarge
  · rw [List.forall_mem_cons, forall_prop_of_true hlarge]
  · exact (and_iff_right fun h => absurd h hlarge).symm

theorem cost_cons (r : Request) (rs : List Request) : cost (r :: rs) = r.cost + cost rs := by
  rw [cost, cost, List.map_cons, List.sum_cons]

/-- A request that fits the page is served. -/
theorem Laid.memPoolAlloc (h : Laid m₀ m page used nodes as) (hmem : page + pageSiz < 2 ^ 64)
    (hnull : page ≠ 0) (harea : r.Large → r.area + r.size < 2 ^ 64)
    (hfits : used + r.cost ≤ poolSiz) (fuel : ℕ) :
    ∃ m', Pages.memPoolAlloc (fuel + 1) m page r = .ok (placedAt page used r, m') ∧
      Laid m₀ m' page (used + r.cost) (nodes ++ recordsAt page used [r]) (as ++ areas [r]) := by
  obtain ⟨hhead, hlarge, hpage, hpool⟩ := sizes
  rw [areas_cons, recordsAt, placedAt, Pages.memPoolAlloc]
  rw [Request.cost] at hfits ⊢
  by_cases hr : r.Large
  · simp only [if_pos hr] at hfits ⊢
    have hgrow := h.grow hmem hfits
    rw [memPoolAdd, h.pageAlloc_of_le hnull hfits]
    refine ⟨_, rfl, hgrow.record hmem (fun v hv => ?_) ?_ ?_ (fun x hx hx' => ?_) (harea hr)⟩
    · exact (h.inside v hv).2
    · omega
    · omega
    · rw [Mem.store64_of_outside (by omega), h.free x hx (by omega)]
  · simp only [if_neg hr] at hfits ⊢
    rw [h.pageAlloc_of_le hnull hfits]
    refine ⟨_, rfl, ?_⟩
    rw [recordsAt, List.append_nil, show areas [] = [] from rfl, List.append_nil]
    exact h.grow hmem hfits

/-- Another one is not served. -/
theorem Laid.memPoolAlloc_of_lt (h : Laid m₀ m page used nodes as) (hnull : page ≠ 0)
    (hfull : poolSiz < used + r.cost) (ret : ℕ × Mem) :
    Pages.memPoolAlloc fuel m page r ≠ .ok ret := by
  rw [Pages.memPoolAlloc]
  rw [Request.cost] at hfull
  split_ifs at hfull ⊢ with hr
  · rw [memPoolAdd]
    intro heq
    obtain ⟨m₁, hadd, -⟩ := bind_eq_ok.mp heq
    obtain ⟨ret', halloc, -⟩ := bind_eq_ok.mp hadd
    exact h.pageAlloc_of_lt hnull hfull ret' halloc
  · exact h.pageAlloc_of_lt hnull hfull ret

theorem memPoolAlloc_zero (ret : ℕ × Mem) : Pages.memPoolAlloc 0 m page r ≠ .ok ret := by
  rw [Pages.memPoolAlloc]
  split_ifs
  · exact fun heq => by cases heq
  · exact fun heq => by cases heq

theorem memPoolAllocs_zero {ret : List ℕ × Mem} (h : Pages.memPoolAllocs 0 page rs m = .ok ret) :
    rs = [] := by
  cases rs with
  | nil => rfl
  | cons r rs =>
    obtain ⟨ret₁, halloc, -⟩ := bind_eq_ok.mp h
    exact absurd halloc (memPoolAlloc_zero ret₁)

/-- **Calls on a page.** Requests that fit the page together are served. -/
theorem Laid.memPoolAllocs (h : Laid m₀ m page used nodes as) (hmem : page + pageSiz < 2 ^ 64)
    (hnull : page ≠ 0) (hareas : ∀ a ∈ areas rs, a.1 + a.2 < 2 ^ 64)
    (hfits : used + cost rs ≤ poolSiz) (fuel : ℕ) :
    ∃ m', Pages.memPoolAllocs (fuel + 1) page rs m = .ok (placed page used rs, m') ∧
      Laid m₀ m' page (used + cost rs) (nodes ++ recordsAt page used rs) (as ++ areas rs) := by
  induction rs generalizing m used nodes as with
  | nil =>
    refine ⟨m, rfl, ?_⟩
    rw [recordsAt, List.append_nil, show areas [] = [] from rfl, List.append_nil]
    exact h
  | cons r rs ih =>
    rw [cost_cons, ← Nat.add_assoc] at hfits ⊢
    obtain ⟨harea, hareas⟩ := forall_mem_areas_cons.mp hareas
    obtain ⟨m₁, halloc, h₁⟩ := h.memPoolAlloc hmem hnull harea (by omega) fuel
    obtain ⟨m', hallocs, h'⟩ := ih h₁ hareas hfits
    refine ⟨m', ?_, ?_⟩
    · rw [Pages.memPoolAllocs, halloc, ok_bind]
      dsimp only
      rw [hallocs]
      rfl
    · have hareas' : areas (r :: rs) = areas [r] ++ areas rs := by
        rw [areas_cons, areas_cons]
        split_ifs <;> rfl
      have hrecords : recordsAt page used (r :: rs) =
          recordsAt page used [r] ++ recordsAt page (used + r.cost) rs := by
        rw [recordsAt, recordsAt]
        split_ifs <;> rfl
      rw [hareas', hrecords, ← List.append_assoc, ← List.append_assoc]
      exact h'

/-- Other ones are not. -/
theorem Laid.memPoolAllocs_of_lt (h : Laid m₀ m page used nodes as) (hmem : page + pageSiz < 2 ^ 64)
    (hnull : page ≠ 0) (hareas : ∀ a ∈ areas rs, a.1 + a.2 < 2 ^ 64)
    (hfull : poolSiz < used + cost rs) (ret : List ℕ × Mem) :
    Pages.memPoolAllocs fuel page rs m ≠ .ok ret := by
  induction rs generalizing m used nodes as ret with
  | nil =>
    have hused := h.used_le
    rw [show cost [] = 0 from rfl] at hfull
    omega
  | cons r rs ih =>
    intro heq
    rw [Pages.memPoolAllocs] at heq
    obtain ⟨⟨ret₁, m₁⟩, halloc, hrest⟩ := bind_eq_ok.mp heq
    obtain ⟨ret₂, hallocs, -⟩ := bind_eq_ok.mp hrest
    by_cases hfits : used + r.cost ≤ poolSiz
    · obtain ⟨harea, hareas⟩ := forall_mem_areas_cons.mp hareas
      rw [cost_cons, ← Nat.add_assoc] at hfull
      cases fuel with
      | zero => exact memPoolAlloc_zero _ halloc
      | succ fuel =>
        obtain ⟨m₂, halloc', h₁⟩ := h.memPoolAlloc hmem hnull harea hfits fuel
        rw [halloc] at halloc'
        obtain ⟨-, rfl⟩ := Prod.mk.inj (Except.ok.inj halloc')
        exact ih h₁ hareas hfull ret₂ hallocs
    · exact h.memPoolAlloc_of_lt hnull (not_le.mp hfits) _ halloc

/-! ### Regions -/

/-- Requests that the page has room for are placed inside it, or in their areas. -/
theorem placed_fits (hfits : used + cost rs ≤ poolSiz) :
    List.Forall₂ (Fits page) rs (placed page used rs) := by
  obtain ⟨hhead, -, hpage, hpool⟩ := sizes
  induction rs generalizing used with
  | nil => exact .nil
  | cons r rs ih =>
    rw [cost_cons, ← Nat.add_assoc] at hfits
    refine .cons ?_ (ih hfits)
    rw [Fits, placedAt]
    rw [Request.cost] at hfits
    split_ifs at hfits ⊢
    · rfl
    · omega

/-- A region is that of a large request, or in the part of the page that was free. -/
theorem mem_placed {z : ℕ × ℕ} (hz : z ∈ (placed page used rs).zip (rs.map Request.size)) :
    z ∈ areas rs ∨ page + sizeofMemPoolHead + used ≤ z.1 ∧
      z.1 + z.2 ≤ page + sizeofMemPoolHead + (used + cost rs) := by
  induction rs generalizing used with
  | nil => cases hz
  | cons r rs ih =>
    rw [placed, List.map_cons, List.zip_cons_cons] at hz
    rw [areas_cons, cost_cons]
    rcases List.mem_cons.mp hz with rfl | hz
    · rw [placedAt, Request.cost]
      split_ifs
      · exact Or.inl List.mem_cons_self
      · exact Or.inr ⟨le_rfl, by omega⟩
    · rcases ih hz with hmem | hin
      · left
        split_ifs
        · exact List.mem_cons_of_mem _ hmem
        · exact hmem
      · right
        omega

/-- They are apart from one another if the page and the areas are. -/
theorem placed_apart (hfits : used + cost rs ≤ poolSiz)
    (hapart : ((page, pageSiz) :: areas rs).Pairwise Apart) :
    ((placed page used rs).zip (rs.map Request.size)).Pairwise Apart := by
  obtain ⟨hhead, -, hpage, hpool⟩ := sizes
  induction rs generalizing used with
  | nil => exact .nil
  | cons r rs ih =>
    rw [cost_cons, ← Nat.add_assoc] at hfits
    obtain ⟨hpages, hareas⟩ := List.pairwise_cons.mp hapart
    rw [areas_cons] at hareas
    obtain ⟨hlarge, hpages⟩ := forall_mem_areas_cons.mp hpages
    rw [placed, List.map_cons, List.zip_cons_cons, List.pairwise_cons, placedAt]
    rw [Request.cost] at hfits ⊢
    split_ifs at hareas hfits ⊢ with hr
    · obtain ⟨harea, hareas⟩ := List.pairwise_cons.mp hareas
      refine ⟨fun z hz => ?_, ih hfits (List.pairwise_cons.mpr ⟨hpages, hareas⟩)⟩
      rcases mem_placed hz with hmem | hin
      · exact harea z hmem
      · have := hlarge hr
        simp only [Apart] at this ⊢
        omega
    · refine ⟨fun z hz => ?_, ih hfits (List.pairwise_cons.mpr ⟨hpages, hareas⟩)⟩
      rcases mem_placed hz with hmem | hin
      · have := hpages z hmem
        simp only [Apart] at this ⊢
        omega
      · left
        exact le_trans (by rw [Nat.add_assoc]) hin.1

/-- The records in the page are those that `extra` leads to. -/
theorem Chained.recorded (h : Chained m nodes as) (hnull : ∀ n ∈ nodes, n ≠ 0) :
    Recorded m (nodes.headD 0) as := by
  induction nodes generalizing as with
  | nil => cases as with
    | nil => trivial
    | cons a as => cases h
  | cons n nodes ih => cases as with
    | nil => cases h
    | cons a as =>
      refine ⟨hnull n List.mem_cons_self, h.1, h.2.1, ?_⟩
      have hrest := ih h.2.2.2 fun v hv => hnull v (List.mem_cons_of_mem n hv)
      cases nodes with
      | nil => cases as with
        | nil => trivial
        | cons a as => cases h.2.2.2
      | cons v nodes =>
        rw [List.headD_cons, h.2.2.1 v rfl]
        exact hrest

end Page

namespace Calls

variable (c : Calls)

theorem page_lt : c.page + pageSiz < 2 ^ 64 := c.in_memory _ List.mem_cons_self

theorem page_ne_null : c.page ≠ 0 := c.nonnull _ List.mem_cons_self

theorem areas_lt : ∀ a ∈ areas c.requests, a.1 + a.2 < 2 ^ 64 := fun a ha =>
  c.in_memory a (List.mem_cons_of_mem _ ha)

/-- Calls whose requests fit the page together return. -/
theorem memPoolAllocs_of_le {m : Mem} (hfits : cost c.requests ≤ poolSiz) (fuel : ℕ) :
    ∃ m', memPoolAllocs (fuel + 1) c.page c.requests (memPoolCreat m c.page) =
        .ok (placed c.page 0 c.requests, m') ∧
      Laid m m' c.page (cost c.requests) (recordsAt c.page 0 c.requests) (areas c.requests) := by
  have h := (laid_memPoolCreat (m := m) c.page_lt).memPoolAllocs c.page_lt c.page_ne_null
    c.areas_lt (by rwa [Nat.zero_add]) fuel
  rw [Nat.zero_add] at h
  exact h

/-- Requests that cost more than the page has are not all served. -/
theorem memPoolAllocs_of_lt {m : Mem} (hfull : poolSiz < cost c.requests) (fuel : ℕ)
    (ret : List ℕ × Mem) :
    memPoolAllocs fuel c.page c.requests (memPoolCreat m c.page) ≠ .ok ret :=
  (laid_memPoolCreat (m := m) c.page_lt).memPoolAllocs_of_lt c.page_lt c.page_ne_null c.areas_lt
    (by rwa [Nat.zero_add]) ret

/-- **Requests are served** exactly if they fit the first page together. -/
theorem servesAll_iff (m : Mem) : c.ServesAll m ↔ cost c.requests ≤ poolSiz := by
  constructor
  · rintro ⟨fuel, rets, m', hallocs, -⟩
    by_contra hfull
    exact c.memPoolAllocs_of_lt (not_le.mp hfull) fuel _ hallocs
  · intro hfits
    obtain ⟨m', hallocs, hlaid⟩ := c.memPoolAllocs_of_le (m := m) hfits 0
    have hfits' : 0 + cost c.requests ≤ poolSiz := by rwa [Nat.zero_add]
    refine ⟨1, _, m', hallocs, placed_fits hfits', placed_apart hfits' c.apart, ?_⟩
    rw [hlaid.extra]
    exact hlaid.chained.recorded (hlaid.ne_null c.page_ne_null)

end Calls

/-- A page at address `4096`, and two requests that it has no room for. -/
def twoPages : Calls where
  page := 4096
  requests := [⟨4000, 0⟩, ⟨100, 0⟩]
  apart := by decide
  nonnull := by decide
  in_memory := by decide

/-- The second request needs another page. -/
theorem not_servesAll_twoPages : ¬∀ (c : Calls) (m : Mem), c.ServesAll m := by
  intro h
  obtain ⟨fuel, rets, m', hallocs, -⟩ := h twoPages fun _ => 0
  exact twoPages.memPoolAllocs_of_lt (by decide) fuel _ hallocs

/-! ### The pool without links -/

section Pool

variable {p : MemPool} {mem : Block} {used size : ℕ}

/-- The pool of `Lidas.Memory.Pool` serves a request that its page has room for. -/
theorem pool_pageAlloc_of_le (hp : p.pages = [⟨sizeofMemPoolHead + used, mem⟩])
    (hfits : used + size ≤ poolSiz) :
    ∃ ptr, Lidas.pageAlloc size p =
      .ok (ptr, { p with pages := [⟨sizeofMemPoolHead + used + size, mem⟩] }) := by
  obtain ⟨hhead, -, hpage, hpool⟩ := sizes
  refine ⟨.page 0 (sizeofMemPoolHead + used), ?_⟩
  rw [Lidas.pageAlloc, hp, Lidas.browse, if_pos (by dsimp only; omega), ok_bind]
  rfl

/-- It does not serve one that its page has no room for. -/
theorem pool_pageAlloc_of_lt (hp : p.pages = [⟨sizeofMemPoolHead + used, mem⟩])
    (hused : used ≤ poolSiz) (hfull : poolSiz < used + size) (ret : PoolPtr × MemPool) :
    Lidas.pageAlloc size p ≠ .ok ret := by
  obtain ⟨hhead, -, hpage, hpool⟩ := sizes
  rw [Lidas.pageAlloc, hp, Lidas.browse, if_neg (by dsimp only; omega), Lidas.browse, error_bind,
    error_bind]
  exact fun heq => by cases heq

/-- The same of `mem_pool_alloc`, which takes a record of the page for a large request. -/
theorem pool_memPoolAlloc_of_le {r : Request} (hp : p.pages = [⟨sizeofMemPoolHead + used, mem⟩])
    (hfits : used + r.cost ≤ poolSiz) :
    ∃ ptr p', Lidas.memPoolAlloc r.size p = .ok (ptr, p') ∧
      p'.pages = [⟨sizeofMemPoolHead + (used + r.cost), mem⟩] := by
  rw [Lidas.memPoolAlloc, ← Nat.add_assoc]
  rw [Request.cost] at hfits ⊢
  by_cases hr : poolSiz < r.size
  · simp only [if_pos (show r.Large from hr)] at hfits ⊢
    obtain ⟨ptr, halloc⟩ := pool_pageAlloc_of_le hp hfits
    rw [if_pos hr, halloc, ok_bind]
    exact ⟨_, _, rfl, rfl⟩
  · simp only [if_neg (show ¬r.Large from hr)] at hfits ⊢
    obtain ⟨ptr, halloc⟩ := pool_pageAlloc_of_le hp hfits
    rw [if_neg hr, halloc]
    exact ⟨_, _, rfl, rfl⟩

/-- It does not return when that record does not fit. -/
theorem pool_memPoolAlloc_of_lt {r : Request} (hp : p.pages = [⟨sizeofMemPoolHead + used, mem⟩])
    (hused : used ≤ poolSiz) (hfull : poolSiz < used + r.cost) (ret : PoolPtr × MemPool) :
    Lidas.memPoolAlloc r.size p ≠ .ok ret := by
  rw [Lidas.memPoolAlloc]
  rw [Request.cost] at hfull
  by_cases hr : poolSiz < r.size
  · simp only [if_pos (show r.Large from hr)] at hfull ⊢
    rw [if_pos hr]
    intro heq
    obtain ⟨ret', halloc, -⟩ := bind_eq_ok.mp heq
    exact pool_pageAlloc_of_lt hp hused hfull ret' halloc
  · simp only [if_neg (show ¬r.Large from hr)] at hfull ⊢
    rw [if_neg hr]
    exact pool_pageAlloc_of_lt hp hused hfull ret

/-- The pool without links serves the same requests. -/
theorem pool_memPoolAllocs_iff (mem : Block) (rs : List Request) :
    (∃ l, Lidas.memPoolAllocs (rs.map Request.size) (Lidas.memPoolCreat mem) = .ok l) ↔
      cost rs ≤ poolSiz := by
  suffices h : ∀ rs p used, p.pages = [⟨sizeofMemPoolHead + used, mem⟩] → used ≤ poolSiz →
      ((∃ l, Lidas.memPoolAllocs (rs.map Request.size) p = .ok l) ↔ used + cost rs ≤ poolSiz) by
    rw [h rs _ 0 rfl (Nat.zero_le _), Nat.zero_add]
  intro rs
  induction rs with
  | nil => exact fun p used _ hused => iff_of_true ⟨[], rfl⟩ hused
  | cons r rs ih =>
    intro p used hp hused
    rw [cost_cons, ← Nat.add_assoc, List.map_cons, Lidas.memPoolAllocs]
    by_cases hfits : used + r.cost ≤ poolSiz
    · obtain ⟨ptr, p', halloc, hp'⟩ := pool_memPoolAlloc_of_le hp hfits
      rw [halloc, ← ih p' _ hp' hfits]
      simp [bind_eq_ok, pure, Except.pure]
    · refine iff_of_false ?_ fun h => hfits (le_trans (Nat.le_add_right _ _) h)
      rintro ⟨l, hl⟩
      obtain ⟨ret, halloc, -⟩ := bind_eq_ok.mp hl
      exact pool_memPoolAlloc_of_lt hp hused (not_le.mp hfits) ret halloc

end Pool

end Pages

end Lidas
