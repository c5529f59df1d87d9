import Lidas.Http.Pooled
import Lidas.Http.ReadEvent
import Lidas.Worker.Redirect

/-!
# From the first `read` to the response

The whole of `func_redirect` for a `COMMON_RDEVENT` (`funcRedirectIn`): `read_event` with its calls
of `read`, of `mem_pool_alloc` and of `http_parser`, and what comes behind it. The descriptor is not
0, and the pool of the connection has one page.

`read_event` hands its head to `http_parser` in one of two ways (`HeadKept`). A text of more than
`POOL_SIZ` bytes stays where it was read. A shorter one is moved to a region of `buf_siz` bytes,
of which 8192 are copied back, so that `buf_siz`, the result of the last `read`, has to be 8192; at
the end of the stream it is 0. So of the well-formed requests that a client sends before it closes
the connection, those of at most `POOL_SIZ` bytes are not answered (`answeredOnce_closed_iff`).
-/

namespace Lidas

open CString
open Config (Globals LoadFault inMemory inMemory_eq_ok)

/-- What `read_event` meets: the bytes that `malloc` returns for the head and for the blocks of a
size, the page of the connection with the number of bytes taken from it and the sizes of its
large blocks, and the outcomes of `read`. -/
structure Arrival where
  head : HeadBlock
  fresh : ℕ → Block
  length_fresh : ∀ size, (fresh size).length = size
  used : ℕ
  mem : Block
  length_mem : mem.length = pageSiz
  large : List ℕ
  reads : List ReadRes

/-- The pool of the connection. -/
def Arrival.pool (a : Arrival) : MemPool :=
  { pages := [{ start := sizeofMemPoolHead + a.used, mem := a.mem }], large := a.large }

/-- `read_event`. -/
def readEvent (fd : ℕ) (a : Arrival) (io : BodyIo) : Except Fault (Option EventRead) := do
  match ← readHead a.head.val a.fresh a.pool a.reads with
  | none => return none
  | some r =>
    let (p, _) ← httpParserIn r.text r.pool
    readRequest fd io p

section Globals

variable {H : Type}

/-- `func_redirect` for a `COMMON_RDEVENT`. -/
def funcRedirectIn (s : Globals H) (fd : ℕ) (a : Arrival) (o : Outside) :
    Except LoadFault (Option Served) := do
  redirectRead s o (← inMemory (readEvent fd a o.body))

/-- The request is answered: no `NULL` is used, and there is one response. -/
def AnsweredOnce (s : Globals H) (fd : ℕ) (a : Arrival) (o : Outside) : Prop :=
  ∃ v, funcRedirectIn s fd a o = .ok (some v) ∧ v.responses = 1

end Globals

/-! ### The head -/

/-- The text that `http_parser` gets, with the bytes behind it, and the number of bytes that have
been taken from the page by then. -/
inductive HeadKept (a : Arrival) : Block → ℕ → Prop where
  | whole {l : HeadRun} {n : ℕ} (hrun : headLoop a.reads a.head.start = .ok l)
      (hstopped : l.stopped = true) (hlen : strlen l.state.head 0 = .ok n) (hlong : poolSiz < n) :
      HeadKept a l.state.head a.used
  | moved {l : HeadRun} {n : ℕ} (hrun : headLoop a.reads a.head.start = .ok l)
      (hstopped : l.stopped = true) (hlen : strlen l.state.head 0 = .ok n) (hshort : n ≤ poolSiz)
      (hsize : 2 * pageSiz ≤ l.state.bufSiz.toNat)
      (hroom : sizeofMemPoolHead + a.used + sizeofMemPoolLarge ≤ pageSiz) :
      HeadKept a (l.state.head.take n ++ (a.fresh l.state.bufSiz.toNat).drop n)
        (a.used + sizeofMemPoolLarge)

section HeadKept

variable {a : Arrival} {r : HeadRead}

/-- A short text has its bytes in the head. -/
theorem length_take_head {l : HeadRun} {n : ℕ} (hrun : headLoop a.reads a.head.start = .ok l)
    (hshort : n ≤ poolSiz) : (l.state.head.take n).length = n := by
  have hlength := (length_headLoop hrun).trans a.head.property
  have hpool : poolSiz ≤ 2 * pageSiz := by decide
  rw [List.length_take, hlength]
  omega

/-- What `read_event` hands to `http_parser` is as `HeadKept` says. -/
theorem HeadKept.of_readHead (h : readHead a.head.val a.fresh a.pool a.reads = .ok (some r)) :
    ∃ used, HeadKept a r.text used ∧ r.pool.pages = [⟨sizeofMemPoolHead + used, a.mem⟩] := by
  obtain ⟨l, hrun, h⟩ := bind_eq_ok.mp h
  split_ifs at h with hstopped
  · cases h
  simp only [Bool.not_eq_true', Bool.not_eq_false] at hstopped
  obtain ⟨n, hlen, h⟩ := bind_eq_ok.mp h
  split_ifs at h with hshort
  · obtain ⟨⟨new, pool⟩, halloc, h⟩ := bind_eq_ok.mp h
    obtain ⟨region, hregion, h⟩ := bind_eq_ok.mp h
    obtain ⟨text, htext, h⟩ := bind_eq_ok.mp h
    have hlength := length_storeBytes htext
    rw [pure_eq_ok, ok_bind] at h
    dsimp only at h hregion
    split_ifs at h with hpage
    · cases h
    obtain rfl := Option.some.inj (Except.ok.inj h)
    -- a large block is of `malloc`, a small one of the page
    rcases Nat.lt_or_ge poolSiz l.state.bufSiz.toNat with hlarge | hsmall
    · obtain ⟨hroom, hret⟩ := (memPoolAlloc_large_iff rfl hlarge).mp halloc
      obtain ⟨rfl, rfl⟩ := Prod.mk.inj hret
      obtain rfl : a.fresh l.state.bufSiz.toNat = region := by
        simpa [MemPool.bytesAt] using hregion
      have htake := length_take_head hrun hshort
      have hfresh := a.length_fresh l.state.bufSiz.toNat
      rw [storeBytes_zero (by omega), htake] at htext
      obtain rfl := Except.ok.inj htext
      exact ⟨a.used + sizeofMemPoolLarge,
        .moved hrun hstopped hlen hshort (by omega) hroom, by rw [← Nat.add_assoc]⟩
    · -- a region of the page is too short for the bytes that are copied back
      obtain ⟨-, hret⟩ := of_memPoolAlloc rfl hsmall halloc
      obtain ⟨rfl, rfl⟩ := Prod.mk.inj hret
      obtain rfl : a.mem.drop (sizeofMemPoolHead + a.used) = region := by
        simpa [MemPool.bytesAt] using hregion
      have hmem := a.length_mem
      have hpos : 0 < pageSiz := by decide
      rw [List.length_drop] at hlength
      omega
  · rw [pure_eq_ok, ok_bind] at h
    dsimp only at h
    split_ifs at h with hpage
    · cases h
    obtain rfl := Option.some.inj (Except.ok.inj h)
    exact ⟨a.used, .whole hrun hstopped hlen (not_le.mp hshort), rfl⟩

/-- What is as `HeadKept` says is handed to `http_parser`. -/
theorem HeadKept.exists_readHead {text : Block} {used : ℕ} (h : HeadKept a text used) :
    ∃ r, readHead a.head.val a.fresh a.pool a.reads = .ok (some r) ∧ r.text = text ∧
      r.pool.pages = [⟨sizeofMemPoolHead + used, a.mem⟩] := by
  -- the two cases are the two ways `read_event` leaves the head
  cases h with
  | @whole l n hrun hstopped hlen hlong =>
    have hlength := (length_headLoop hrun).trans a.head.property
    refine ⟨{ text := l.state.head, place := none, pool := a.pool }, ?_, rfl, rfl⟩
    refine bind_eq_ok.mpr ⟨l, hrun, ?_⟩
    dsimp only
    rw [hstopped, hlen, ok_bind, if_neg (not_le.mpr hlong)]
    simp only [Bool.not_true, Bool.false_eq_true, if_false, pure_eq_ok, ok_bind, hlength,
      lt_irrefl]
  | @moved l n hrun hstopped hlen hshort hsize hroom =>
    have hlarge : poolSiz < l.state.bufSiz.toNat := lt_of_lt_of_le (by decide) hsize
    have htake := length_take_head hrun hshort
    have hfresh := a.length_fresh l.state.bufSiz.toNat
    have halloc := (@memPoolAlloc_large_iff a.pool _ _ _ _ rfl hlarge).mpr ⟨hroom, rfl⟩
    refine ⟨{ text := l.state.head.take n ++ (a.fresh l.state.bufSiz.toNat).drop n
              place := some (.large a.large.length)
              pool := ⟨[⟨sizeofMemPoolHead + a.used + sizeofMemPoolLarge, a.mem⟩],
                a.large ++ [l.state.bufSiz.toNat]⟩ }, ?_, rfl, by rw [← Nat.add_assoc]⟩
    refine bind_eq_ok.mpr ⟨l, hrun, ?_⟩
    dsimp only
    rw [hstopped, hlen, ok_bind, if_pos hshort, halloc, ok_bind]
    have hblock : MemPool.bytesAt ⟨[⟨sizeofMemPoolHead + a.used + sizeofMemPoolLarge, a.mem⟩],
        a.large ++ [l.state.bufSiz.toNat]⟩ a.fresh (.large a.large.length) =
          .ok (a.fresh l.state.bufSiz.toNat) := by
      simp [MemPool.bytesAt]
    dsimp only [Arrival.pool]
    rw [hblock, ok_bind, storeBytes_zero (by omega), htake]
    have hlength : ¬(l.state.head.take n ++
        (a.fresh l.state.bufSiz.toNat).drop n).length < 2 * pageSiz := by
      rw [List.length_append, htake, List.length_drop, hfresh]
      omega
    simp only [Bool.not_true, Bool.false_eq_true, if_false, pure_eq_ok, ok_bind, hlength]

end HeadKept

/-! ### The response -/

section Globals

variable {H : Type}

/-- When a request is answered: `http_parser` gets a text, its headers are served, and its host is
known. -/
def Arrival.Answerable (s : Globals H) (a : Arrival) : Prop :=
  ∃ text used p names, HeadKept a text used ∧ httpParser text = .ok p ∧
    List.Forall₂ HeaderCall.Named p.calls names ∧ HeadersServed a.mem used names ∧ HostKnown s p

/-- Only a request that is answerable is answered. -/
theorem AnsweredOnce.answerable {s : Globals H} {fd : ℕ} {a : Arrival} {o : Outside}
    (h : AnsweredOnce s fd a o) : a.Answerable s := by
  obtain ⟨v, hv, -⟩ := h
  obtain ⟨event, hevent, hv⟩ := bind_eq_ok.mp hv
  obtain ⟨read, hread, hevent⟩ := bind_eq_ok.mp (inMemory_eq_ok.mp hevent)
  cases read with
  | none =>
    -- a run inside `read`
    obtain rfl := Except.ok.inj hevent
    cases hv
  | some r =>
    obtain ⟨used, hkept, hpages⟩ := HeadKept.of_readHead hread
    obtain ⟨⟨p, m⟩, hparse, hevent⟩ := bind_eq_ok.mp hevent
    obtain ⟨hplain, names, hnamed, hserved⟩ := (httpParserIn_eq_ok_iff r.text hpages).mp ⟨m, hparse⟩
    exact ⟨r.text, used, p, names, hkept, hplain, hnamed, hserved,
      HostKnown.of_redirectRead hevent hv⟩

/-- The response is the error 400 or 404. -/
theorem Arrival.Answerable.exists_funcRedirectIn {s : Globals H} {a : Arrival}
    (h : a.Answerable s) (fd : ℕ) (o : Outside) : ∃ status ∈ [400, 404],
      funcRedirectIn s fd a o = .ok (some (Served.error [] status)) := by
  obtain ⟨text, used, p, names, hkept, hplain, hnamed, hserved, hknown⟩ := h
  obtain ⟨r, hread, rfl, hpages⟩ := hkept.exists_readHead
  obtain ⟨m, hparse⟩ := (httpParserIn_eq_ok_iff r.text hpages).mpr ⟨hplain, names, hnamed, hserved⟩
  obtain ⟨event, hevent, status, hmem, hrun⟩ := hknown.exists_redirectRead hplain fd o
  refine ⟨status, hmem, ?_⟩
  have hin : inMemory (readEvent fd a o.body) = .ok event := by
    rw [inMemory_eq_ok, readEvent, hread, ok_bind]
    dsimp only
    rw [hparse, ok_bind]
    exact hevent
  rw [funcRedirectIn, hin, ok_bind, hrun]

/-- A request that is answerable is answered. -/
theorem Arrival.Answerable.answeredOnce {s : Globals H} {a : Arrival} (h : a.Answerable s) (fd : ℕ)
    (o : Outside) : AnsweredOnce s fd a o := by
  obtain ⟨status, -, hrun⟩ := h.exists_funcRedirectIn fd o
  exact ⟨_, hrun, rfl⟩

/-- **One response.** A request is answered with exactly one response, and without a use of
`NULL`, if and only if the reading hands a text to `http_parser`, the pool serves its headers, it
is parsed, no part of its body is waited for, and a `host` is found for which `host_lst` can be
searched. -/
theorem answeredOnce_iff (s : Globals H) (fd : ℕ) (a : Arrival) (o : Outside) :
    AnsweredOnce s fd a o ↔ a.Answerable s :=
  ⟨AnsweredOnce.answerable, fun h => h.answeredOnce fd o⟩

/-! ### Well-formed requests -/

/-- The client sends a text and closes the connection; in the head a terminator is behind it. -/
structure Arrival.Closed (a : Arrival) (d : Delivery) : Prop where
  reads : a.reads = d.segs.map ReadRes.data ++ [.eof]
  terminated : a.head.val[d.text.length]? = some 0

theorem Arrival.Closed.exists_drop_eq {a : Arrival} {d : Delivery} (h : a.Closed d) :
    ∃ post, a.head.val.drop d.text.length = 0 :: post := by
  obtain ⟨hlt, h0⟩ := List.getElem?_eq_some_iff.mp h.terminated
  exact ⟨a.head.val.drop (d.text.length + 1), by rw [List.drop_eq_getElem_cons hlt, h0]⟩

/-- A text that is followed by the end of the stream is handed on if it has more than `POOL_SIZ`
bytes. -/
theorem Arrival.Closed.headKept_iff {a : Arrival} {d : Delivery} (h : a.Closed d) {text : Block}
    {used : ℕ} : HeadKept a text used ↔ poolSiz < d.text.length ∧ used = a.used ∧
      ∃ post, a.head.val.drop d.text.length = 0 :: post ∧ text = d.text ++ 0 :: post := by
  obtain ⟨l, hrun, hstopped, hhead, hsize⟩ := d.headLoop_eof a.head
  rw [← h.reads] at hrun
  obtain ⟨post, hdrop⟩ := h.exists_drop_eq
  rw [hdrop] at hhead
  have hlen : strlen l.state.head 0 = .ok d.text.length := by
    rw [hhead]
    exact @strlen_append [] _ _ d.nul_free
  constructor
  · rintro (⟨hrun', -, hlen', hlong⟩ | ⟨hrun', -, -, -, hsize', -⟩)
    · obtain rfl := Except.ok.inj (hrun.symm.trans hrun')
      obtain rfl := Except.ok.inj (hlen.symm.trans hlen')
      exact ⟨hlong, rfl, post, hdrop, hhead⟩
    · -- the last `read` has returned 0
      obtain rfl := Except.ok.inj (hrun.symm.trans hrun')
      rw [hsize] at hsize'
      exact absurd hsize' (by decide)
  · rintro ⟨hlong, rfl, post', hdrop', rfl⟩
    obtain rfl := (List.cons.inj (hdrop.symm.trans hdrop')).2
    rw [← hhead]
    exact .whole hrun hstopped hlen hlong

/-- **Requests of a client that closes the connection.** A well-formed one is answered exactly if it
has more than `POOL_SIZ` bytes, the pool serves its headers, no part of its body is waited for, and
a `host` is found for which `host_lst` can be searched. -/
theorem answeredOnce_closed_iff (s : Globals H) (fd : ℕ) {a : Arrival} (o : Outside)
    {d : Delivery} (h : a.Closed d) {r : RequestText} (hd : d.text = r.text) :
    AnsweredOnce s fd a o ↔ poolSiz < r.text.length ∧ HeadersServed a.mem a.used r.storedKeys ∧
      (∀ v, r.Gives (ascii "Content-Length") v →
        UInt64.ofInt (atoi v) = UInt64.ofNat r.body.length) ∧
      ∃ w, r.Gives (ascii "host") w ∧ Searchable s w := by
  rw [← hd]
  constructor
  · intro honce
    obtain ⟨text, used, p, names, hkept, hplain, hnamed, hserved, hknown⟩ := honce.answerable
    obtain ⟨hlong, rfl, post, -, rfl⟩ := h.headKept_iff.mp hkept
    rw [hd] at hplain
    obtain ⟨done, st, hentered, hparse⟩ := r.exists_httpParser_eq post
    obtain rfl := Except.ok.inj (hparse.symm.trans hplain)
    obtain rfl := named_unique hentered.named hnamed
    rw [r.map_key_entries] at hserved
    exact ⟨hlong, hserved, (hostKnown_iff s r hplain).mp hknown⟩
  · rintro ⟨hlong, hserved, hknown⟩
    obtain ⟨post, hdrop⟩ := h.exists_drop_eq
    obtain ⟨done, st, hentered, hparse⟩ := r.exists_httpParser_eq post
    rw [← r.map_key_entries] at hserved
    rw [← hd] at hparse
    have hanswerable : a.Answerable s :=
      ⟨_, a.used, _, _, h.headKept_iff.mpr ⟨hlong, rfl, post, hdrop, rfl⟩, hparse,
        hentered.named, hserved, (hostKnown_iff s r (by rw [← hd]; exact hparse)).mpr hknown⟩
    exact hanswerable.answeredOnce fd o

/-- A URL of 5000 bytes. -/
def longUrl : List UInt8 := List.replicate 5000 97

theorem longUrl_ne_nil : longUrl ≠ [] := by
  rw [longUrl, Ne, List.replicate_eq_nil_iff]
  decide

theorem longUrl_ok : ∀ x ∈ longUrl, x ≠ 0 ∧ x ≠ sp ∧ x ≠ cr ∧ x ≠ lf := fun x hx => by
  rw [List.eq_of_mem_replicate hx]
  decide

/-- `GET` with this URL, and the one header line `Host:a`. -/
def longRequest : RequestText :=
  { RequestText.oneHeader with
    url := longUrl
    url_ne := longUrl_ne_nil
    url_ok := longUrl_ok }

theorem length_longRequest : longRequest.text.length = 5025 := by
  have hurl : longRequest.url.length = 5000 := List.length_replicate
  have hmethod : longRequest.method.length = 3 := rfl
  have hrest : (longRequest.protocal ++ cr :: lf :: (longRequest.headers.flatMap Header.line ++
      cr :: lf :: longRequest.body)).length = 20 := rfl
  rw [RequestText.text, List.length_append, List.length_cons, List.length_append, hurl, hmethod,
    List.length_cons, hrest]

theorem length_longRequest_lt : longRequest.text.length < 2 * pageSiz := by
  rw [length_longRequest]
  decide

theorem longRequest_ne_nil : ∀ s ∈ [longRequest.text], s ≠ [] := by
  rintro s hs rfl
  rw [List.mem_singleton] at hs
  have hlength := length_longRequest
  rw [← hs] at hlength
  cases hlength

/-- The request in one segment. -/
def longDelivery : Delivery where
  text := longRequest.text
  nul_free := longRequest.nul_free
  lt := length_longRequest_lt
  segs := [longRequest.text]
  segs_ne := longRequest_ne_nil
  flatten := List.flatten_singleton

theorem length_zero_page : (List.replicate pageSiz (0 : UInt8)).length = pageSiz :=
  List.length_replicate

/-- Its arrival, with zeroed memory. -/
def longArrival : Arrival where
  head := ⟨List.replicate (2 * pageSiz) 0, List.length_replicate⟩
  fresh size := List.replicate size 0
  length_fresh _ := List.length_replicate
  used := 0
  mem := List.replicate pageSiz 0
  length_mem := length_zero_page
  large := []
  reads := longDelivery.segs.map ReadRes.data ++ [.eof]

theorem closed_longArrival : longArrival.Closed longDelivery where
  reads := rfl
  terminated := by
    rw [longArrival, List.getElem?_replicate, if_pos longDelivery.lt]

/-- A request with the header `Host` alone is not answered: the table has no entry for `host`. -/
theorem not_answeredOnce_longRequest : ¬∀ (s : Globals Unit) (fd : ℕ) (a : Arrival) (o : Outside),
    AnsweredOnce s fd a o := by
  intro h
  obtain ⟨-, -, -, w, ⟨as, _, bs, hsplit, -⟩, -⟩ :=
    (answeredOnce_closed_iff Globals.start 5 _ closed_longArrival rfl).mp
      (h Globals.start 5 longArrival
        { body := { opened := true, reads := [], waits := [] }
          stale := .error .uninitialised
          stat := fun _ => true
          fopen := fun _ => some { content := [65], stat := true }
          post := .kind
          writes := [.ok 100] })
  cases as <;> cases hsplit

/-- A request whose client waits for the answer is not answered: `read_event` goes on reading. -/
theorem not_answeredOnce_of_results (s : Globals H) (fd : ℕ) {a : Arrival} (o : Outside)
    {d : Delivery} (hreads : a.reads = d.results) : ¬AnsweredOnce s fd a o := by
  rintro ⟨v, hv, -⟩
  obtain ⟨event, hevent, hv⟩ := bind_eq_ok.mp hv
  obtain ⟨read, hread, hevent⟩ := bind_eq_ok.mp (inMemory_eq_ok.mp hevent)
  have hnone := d.readHead_eq a.head a.fresh a.pool (Nat.zero_le _)
  rw [List.replicate_zero, List.append_nil, ← hreads, hread] at hnone
  obtain rfl := Except.ok.inj hnone
  obtain rfl := Except.ok.inj hevent
  cases hv

end Globals

end Lidas
