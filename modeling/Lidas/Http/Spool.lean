import Lidas.Http.Lookup
import Lidas.Http.ReadEvent
import Lidas.Lib.Decimal

/-!
# Reading the body of a request

The end of `read_event`: `get_content_len` takes the bytes that have arrived with the header from
the number that the header `Content-Length` gives, and `write_to_stream` reads the others into a
temporary file.

Both count in a `size_t`. A difference that should be negative is a huge number of bytes to wait
for, and the `-1` of an empty socket is a number of bytes to write: the loop of `write_to_stream`
can only end at the end of the stream, `spoolReads_ne_ok`. Its file name is longer than the space
for it.
-/

namespace Lidas

open CString

/-- `get_content_len`, with `text` for the memory that the table points into. -/
def getContentLen (text : Block) (t : AttriTable ℕ ℕ) (offset : ℕ) : Except Fault UInt64 := do
  match ← searchList text t (ascii "Content-Length") with
  | none => return 0
  | some r => return UInt64.ofInt (atoi r) - UInt64.ofNat offset

/-- The outcomes of the calls that `write_to_stream` makes: whether `fopen` succeeds, those of
`read` and those of `thread_event_wait`. A run that comes to the end of a list is inside the
call. -/
structure BodyIo where
  opened : Bool
  reads : List ReadRes
  waits : List ℕ

/-- The variables of `write_to_stream`, the bytes in its file and the outcomes of `read` left. -/
structure Spool where
  sum : UInt64
  bufSiz : UInt64
  file : List UInt8
  left : List ReadRes

/-- What `write_to_stream` returns, `none` for `NULL`, the statuses given to `error_post`, and the
outcomes of `read` left. -/
structure Spooled where
  stream : Option (List UInt8)
  errors : List ℕ
  left : List ReadRes

/-- The end of `write_to_stream` at its label `FAILED`. -/
def Spooled.failed (left : List ReadRes) : Spooled :=
  { stream := none, errors := [503], left := left }

/-- `while ((buf_siz = read (fd, (void *)buf, PAGE_SIZ)) > 0)`. -/
def spoolReads (opened : Bool) :
    List ReadRes → UInt64 → List UInt8 → Except Fault (Option Spool)
  | [], _, _ => .ok none
  | r :: rs, sum, file =>
    let cur := r.cur (UInt64.ofNat pageSiz)
    if 0 < cur then
      -- `fwrite` is to take `buf_siz` bytes from `buf`
      if !opened then .error .nullDeref
      else if pageSiz < cur.toNat then .error .outOfBounds
      else spoolReads opened rs (sum + cur) (file ++ r.bytes (UInt64.ofNat pageSiz))
    else .ok (some { sum := sum, bufSiz := cur, file := file, left := rs })

/-- `while (re_cnt--)`, with `re_cnt` the first number. -/
def spoolRounds (opened : Bool) (size : UInt64) :
    ℕ → List ℕ → List ReadRes → UInt64 → List UInt8 → Except Fault (Option Spooled)
  | 0, _, rs, _, _ => .ok (some (Spooled.failed rs))
  | cnt + 1, ws, rs, sum, file => do
    match ← spoolReads opened rs sum file with
    | none => return none
    | some s =>
      if s.bufSiz < 0 then
        return some (Spooled.failed s.left)
      if size ≤ s.sum then
        return some { stream := some s.file, errors := [], left := s.left }
      match ws with
      | [] => return none
      | w :: ws =>
        if w = 0 then
          spoolRounds opened size cnt ws s.left s.sum s.file
        else
          return some (Spooled.failed s.left)

/-- The string that `sprintf` writes into `fname`. -/
def bufferName (fd : ℕ) : List UInt8 :=
  ascii ("/var/lida/tmp/Buffer_" ++ toString fd ++ ".tmp")

/-- The size of the array `fname`. -/
def fnameSiz : ℕ := 15

/-- `write_to_stream`, for any size of the array `fname`. `none` is a run inside a call. -/
def writeToStream (nameSiz : ℕ) (size : UInt64) (fd : ℕ) (io : BodyIo) :
    Except Fault (Option Spooled) :=
  if (bufferName fd).length < nameSiz then
    spoolRounds io.opened size 10 io.waits io.reads 0 []
  else .error .outOfBounds

/-- The end of `read_event`, behind its call of `http_parser`: the field `f_tmp`. -/
def readBody (nameSiz : ℕ) (text : Block) (p : HttpRequest) (fd : ℕ) (io : BodyIo) :
    Except Fault (Option Spooled) := do
  let bufSiz ← getContentLen text p.list p.offset
  if bufSiz ≠ 0 then
    writeToStream nameSiz bufSiz fd io
  else
    return some { stream := none, errors := [], left := io.reads }

/-! ### Bodies -/

/-- A request that announces a body of `length` bytes in its header `Content-Length`. The request
text ends at the first zero byte of the body, if one has arrived, and `behind` is what has arrived
of the body behind that byte. -/
structure Announced where
  request : RequestText
  behind : Option (List UInt8)
  length : ℕ
  exists_header : ∃ h ∈ request.headers, h.name = ascii "Content-Length"
  numeral : ∀ h ∈ request.headers, h.name = ascii "Content-Length" → Numeral h.stripped length
  fits : (request.text ++ 0 :: behind.getD []).length ≤ 2 * pageSiz

/-- The bytes of the body that have arrived with the header. -/
def Announced.arrived (a : Announced) : List UInt8 :=
  a.request.body ++ (a.behind.map ((0 : UInt8) :: ·)).getD []

/-- The text that `http_parser` is given, with the zero byte at its end. -/
def Announced.memory (a : Announced) : Block := a.request.text ++ 0 :: a.behind.getD []

/-- The bytes read by the given calls. -/
def readBytes (rs : List ReadRes) : List UInt8 := rs.flatMap (ReadRes.bytes (UInt64.ofNat pageSiz))

/-- A way of delivering `need` bytes or more: bytes and `EAGAIN`, which comes fewer than ten
times. -/
structure BodyDelivery (need : ℕ) where
  reads : List ReadRes
  ok : ∀ r ∈ reads, r = .err ∨ ∃ bs, r = .data bs ∧ bs ≠ [] ∧ bs.length ≤ pageSiz
  waits : reads.count .err < 10
  enough : need ≤ (readBytes reads).length

/-- The file can be opened, and the descriptor is ready again after each wait. -/
def BodyDelivery.io {need : ℕ} (d : BodyDelivery need) : BodyIo :=
  { opened := true, reads := d.reads, waits := List.replicate 10 0 }

/-- The stream holds the bytes read. They are at least as many as needed, and none were read when
there were enough already. -/
structure Spools (need : ℕ) (reads : List ReadRes) (stream : Option (List UInt8)) : Prop where
  stream : stream = some (readBytes reads)
  enough : need ≤ (readBytes reads).length
  soon : ∀ pre bs post, reads = pre ++ ReadRes.data bs :: post → (readBytes pre).length < need

/-- The remaining length is right, and if it is positive `f_tmp` is a stream that holds what was
read. Otherwise nothing is read and `f_tmp` is `NULL`. -/
def Announced.SpoolsRight (a : Announced) (nameSiz fd : ℕ) (io : BodyIo) : Prop :=
  ∃ p t len, httpParser a.memory = .ok p ∧ p.request = some t ∧
    getContentLen p.text t.list t.offset = .ok len ∧
    len.toNat = a.length - a.arrived.length ∧
    ∃ s, readBody nameSiz p.text t fd io = .ok (some s) ∧
      if a.arrived.length < a.length then
        ∃ reads, io.reads = reads ++ s.left ∧
          Spools (a.length - a.arrived.length) reads s.stream
      else s.stream = none ∧ s.left = io.reads

/-! ### Runs of `write_to_stream` -/

/-- **No end.** The reading loop is not left before the end of the stream. -/
theorem spoolReads_ne_ok {opened : Bool} {rs : List ReadRes} {sum : UInt64} {file : List UInt8}
    {s : Spool} (h : ∀ r ∈ rs, r = .err ∨ ∃ bs, r = .data bs ∧ bs ≠ []) :
    spoolReads opened rs sum file ≠ .ok (some s) := by
  induction rs generalizing sum file with
  | nil =>
    rintro ⟨⟩
  | cons r rs ih =>
    have hpos : 0 < r.cur (UInt64.ofNat pageSiz) := by
      rcases h r List.mem_cons_self with rfl | ⟨bs, rfl, hne⟩
      · decide
      · have hlen := List.length_pos_of_ne_nil hne
        have hpage : (UInt64.ofNat pageSiz).toNat = 4096 := by decide
        rw [UInt64.lt_iff_toNat_lt, ReadRes.cur, UInt64.toNat_ofNat_of_lt', List.length_take]
        · rw [UInt64.toNat_zero]
          omega
        · rw [List.length_take, hpage]
          show min 4096 bs.length < 2 ^ 64
          omega
    rw [spoolReads, if_pos hpos]
    split_ifs
    · rintro ⟨⟩
    · rintro ⟨⟩
    · exact ih fun r' hr' => h r' (List.mem_cons_of_mem r hr')

/-- So `write_to_stream` does not return. -/
theorem writeToStream_ne_ok {nameSiz fd : ℕ} {size : UInt64} {io : BodyIo} {s : Spooled}
    (h : ∀ r ∈ io.reads, r = .err ∨ ∃ bs, r = .data bs ∧ bs ≠ []) :
    writeToStream nameSiz size fd io ≠ .ok (some s) := by
  rw [writeToStream]
  split_ifs
  · rw [spoolRounds]
    cases hreads : spoolReads io.opened io.reads 0 [] with
    | error f => rintro ⟨⟩
    | ok o =>
      cases o with
      | none => rintro ⟨⟩
      | some s => exact absurd hreads (spoolReads_ne_ok h)
  · rintro ⟨⟩

/-! ### The remaining length -/

/-- The remaining length is 0 if no length is found, or the one found is that of the body that has
arrived. -/
theorem getContentLen_eq_ok_zero_iff {text : Block} {t : AttriTable ℕ ℕ} {offset : ℕ} :
    getContentLen text t offset = .ok 0 ↔
      ∃ v, searchList text t (ascii "Content-Length") = .ok v ∧
        ∀ r, v = some r → UInt64.ofInt (atoi r) = UInt64.ofNat offset := by
  rw [getContentLen]
  cases searchList text t (ascii "Content-Length") with
  | error f => exact iff_of_false (by rintro ⟨⟩) (by rintro ⟨v, ⟨⟩, -⟩)
  | ok v =>
    rw [ok_bind]
    cases v with
    | none => exact iff_of_true rfl ⟨none, rfl, by rintro r ⟨⟩⟩
    | some r =>
      have hsub : UInt64.ofInt (atoi r) - UInt64.ofNat offset = 0 ↔
          UInt64.ofInt (atoi r) = UInt64.ofNat offset := by
        rw [UInt64.sub_eq_iff_eq_add, UInt64.zero_add]
      constructor
      · intro h
        refine ⟨some r, rfl, fun r' hr' => ?_⟩
        obtain rfl := Option.some.inj hr'
        exact hsub.mp (Except.ok.inj h)
      · rintro ⟨v, hv, hlen⟩
        obtain rfl := Except.ok.inj hv
        exact congrArg Except.ok (hsub.mpr (hlen r rfl))

namespace Announced

variable (a : Announced)

theorem headerName_contentLength : HeaderName (ascii "Content-Length") where
  ne_nil := by decide
  ok := by decide +kernel

/-- What has arrived behind the header includes the whole body. -/
theorem body_le_arrived : a.request.body.length ≤ a.arrived.length := by
  rw [arrived, List.length_append]
  exact Nat.le_add_right _ _

/-- Its length is an `int`. -/
theorem arrived_lt : a.arrived.length < 2 ^ 31 := by
  have hfits := a.fits
  simp only [RequestText.text, List.length_append, List.length_cons] at hfits
  have hbehind : ((a.behind.map ((0 : UInt8) :: ·)).getD []).length ≤
      (a.behind.getD []).length + 1 := by
    cases a.behind <;> simp
  rw [arrived, List.length_append]
  simp only [pageSiz] at hfits
  omega

/-- `get_content_len` returns once the headers are entered. -/
theorem exists_getContentLen_eq {s : HeaderState} {done rest : List UInt8} {offset : ℕ}
    (hentered : Entered a.request.entries done rest s) :
    ∃ len, getContentLen s.text s.list offset = .ok len := by
  rw [getContentLen, hentered.searchList, ok_bind]
  cases (findEntry a.request.entries (ascii "Content-Length")).map Entry.content with
  | none => exact ⟨0, rfl⟩
  | some w => exact ⟨_, rfl⟩

/-- The remaining length is 0 if and only if the body ends at the first zero byte that has arrived
or the header is not found. -/
theorem getContentLen_eq_zero_iff {s : HeaderState} {done rest : List UInt8}
    (hentered : Entered a.request.entries done rest s) (hle : a.length ≤ a.arrived.length) :
    getContentLen s.text s.list a.request.body.length = .ok 0 ↔
      a.length = a.request.body.length ∨ ∀ w, ¬a.request.Gives (ascii "Content-Length") w := by
  -- a length that is found is the one announced
  have hfound : ∀ w, a.request.Gives (ascii "Content-Length") w →
      (UInt64.ofInt (atoi w) = UInt64.ofNat a.request.body.length ↔
        a.length = a.request.body.length) := by
    rintro w ⟨as, h, bs, hothers, hname, hstripped, -⟩
    have hmem : h ∈ a.request.headers := by simp [RequestText.headers, hothers]
    have hlt := a.arrived_lt
    have hbody := a.body_le_arrived
    have hatoi : atoi w = a.length := by
      rw [← hstripped]
      exact (a.numeral h hmem hname).atoi (by omega)
    have hint : UInt64.ofInt (a.length : ℤ) = UInt64.ofNat a.length := by
      rw [UInt64.ofInt]
      congr 1
      omega
    rw [hatoi, hint, ← UInt64.toNat_inj,
      UInt64.toNat_ofNat_of_lt' (show a.length < 2 ^ 64 by omega),
      UInt64.toNat_ofNat_of_lt' (show a.request.body.length < 2 ^ 64 by omega)]
  simp only [getContentLen_eq_ok_zero_iff, hentered.searchList, Except.ok.injEq, exists_eq_left',
    a.request.findEntry_gives_iff headerName_contentLength]
  constructor
  · intro hall
    by_cases hgives : ∃ w, a.request.Gives (ascii "Content-Length") w
    · obtain ⟨w, hw⟩ := hgives
      exact Or.inl ((hfound w hw).mp (hall w hw))
    · exact Or.inr fun w hw => hgives ⟨w, hw⟩
  · rintro (heq | hnone) w hw
    · exact (hfound w hw).mpr heq
    · exact absurd hw (hnone w)

/-- A body is read right if and only if it has arrived with the header and the remaining length
is 0. -/
theorem spoolsRight_iff_le {s : HeaderState} {t : HttpRequest} {len : UInt64} {nameSiz fd : ℕ}
    (hparse : httpParser a.memory = .ok { request := some t, text := s.text, calls := s.calls })
    (hlen : getContentLen s.text t.list t.offset = .ok len)
    (d : BodyDelivery (a.length - a.arrived.length)) :
    a.SpoolsRight nameSiz fd d.io ↔ a.length ≤ a.arrived.length ∧ len = 0 := by
  constructor
  · rintro ⟨p, t', len', hparse', hreq, hlen', hright, sp, hread, hstream⟩
    obtain rfl := Except.ok.inj (hparse.symm.trans hparse')
    obtain rfl := Option.some.inj hreq
    obtain rfl := Except.ok.inj (hlen.symm.trans hlen')
    rw [readBody, hlen, ok_bind] at hread
    by_cases hzero : len = 0
    · refine ⟨?_, hzero⟩
      rw [hzero, UInt64.toNat_zero] at hright
      omega
    · rw [if_pos hzero] at hread
      refine absurd hread (writeToStream_ne_ok fun r hr => ?_)
      exact (d.ok r hr).imp_right fun ⟨bs, hbs, hne, _⟩ => ⟨bs, hbs, hne⟩
  · rintro ⟨hle, rfl⟩
    refine ⟨_, t, 0, hparse, rfl, hlen, ?_,
      { stream := none, errors := [], left := d.reads }, ?_, ?_⟩
    · rw [UInt64.toNat_zero]
      omega
    · rw [readBody, hlen, ok_bind]
      rfl
    · rw [if_neg (by omega)]
      exact ⟨rfl, rfl⟩

/-- **Bodies.** A body is read right if and only if all of it has arrived with the header, and
either its length is that of the body up to the first zero byte or the header `Content-Length` is
not found. The size of the array `fname` does not matter. -/
theorem spoolsRight_iff (nameSiz fd : ℕ) (d : BodyDelivery (a.length - a.arrived.length)) :
    a.SpoolsRight nameSiz fd d.io ↔ a.length ≤ a.arrived.length ∧
      (a.length = a.request.body.length ∨
        ∀ w, ¬a.request.Gives (ascii "Content-Length") w) := by
  obtain ⟨done, s, hentered, hparse⟩ := a.request.exists_httpParser_eq (a.behind.getD [])
  obtain ⟨len, hlen⟩ := a.exists_getContentLen_eq hentered
  rw [a.spoolsRight_iff_le hparse hlen]
  refine and_congr_right fun hle => ?_
  rw [← a.getContentLen_eq_zero_iff hentered hle, hlen, Except.ok.injEq]

end Announced

theorem headerName_userAgent : HeaderName (ascii "User-Agent") where
  ne_nil := by decide
  ok := by decide +kernel

theorem post_mem : ascii "POST" ∈ methodLst := by decide

theorem ascii_one : ascii "1" = [49] := by decide

theorem one_ok : ∀ x ∈ ascii "1", x ≠ 0 ∧ x ≠ cr ∧ x ≠ lf := by
  rw [ascii_one, List.forall_mem_singleton]
  decide

theorem numeral_one : Numeral (ascii "1") 1 := by
  rw [ascii_one]
  exact ⟨by decide, List.forall_mem_singleton.mpr rfl, by rfl⟩

theorem ab_ok : (0 : UInt8) ∉ ascii "ab" := by decide

/-- `POST / HTTP/1.1` with the header lines `User-Agent:a` and `Content-Length:1`, and with a body
of two bytes. -/
def tooLongRequest : RequestText :=
  { RequestText.oneHeader with
    method := ascii "POST"
    first := { RequestText.oneHeader.first with
               name := ascii "User-Agent", name_ok := headerName_userAgent }
    others := [{ name := ascii "Content-Length", value := ascii "1"
                 name_ok := Announced.headerName_contentLength, value_ok := one_ok }]
    body := ascii "ab"
    method_mem := post_mem
    body_ok := ab_ok }

/-- Its only `Content-Length` says 1. -/
theorem tooLongRequest_header : ∀ h ∈ tooLongRequest.headers, h.name = ascii "Content-Length" →
    Numeral h.stripped 1 := by
  intro h hh hname
  rcases List.mem_cons.mp hh with rfl | hh
  · exact absurd hname (by decide)
  · obtain rfl := List.mem_singleton.mp hh
    exact numeral_one

theorem tooLongRequest_length : (tooLongRequest.text ++ 0 :: []).length ≤ 2 * pageSiz := by
  decide

/-- The body is longer than announced. -/
def tooLong : Announced where
  request := tooLongRequest
  behind := none
  length := 1
  exists_header := ⟨_, List.mem_cons_of_mem _ List.mem_cons_self, rfl⟩
  numeral := tooLongRequest_header
  fits := tooLongRequest_length

theorem tooLong_ne : tooLong.length ≠ tooLong.request.body.length := by decide

theorem tooLong_le : tooLong.length ≤ tooLong.arrived.length := by decide

/-- Nothing more is sent. -/
def nothing : BodyDelivery (tooLong.length - tooLong.arrived.length) where
  reads := []
  ok := fun _ h => absurd h List.not_mem_nil
  waits := Nat.zero_lt_succ 9
  enough := Nat.le_of_eq (Nat.sub_eq_zero_of_le tooLong_le)

/-- The other header is in another bucket. -/
theorem bucket_ne_contentLength : crc32Port (lf :: ascii "User-Agent") listSiz ≠
    crc32Port (ascii "Content-Length") listSiz := by
  decide +kernel

theorem stripped_one : (ascii "1").dropWhile (· == sp) = ascii "1" := by decide

/-- The search finds the value 1. -/
theorem tooLongRequest_gives : tooLongRequest.Gives (ascii "Content-Length") (ascii "1") := by
  refine ⟨[], _, [], rfl, rfl, stripped_one, fun k hk => ?_⟩
  obtain rfl := List.mem_singleton.mp hk
  exact bucket_ne_contentLength

/-- With one byte announced and two that have arrived, `2^64 - 1` bytes are waited for. -/
theorem not_spoolsRight_tooLong : ¬∀ (a : Announced) (fd : ℕ)
    (d : BodyDelivery (a.length - a.arrived.length)), a.SpoolsRight fnameSiz fd d.io := by
  intro h
  obtain ⟨done, s, hentered, hparse⟩ := tooLong.request.exists_httpParser_eq []
  obtain ⟨len, hlen⟩ := tooLong.exists_getContentLen_eq hentered
  obtain ⟨-, rfl⟩ := (tooLong.spoolsRight_iff_le hparse hlen nothing).mp (h tooLong 0 nothing)
  rcases (tooLong.getContentLen_eq_zero_iff hentered tooLong_le).mp hlen with hlength | hnone
  · exact tooLong_ne hlength
  · exact hnone (ascii "1") tooLongRequest_gives

end Lidas
