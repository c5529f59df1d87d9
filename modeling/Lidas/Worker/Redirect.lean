import Lidas.Config.Hosts
import Lidas.Http.Spool
import Lidas.Http.Tokenized
import Lidas.Send.StaticFile

/-!
# Answering a request

`func_redirect` for a `COMMON_RDEVENT`, from the call of `http_parser` in `read_event` on
(`redirectRead`, and behind a parser with memory of its own `funcRedirect`). Each stage reports a
failure to the next with `NULL`: `read_event` to `host_search`, the search for `host` to the search
of `host_lst`, the search for `Content-type` to `post_file`. Only the results of `host_search` and
`file_search` are tested.

No request is answered with a file. `file_search` returns `NULL` if `strtok_r` has set its save
pointer, as it always does (`fileSearch_eq_none`). The reading of the request is in
`Lidas.Worker.Answered`.
-/

namespace Lidas

open CString
open Config (Globals Content ConfigInfo LoadFault inMemory inMemory_eq_ok hostSearch)

/-- The outcomes of the calls out of the program, and the other values it does not determine: the
string that the pointer `path` of `file_search` addresses before it is set, the paths for which
`stat` succeeds there, the files for `fopen`, and what `post_file` meets in memory. -/
structure Outside where
  body : BodyIo
  stale : Except LoadFault (List UInt8)
  stat : List UInt8 → Bool
  fopen : List UInt8 → Option FileOnDisk
  post : PostMemory
  writes : List WriteRes

/-- The result of `read_event`: the request, `none` for `NULL`, with the memory it points into, and
the statuses given to `error_post`. -/
structure EventRead where
  request : Option HttpRequest
  text : Block
  errors : List ℕ

/-- `read_event` behind its call of `http_parser`. -/
def readRequest (fd : ℕ) (io : BodyIo) (p : Parsed) : Except Fault (Option EventRead) :=
  match p.request with
  | none => return some { request := none, text := p.text, errors := [] }
  | some t => do
    match ← readBody fnameSiz p.text t fd io with
    | none => return none
    | some b => return some { request := some t, text := p.text, errors := b.errors }

/-- `read_event` from its call of `http_parser` on. -/
def readParsed (fd : ℕ) (head : Block) (io : BodyIo) : Except Fault (Option EventRead) := do
  readRequest fd io (← httpParser head)

section Globals

variable {H : Type}

/-- The `struct config_info` that a content points to. -/
def configInfo (s : Globals H) : Content → Except LoadFault ConfigInfo
  | .group _ => .error (.access .outOfBounds)
  | .info i =>
    match s.infos[i]? with
    | none => .error (.access .outOfBounds)
    | some q => .ok q

/-- The byte `'?'`. -/
abbrev question : UInt8 := 63

/-- `file_search`; `none` is `NULL`. -/
def fileSearch (s : Globals H) (o : Outside) (text : Block) (method : Option ℕ) (q : Content)
    (url : Option ℕ) : Except LoadFault (Option (List UInt8)) := do
  let m ← inMemory (deref method >>= cstr text)
  if m ≠ ascii "GET" ∧ m ≠ ascii "HEAD" then
    return none
  let file ← inMemory (strtokR text url [question])
  if file.save ≠ none then
    return none
  let info ← configInfo s q
  -- `path` is not set yet
  let stale ← o.stale
  let name ← if stale = ascii "/" then pure info.frontpage
    else inMemory (deref file.token >>= cstr file.text)
  let path := info.hostname ++ name
  if !o.stat path then
    return none
  return some path

/-- An answer of `error_post`. -/
def Served.error (errors : List ℕ) (status : ℕ) : Served :=
  { errors := errors ++ [status], head := [], contentLength := none, body := [] }

/-- `func_redirect` for a `COMMON_RDEVENT`, behind its call of `read_event`. `none` is a run inside
a call. -/
def redirectRead (s : Globals H) (o : Outside) :
    Option EventRead → Except LoadFault (Option Served)
  | none => return none
  | some r =>
    match r.request with
    -- `r->list`
    | none => throw (.access .nullDeref)
    | some t => do
      match ← hostSearch s r.text t.list with
      | none => return some (Served.error r.errors 400)
      | some q =>
        match ← fileSearch s o r.text t.method q t.url with
        | none => return some (Served.error r.errors 404)
        | some path =>
          let type ← inMemory (searchList r.text t.list (ascii "Content-type"))
          let method ← inMemory (deref t.method >>= cstr r.text)
          let served ← inMemory (postFile type (o.fopen path) method o.post o.writes)
          return some { served with errors := r.errors ++ served.errors }

/-- `func_redirect` for a `COMMON_RDEVENT`, with `head` what `read_event` gives to `http_parser`. -/
def funcRedirect (s : Globals H) (fd : ℕ) (head : Block) (o : Outside) :
    Except LoadFault (Option Served) := do
  redirectRead s o (← inMemory (readParsed fd head o.body))

/-- The number of responses: calls of `error_post`, and the header of `post_header`. -/
def Served.responses (v : Served) : ℕ := v.errors.length + v.contentLength.toList.length

/-! ### The stages -/

/-- No part of the body is waited for: the header `Content-Length` is not found, or it gives the
number of bytes that have arrived. -/
def NoBody (text : Block) (t : HttpRequest) : Prop :=
  ∃ v, searchList text t.list (ascii "Content-Length") = .ok v ∧
    ∀ r, v = some r → UInt64.ofInt (atoi r) = UInt64.ofNat t.offset

/-- The search of `host_lst` for the string is defined: its bucket exists, and a node in it has
this string. -/
def Searchable (s : Globals H) (w : List UInt8) : Prop :=
  0 < s.hostHashN ∧ ∃ p, s.hostLst[crc32Port w s.hostHashN]? = some p ∧
    ∀ node, p = some node → node.attri = w

/-- What `http_parser` leaves is a request, no part of its body is waited for, and the header table
gives a `host` that `host_lst` can be searched for. -/
def HostKnown (s : Globals H) (p : Parsed) : Prop :=
  ∃ t w, p.request = some t ∧ NoBody p.text t ∧
    searchList p.text t.list (ascii "host") = .ok (some w) ∧ Searchable s w

/-- When a request that `http_parser` gets is answered: it is parsed, and its host is known. -/
def Answerable (s : Globals H) (head : Block) : Prop :=
  ∃ p, httpParser head = .ok p ∧ HostKnown s p

/-- A name that begins like those of `write_to_stream` does not fit `fname`. -/
theorem length_bufferName (fd : ℕ) : fnameSiz ≤ (bufferName fd).length := by
  have hprefix : (ascii "/var/lida/tmp/Buffer_").length = 21 := by decide +kernel
  have hsplit : bufferName fd = ascii "/var/lida/tmp/Buffer_" ++ ascii (toString fd ++ ".tmp") := by
    simp only [bufferName, ascii, String.toList_append, List.map_append, List.append_assoc]
  rw [hsplit, List.length_append, hprefix, fnameSiz]
  omega

/-- For a well-formed request, the condition on what `http_parser` leaves is one on its headers and
its body. -/
theorem hostKnown_iff (s : Globals H) (r : RequestText) {post : List UInt8} {p : Parsed}
    (hparse : httpParser (r.text ++ 0 :: post) = .ok p) : HostKnown s p ↔
      (∀ v, r.Gives (ascii "Content-Length") v →
        UInt64.ofInt (atoi v) = UInt64.ofNat r.body.length) ∧
      ∃ w, r.Gives (ascii "host") w ∧ Searchable s w := by
  obtain ⟨done, st, hentered, hparse'⟩ := r.exists_httpParser_eq post
  obtain rfl := Except.ok.inj (hparse'.symm.trans hparse)
  have hlength := fun v => r.findEntry_gives_iff (w := v) Announced.headerName_contentLength
  have hhost := fun w => r.findEntry_gives_iff (w := w) Config.headerName_lowerHost
  constructor
  · rintro ⟨t, w, hreq, ⟨v, hv, hbody⟩, hw, hsearchable⟩
    obtain rfl := Option.some.inj hreq
    rw [hentered.searchList, Except.ok.injEq] at hv hw
    refine ⟨fun v' hv' => hbody v' ?_, w, (hhost w).mp hw, hsearchable⟩
    rw [← hv, (hlength v').mpr hv']
  · rintro ⟨hbody, w, hw, hsearchable⟩
    refine ⟨_, w, rfl, ⟨_, hentered.searchList _, fun v hv => ?_⟩, ?_, hsearchable⟩
    · exact hbody v ((hlength v).mp hv)
    · rw [hentered.searchList, (hhost w).mpr hw]

/-- When a well-formed request is answered. -/
theorem answerable_text_iff (s : Globals H) (r : RequestText) : Answerable s (r.text ++ [0]) ↔
    (∀ v, r.Gives (ascii "Content-Length") v →
      UInt64.ofInt (atoi v) = UInt64.ofNat r.body.length) ∧
    ∃ w, r.Gives (ascii "host") w ∧ Searchable s w := by
  obtain ⟨done, st, -, hparse⟩ := r.exists_httpParser_eq []
  rw [← hostKnown_iff s r hparse]
  refine ⟨?_, fun h => ⟨_, hparse, h⟩⟩
  rintro ⟨p, hparse', hknown⟩
  rwa [Except.ok.inj (hparse.symm.trans hparse')]

/-- Reading a body overruns `fname`, so a request comes out of `read_event` only if no part of
its body is waited for. -/
theorem readRequest_eq_ok {fd : ℕ} {p : Parsed} {io : BodyIo} {r : EventRead} {t : HttpRequest}
    (ht : r.request = some t) : readRequest fd io p = .ok (some r) ↔
      p.request = some t ∧ NoBody p.text t ∧
        r = { request := some t, text := p.text, errors := [] } := by
  rw [readRequest]
  cases hreq : p.request with
  | none =>
    refine iff_of_false (fun h => ?_) fun h => by cases h.1
    obtain rfl := Option.some.inj (Except.ok.inj h)
    cases ht
  | some t' =>
    dsimp only
    constructor
    · intro h
      obtain ⟨b, hbody, h⟩ := bind_eq_ok.mp h
      obtain ⟨len, hlen, hbody⟩ := bind_eq_ok.mp hbody
      have hzero : len = 0 := by
        by_contra hne
        rw [if_pos hne, writeToStream,
          if_neg (Nat.not_lt.mpr (length_bufferName fd))] at hbody
        cases hbody
      subst hzero
      obtain rfl := Except.ok.inj hbody
      obtain rfl := Option.some.inj (Except.ok.inj h)
      obtain rfl := Option.some.inj ht
      exact ⟨rfl, getContentLen_eq_ok_zero_iff.mp hlen, rfl⟩
    · rintro ⟨hsame, hbody, rfl⟩
      obtain rfl := Option.some.inj hsame
      rw [readBody, getContentLen_eq_ok_zero_iff.mpr hbody]
      rfl

/-- When a search of `host_lst` is defined. -/
theorem exists_hashSearch_iff {s : Globals H} {w : List UInt8} :
    (∃ found, Config.hashSearch s.hostLst w s.hostHashN = .ok found) ↔ Searchable s w := by
  constructor
  · rintro ⟨found, h⟩
    obtain ⟨cnt, hcnt, h⟩ := bind_eq_ok.mp h
    obtain ⟨hlen, rfl⟩ := Config.crc32Mod_eq_ok.mp hcnt
    obtain ⟨b, hb, h⟩ := bind_eq_ok.mp h
    rw [Config.bucket] at hb
    cases hslot : s.hostLst[crc32Port w s.hostHashN]? with
    | none =>
      rw [hslot] at hb
      cases hb
    | some p =>
      rw [hslot] at hb
      obtain rfl := Except.ok.inj hb
      refine ⟨hlen, p, hslot, ?_⟩
      rintro node rfl
      exact (Config.searchNode_eq_ok.mp h).1
  · rintro ⟨hlen, p, hslot, hnode⟩
    rw [Config.hashSearch, Config.crc32Mod_eq_ok.mpr ⟨hlen, rfl⟩, ok_bind, Config.bucket, hslot,
      ok_bind]
    cases p with
    | none => exact ⟨none, rfl⟩
    | some node => exact ⟨_, Config.searchNode_eq_ok.mpr ⟨hnode node rfl, rfl⟩⟩

/-- **No files.** Whatever the method and the URL are, `file_search` returns `NULL`. -/
theorem fileSearch_of_cstr {s : Globals H} {o : Outside} {text : Block} {i : ℕ} {m pre u post}
    (hm : cstr text i = .ok m) (htext : text = pre ++ (u ++ 0 :: post)) (q : Content) :
    fileSearch s o text (some i) q (some pre.length) = .ok none := by
  obtain ⟨r, hr, hsave⟩ := exists_strtokR pre [question] (l := u ++ 0 :: post) (by simp)
  have hm' : inMemory (deref (some i) >>= cstr text) = .ok m := inMemory_eq_ok.mpr hm
  have hr' : inMemory (strtokR text (some pre.length) [question]) = .ok r := by
    rw [inMemory_eq_ok, htext]
    exact hr
  rw [fileSearch, hm', ok_bind]
  split_ifs with hget
  · rfl
  · rw [hr', ok_bind, if_pos hsave]
    rfl

/-- So no request that was parsed gets one. -/
theorem fileSearch_eq_none {s : Globals H} {o : Outside} {head : Block} {p : Parsed}
    {t : HttpRequest} (hparse : httpParser head = .ok p) (ht : p.request = some t) (q : Content) :
    fileSearch s o p.text t.method q t.url = .ok none := by
  obtain ⟨i, m, pre, u, post, hmethod, hm, -, hurl, htext⟩ := exists_cstr_request hparse ht
  rw [hmethod, hurl]
  exact fileSearch_of_cstr hm htext q

/-- A request that is answered has no body to wait for and a known host. -/
theorem HostKnown.of_redirectRead {s : Globals H} {fd : ℕ} {p : Parsed} {o : Outside}
    {r : Option EventRead} {v : Served} (hr : readRequest fd o.body p = .ok r)
    (hv : redirectRead s o r = .ok (some v)) : HostKnown s p := by
  cases r with
  | none => cases hv
  | some r =>
    rw [redirectRead] at hv
    cases ht : r.request with
    | none =>
      rw [ht] at hv
      cases hv
    | some t =>
      rw [ht] at hv
      obtain ⟨hreq, hbody, rfl⟩ := (readRequest_eq_ok ht).mp hr
      obtain ⟨found, hsearch, -⟩ := bind_eq_ok.mp hv
      obtain ⟨w, hw, hfound⟩ := Config.hostSearch_eq_ok.mp hsearch
      exact ⟨t, w, hreq, hbody, hw, exists_hashSearch_iff.mp ⟨found, hfound⟩⟩

/-- The response is the error 400 or 404. -/
theorem HostKnown.exists_redirectRead {s : Globals H} {p : Parsed} (h : HostKnown s p)
    {head : Block} (hparse : httpParser head = .ok p) (fd : ℕ) (o : Outside) :
    ∃ r, readRequest fd o.body p = .ok r ∧
      ∃ status ∈ [400, 404], redirectRead s o r = .ok (some (Served.error [] status)) := by
  obtain ⟨t, w, hreq, hbody, hw, hsearchable⟩ := h
  obtain ⟨found, hfound⟩ := exists_hashSearch_iff.mpr hsearchable
  refine ⟨_, (readRequest_eq_ok rfl).mpr ⟨hreq, hbody, rfl⟩, ?_⟩
  have hsearch : hostSearch s p.text t.list = .ok found :=
    Config.hostSearch_eq_ok.mpr ⟨w, hw, hfound⟩
  rw [redirectRead]
  dsimp only
  rw [hsearch, ok_bind]
  cases found with
  | none => exact ⟨400, List.mem_cons_self, rfl⟩
  | some q =>
    refine ⟨404, List.mem_cons_of_mem _ List.mem_cons_self, ?_⟩
    dsimp only
    rw [fileSearch_eq_none hparse hreq q]
    rfl

/-- The response is the error 400 or 404. -/
theorem Answerable.exists_funcRedirect_eq {s : Globals H} {head : Block} (h : Answerable s head)
    (fd : ℕ) (o : Outside) : ∃ status ∈ [400, 404],
      funcRedirect s fd head o = .ok (some (Served.error [] status)) := by
  obtain ⟨p, hparse, hknown⟩ := h
  obtain ⟨r, hr, status, hmem, hrun⟩ := hknown.exists_redirectRead hparse fd o
  refine ⟨status, hmem, ?_⟩
  have hread : inMemory (readParsed fd head o.body) = .ok r := by
    rw [inMemory_eq_ok, readParsed, hparse, ok_bind, hr]
  rw [funcRedirect, hread, ok_bind, hrun]

end Globals

end Lidas
