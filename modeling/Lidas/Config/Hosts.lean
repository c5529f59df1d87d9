import Lidas.Config.HostTable
import Lidas.Http.Lookup
import Lidas.Http.Survival

/-!
# Virtual hosts

`host_search` for the requests that `http_parser` has parsed. It searches the header table for
`host`, in lower case, and hands what it finds to a search of `host_lst` without looking at it,
so a request without such an entry makes `crc32_port` measure `NULL`. The entry it finds need
not be that of the header `Host`. A request without any header does not get so far: `http_parser`
itself uses `NULL` (`httpParser_bareText`).
-/

namespace Lidas.Config

open CString

variable {H : Type}

/-- A step of the parser's memory. -/
def inMemory {α : Type} : Except Fault α → Except LoadFault α := Except.mapError .access

theorem inMemory_eq_ok {α : Type} {x : Except Fault α} {a : α} :
    inMemory x = .ok a ↔ x = .ok a := by
  cases x with
  | error f => exact iff_of_false (fun h => by cases h) fun h => by cases h
  | ok b => exact ⟨fun h => by cases h; rfl, fun h => by cases h; rfl⟩

/-- `host_search`, with `text` for the memory that the table of the headers points into. -/
def hostSearch (s : Globals H) (text : Block) (l : AttriTable ℕ ℕ) :
    Except LoadFault (Option Content) := do
  let same := fun attri => do return (← cstr text attri) == ascii "host"
  match ← inMemory (Lidas.hashSearch l (crc32Port (ascii "host") listSiz) same) with
  -- `crc32_port` takes the length of `name`
  | none => .error (.access .nullDeref)
  | some name => hashSearch s.hostLst (← inMemory (cstr text name)) s.hostHashN

/-- `host_search` is a search for `host` and a search for what it finds. -/
theorem hostSearch_eq_ok {s : Globals H} {text : Block} {l : AttriTable ℕ ℕ}
    {found : Option Content} : hostSearch s text l = .ok found ↔
      ∃ w, searchList text l (ascii "host") = .ok (some w) ∧
        hashSearch s.hostLst w s.hostHashN = .ok found := by
  rw [hostSearch, searchList]
  cases Lidas.hashSearch l (crc32Port (ascii "host") listSiz)
      fun attri => do return (← cstr text attri) == ascii "host" with
  | error f => exact iff_of_false (by rintro ⟨⟩) (by rintro ⟨w, ⟨⟩, -⟩)
  | ok c =>
    cases c with
    | none => exact iff_of_false (by rintro ⟨⟩) (by rintro ⟨w, ⟨⟩, -⟩)
    | some name =>
      change (inMemory (cstr text name) >>= fun w => hashSearch s.hostLst w s.hostHashN) = _ ↔
        ∃ w, (cstr text name >>= fun w => .ok (some w)) = .ok (some w) ∧ _
      constructor
      · intro h
        obtain ⟨w, hw, h⟩ := bind_eq_ok.mp h
        exact ⟨w, bind_eq_ok.mpr ⟨w, inMemory_eq_ok.mp hw, rfl⟩, h⟩
      · rintro ⟨w, hname, h⟩
        obtain ⟨w', hw', hname⟩ := bind_eq_ok.mp hname
        obtain rfl := Option.some.inj (Except.ok.inj hname)
        exact bind_eq_ok.mpr ⟨w', inMemory_eq_ok.mpr hw', h⟩

/-- What `host_search` finds after `http_parser`, by way of the lookup of `host`. -/
theorem hostSearch_eq_ok_of_lookup {s : Globals H} {h : Block} {p : Parsed} {t : HttpRequest}
    {v : Option (List UInt8)} {found : Option Content} (hparse : httpParser h = .ok p)
    (hreq : p.request = some t) (hlookup : lookup h (ascii "host") = .ok v) :
    hostSearch s p.text t.list = .ok found ↔
      ∃ w, v = some w ∧ hashSearch s.hostLst w s.hostHashN = .ok found := by
  rw [lookup_eq_searchList hparse hreq] at hlookup
  simp only [hostSearch_eq_ok, hlookup, Except.ok.injEq]

/-! ### The entry for the host -/

/-- A byte with `A`, …, `Z` made `a`, …, `z`. -/
def lowerByte (c : UInt8) : UInt8 := if 65 ≤ c ∧ c ≤ 90 then c + 32 else c

/-- A header name in lower case. Clients may write it in any case. -/
def lowerName (name : List UInt8) : List UInt8 := name.map lowerByte

/-- The value of the request's first header `Host`, in whatever case its name is written. -/
def hostValue (r : RequestText) : Option (List UInt8) :=
  (r.headers.find? fun h => lowerName h.name = ascii "host").map Header.stripped

/-- A later header is named `host` and has the value, and no header before it is stored in its
bucket. The first header is stored with a line feed in front of its name. -/
def GivesHost (r : RequestText) (w : List UInt8) : Prop :=
  ∃ as h bs, r.others = as ++ h :: bs ∧ h.name = ascii "host" ∧ h.stripped = w ∧
    ∀ k ∈ (lf :: r.first.name) :: as.map Header.name,
      crc32Port k listSiz ≠ crc32Port (ascii "host") listSiz

theorem headerName_lowerHost : HeaderName (ascii "host") where
  ne_nil := by decide +kernel
  ok := by decide +kernel

theorem findEntry_host_iff {r : RequestText} {w : List UInt8} :
    (findEntry r.entries (ascii "host")).map Entry.content = some w ↔ GivesHost r w :=
  r.findEntry_gives_iff headerName_lowerHost

/-! ### Requests without a header -/

/-- The request line of a request and the empty line. No header announces a body. -/
def bareText (r : RequestText) : List UInt8 :=
  r.method ++ sp :: (r.url ++ sp :: (r.protocal ++ [cr, lf, cr, lf]))

/-- The header loop takes the rest of the text as a name, and no content follows. -/
theorem httpParser_bareText (r : RequestText) :
    httpParser (bareText r ++ [0]) = .error .nullDeref := by
  have htext : bareText r ++ [0] = r.requestLine.text ++ [lf, cr, lf, 0] := by
    simp [bareText, RequestText.requestLine, RequestLine.text]
  obtain ⟨pre, hpre⟩ : ∃ pre, pre = r.requestLine.scanned := ⟨_, rfl⟩
  obtain ⟨fuel, hfuel⟩ : ∃ n, (r.requestLine.text ++ [lf, cr, lf, 0]).length = n + 1 :=
    ⟨(r.requestLine.text ++ [lf, cr, lf]).length, by simp⟩
  rw [htext, r.requestLine.httpParser_eq r.method_mem r.protocal_mem (by simp), hfuel, ← hpre]
  have hsplit : TokenSplit [colon, sp] [] [lf, cr, lf] 0 :=
    ⟨by simp, by simp, by decide +kernel, Or.inl rfl⟩
  have hround : headerRound
      { text := pre ++ [lf, cr, lf, 0]
        toklist := some pre.length
        list := AttriTable.empty listSiz
        calls := [] } = .error .nullDeref :=
    headerRound_cut (strtokR_end pre [] hsplit)
  have hpeek : peek (pre ++ [lf, cr, lf, 0]) (some pre.length) = .ok cr := byteAt_append_succ
  rw [parseRest, headerLoop, hpeek, ok_bind, if_neg (by decide), hround]
  rfl

/-! ### Routing -/

/-- The number of the host that a value of the header `Host` asks for. -/
def wanted (hosts : List HostElem) (value : Option (List UInt8)) : Option ℕ :=
  value.bind fun v => hosts.findIdx? fun host => host.hostname = v

/-- A request with this text and this value of `Host` is routed: the hosts are loaded, and
`host_search` returns the `config_info` of the host asked for, or `NULL` if there is none. -/
def Routes (hosts : List HostElem) (text : List UInt8) (value : Option (List UInt8))
    (s₀ : Globals H) : Prop :=
  ∃ s p t, lidaReadHosts hosts s₀ = .ok s ∧
    (s.infos.drop s₀.infos.length).map ConfigInfo.hostname = hosts.map HostElem.hostname ∧
    httpParser (text ++ [0]) = .ok p ∧ p.request = some t ∧
    hostSearch s p.text t.list =
      .ok ((wanted hosts value).map fun i => .info (s₀.infos.length + i))

/-- The string `w` leads to the host asked for: it is the hostname that the header `Host` gives,
or that header gives no hostname and the bucket of `w` exists and is empty. -/
def Agrees (hosts : List HostElem) (value : Option (List UInt8)) (w : List UInt8) : Prop :=
  (∃ host ∈ hosts, value = some host.hostname ∧ w = host.hostname) ∨
    (∀ host ∈ hosts, value ≠ some host.hostname) ∧
      crc32Port w (hosts.length * 2) < hosts.length ∧
      ∀ host ∈ hosts,
        crc32Port host.hostname (hosts.length * 2) ≠ crc32Port w (hosts.length * 2)

theorem wanted_eq_none {hosts : List HostElem} {value : Option (List UInt8)} :
    wanted hosts value = none ↔ ∀ host ∈ hosts, value ≠ some host.hostname := by
  rw [wanted]
  cases value with
  | none => simp
  | some v =>
    rw [Option.bind_some, List.findIdx?_eq_none_iff]
    simp [eq_comm]

theorem exists_of_wanted_eq_some {hosts : List HostElem} {value : Option (List UInt8)} {i : ℕ}
    (h : wanted hosts value = some i) :
    ∃ host, hosts[i]? = some host ∧ value = some host.hostname := by
  obtain ⟨v, hv, hi⟩ := Option.bind_eq_some_iff.mp h
  obtain ⟨hlt, hname, -⟩ := List.findIdx?_eq_some_iff_getElem.mp hi
  have hname' : hosts[i].hostname = v := by simpa using hname
  exact ⟨hosts[i], List.getElem?_eq_getElem hlt, by rw [hv, hname']⟩

theorem findIdx?_congr {α : Type} {P Q : α → Bool} {l : List α} (h : ∀ a ∈ l, P a = Q a) :
    l.findIdx? P = l.findIdx? Q := by
  induction l with
  | nil => rfl
  | cons a l ih =>
    rw [List.findIdx?_cons, List.findIdx?_cons, h a List.mem_cons_self,
      ih fun b hb => h b (List.mem_cons_of_mem a hb)]

section Loaded

variable {hosts : List HostElem} {value : Option (List UInt8)} {n : ℕ} {s : Globals H}

/-- A search of the loaded table. -/
theorem Reading.hashSearch_eq_ok (h : Reading hosts.length n hosts s) {w : List UInt8}
    {found : Option Content} : hashSearch s.hostLst w s.hostHashN = .ok found ↔
      crc32Port w (hosts.length * 2) < hosts.length ∧
        (∀ host ∈ hosts, crc32Port host.hostname (hosts.length * 2) =
          crc32Port w (hosts.length * 2) → host.hostname = w) ∧
        found = (hosts.findIdx? fun host => crc32Port host.hostname (hosts.length * 2) =
          crc32Port w (hosts.length * 2)).map fun i => .info (n + i) := by
  rw [h.hashN, h.table.hashSearch_eq_ok, forall_mem_nodesFrom (P := fun attri =>
      crc32Port attri (hosts.length * 2) = crc32Port w (hosts.length * 2) → attri = w),
    find?_nodesFrom fun attri =>
      crc32Port attri (hosts.length * 2) = crc32Port w (hosts.length * 2)]
  exact and_iff_right_of_imp fun hlt => by omega

/-- Of the loaded hosts, those in a hostname's bucket have that hostname. -/
theorem Reading.hostname_eq (h : Reading hosts.length n hosts s) {host host' : HostElem}
    (hhost : host ∈ hosts) (hhost' : host' ∈ hosts)
    (heq : crc32Port host'.hostname (hosts.length * 2) =
      crc32Port host.hostname (hosts.length * 2)) : host'.hostname = host.hostname := by
  have halone := (forall_mem_nodesFrom (P := fun attri => ∀ p ∈ nodesFrom n hosts,
    crc32Port attri (hosts.length * 2) = crc32Port p.attri (hosts.length * 2) →
      attri = p.attri)).mp h.table.alone host' hhost'
  exact (forall_mem_nodesFrom (P := fun attri =>
    crc32Port host'.hostname (hosts.length * 2) = crc32Port attri (hosts.length * 2) →
      host'.hostname = attri)).mp halone host hhost heq

/-- The search for `w` finds the host asked for if and only if `w` leads to it. -/
theorem Reading.finds_wanted_iff (h : Reading hosts.length n hosts s) (hloadable : Loadable hosts)
    {w : List UInt8} :
    hashSearch s.hostLst w s.hostHashN = .ok ((wanted hosts value).map fun i => .info (n + i)) ↔
      Agrees hosts value w := by
  rw [h.hashSearch_eq_ok]
  constructor
  · rintro ⟨hlt, hsame, hfound⟩
    cases hwanted : wanted hosts value with
    | none =>
      rw [hwanted, eq_comm, Option.map_none, Option.map_eq_none_iff,
        List.findIdx?_eq_none_iff] at hfound
      exact Or.inr ⟨wanted_eq_none.mp hwanted, hlt, fun host hhost => by
        simpa using hfound host hhost⟩
    | some i =>
      obtain ⟨host, hi, hvalue⟩ := exists_of_wanted_eq_some hwanted
      rw [hwanted, eq_comm, Option.map_some, Option.map_eq_some_iff] at hfound
      obtain ⟨j, hj, hij⟩ := hfound
      obtain rfl : j = i := by simpa using hij
      obtain ⟨hlt', hbucket, -⟩ := List.findIdx?_eq_some_iff_getElem.mp hj
      obtain rfl : hosts[j] = host :=
        Option.some.inj ((List.getElem?_eq_getElem hlt').symm.trans hi)
      have hmem : hosts[j] ∈ hosts := List.getElem_mem hlt'
      exact Or.inl ⟨hosts[j], hmem, hvalue, (hsame _ hmem (by simpa using hbucket)).symm⟩
  · rintro (⟨host, hhost, hvalue, rfl⟩ | ⟨hnone, hlt, halone⟩)
    · obtain ⟨as, bs, hsplit⟩ := List.append_of_mem hhost
      have hslot := (hloadable as host bs hsplit).slot
      refine ⟨hslot, fun host' hhost' => h.hostname_eq hhost hhost', ?_⟩
      rw [wanted, hvalue, Option.bind_some]
      refine congrArg (Option.map _) (findIdx?_congr fun host' hhost' => decide_eq_decide.mpr ?_)
      exact ⟨fun hname => by rw [hname], h.hostname_eq hhost hhost'⟩
    · refine ⟨hlt, fun host hhost heq => absurd heq (halone host hhost), ?_⟩
      rw [wanted_eq_none.mpr hnone, List.findIdx?_eq_none_iff.mpr fun host hhost => by
        simpa using halone host hhost]

end Loaded

/-- **Virtual hosts.** A request is routed if and only if the hosts can be loaded and a later
header named `host` gives a string that leads to the host the header `Host` asks for. A request
without a header is never routed. -/
theorem routes_iff (hosts : List HostElem) (r : RequestText) (s₀ : Globals H) :
    (Routes hosts r.text (hostValue r) s₀ ↔
      Loadable hosts ∧ ∃ w, GivesHost r w ∧ Agrees hosts (hostValue r) w) ∧
    ¬Routes hosts (bareText r) none s₀ := by
  have hlookup := r.lookup_eq (ascii "host")
  refine ⟨⟨?_, ?_⟩, ?_⟩
  · rintro ⟨s, p, t, hload, -, hparse, hreq, hsearch⟩
    have hloadable : Loadable hosts := exists_lidaReadHosts_iff.mp ⟨s, hload⟩
    obtain ⟨w, hentry, hsearch⟩ := (hostSearch_eq_ok_of_lookup hparse hreq hlookup).mp hsearch
    exact ⟨hloadable, w, findEntry_host_iff.mp hentry,
      ((reading_of_lidaReadHosts hload).finds_wanted_iff hloadable).mp hsearch⟩
  · rintro ⟨hloadable, w, hgives, hagrees⟩
    obtain ⟨s, hload⟩ := exists_lidaReadHosts_iff.mpr hloadable
    obtain ⟨done, s', -, hparse⟩ := r.exists_httpParser_eq []
    have hreading := reading_of_lidaReadHosts hload
    refine ⟨s, _, _, hload, hreading.names, hparse, rfl, ?_⟩
    exact (hostSearch_eq_ok_of_lookup hparse rfl hlookup).mpr ⟨w, findEntry_host_iff.mpr hgives,
      (hreading.finds_wanted_iff hloadable).mpr hagrees⟩
  · rintro ⟨s, p, t, -, -, hparse, -, -⟩
    rw [httpParser_bareText] at hparse
    cases hparse

/-- One host, with one entry. -/
def oneHost : List HostElem := [{
  hostname := ascii "127.0.0.1"
  path := ascii "/srv/www/htdocs"
  frontpage := ascii "index.html"
  passes := [{ pattern := some (ascii "\\.php$"), text := ascii "apache" }]
  following := 0 }]

/-- `GET / HTTP/1.1` for this host. -/
def hostRequest : RequestText :=
  { RequestText.oneHeader with
    first := { name := ascii "Host", value := ascii "127.0.0.1"
               name_ok := RequestText.headerName_host, value_ok := by decide +kernel } }

/-- The host is loaded, but `host_search` for the request uses `NULL`. -/
theorem not_routes_hostRequest :
    ¬∀ (hosts : List HostElem) (r : RequestText) (s₀ : Globals Unit), 1 ≤ hosts.length →
      (hosts.map HostElem.hostname).Nodup → Routes hosts r.text (hostValue r) s₀ := by
  intro h
  obtain ⟨s, p, t, -, -, hparse, hreq, hsearch⟩ :=
    h oneHost hostRequest Globals.start (by decide) (by simp [oneHost])
  have hnone : lookup (hostRequest.text ++ [0]) (ascii "host") = .ok none := by decide +kernel
  obtain ⟨w, hw, -⟩ := (hostSearch_eq_ok_of_lookup hparse hreq hnone).mp hsearch
  cases hw

end Lidas.Config
