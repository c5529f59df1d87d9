import Lidas.Http.Framing
import Lidas.Lib.Assoc
import Mathlib.Data.List.Find

/-!
# Looking up the headers of a request

`hash_search` on the table that `http_parser` filled. The header loop enters the first header
under its name with a line feed in front, and of several keys in a bucket only the first can
be found again. `RequestText.lookup_eq` computes every lookup from the entries of the loop.
-/

namespace Lidas

open CString

/-- `hash_search (name, list, 29, crc32_port)`, with `text` for the memory that the table points
into: the string found. -/
def searchList (text : Block) (list : AttriTable ℕ ℕ) (name : List UInt8) :
    Except Fault (Option (List UInt8)) := do
  let same := fun attri => do return (← cstr text attri) == name
  match ← hashSearch list (crc32Port name listSiz) same with
  | none => return none
  | some content => return some (← cstr text content)

/-- `hash_search (name, t->list, 29, crc32_port)` after `http_parser`: the string found. -/
def lookup (h : Block) (name : List UInt8) : Except Fault (Option (List UInt8)) := do
  let p ← httpParser h
  match p.request with
  | none => return none
  | some t => searchList p.text t.list name

/-- The first entry in the bucket of a name, if it is the name's own. -/
def findEntry (entries : List Entry) (name : List UInt8) : Option Entry :=
  (entries.find? fun e => crc32Port e.key listSiz = crc32Port name listSiz).filter
    fun e => e.key == name

/-- The first call in a bucket stored the first entry in it. -/
theorem find?_setCall {done : List UInt8} {calls : List HeaderCall} {entries : List Entry}
    (h : List.Forall₂ (HeaderCall.Stores done) calls entries) (cnt : ℕ) :
    Option.Rel (fun c e => cstr done c.key = .ok e.key ∧ cstr done c.content = .ok e.content)
      ((List.zipWith HeaderCall.setCall calls entries).find? fun c => c.cnt = cnt)
      (entries.find? fun e => crc32Port e.key listSiz = cnt) := by
  induction h with
  | nil => exact .none
  | @cons c e calls entries hce _ ih =>
    rw [List.zipWith_cons_cons, List.find?_cons, List.find?_cons]
    by_cases hcnt : crc32Port e.key listSiz = cnt
    · have hset : (c.setCall e).cnt = cnt := hcnt
      simp only [hset, hcnt, decide_true]
      exact .some ⟨hce.key, hce.content⟩
    · have hset : (c.setCall e).cnt ≠ cnt := hcnt
      simp only [hset, hcnt, decide_false]
      exact ih

/-- Every key in the table is a string. -/
theorem exists_key {done : List UInt8} {calls : List HeaderCall} {entries : List Entry}
    (h : List.Forall₂ (HeaderCall.Stores done) calls entries) :
    ∀ c ∈ List.zipWith HeaderCall.setCall calls entries, ∃ k, cstr done c.key = .ok k := by
  induction h with
  | nil => simp
  | @cons c e calls entries hce _ ih =>
    intro d hd
    rcases List.mem_cons.mp hd with rfl | hd
    · exact ⟨e.key, hce.key⟩
    · exact ih d hd

/-- **Searches.** What a search in the table of the header loop finds. -/
theorem Entered.searchList {entries : List Entry} {done rest : List UInt8} {s : HeaderState}
    (h : Entered entries done rest s) (name : List UInt8) :
    searchList s.text s.list name = .ok ((findEntry entries name).map Entry.content) := by
  have hkeep : ∀ {i w}, cstr done i = .ok w → cstr s.text i = .ok w := fun hi => by
    rw [h.text]
    exact cstr_mono hi _
  -- `strcmp` succeeds on every key of the table
  let sameB : ℕ → Bool := fun p => match cstr s.text p with
    | .ok k => k == name
    | .error _ => false
  have hsame : ∀ c ∈ List.zipWith HeaderCall.setCall s.calls entries,
      (do return (← cstr s.text c.key) == name : Except Fault Bool) = .ok (sameB c.key) := by
    intro c hc
    obtain ⟨k, hk⟩ := exists_key h.calls c hc
    simp only [sameB, hkeep hk, ok_bind, pure_eq_ok]
  have hsearch : hashSearch s.list (crc32Port name listSiz)
      (fun attri => do return (← cstr s.text attri) == name) = _ :=
    h.list.hashSearch (crc32Port_lt name (by decide)) hsame
  have hfind := find?_setCall h.calls (crc32Port name listSiz)
  simp only [Lidas.searchList, hsearch, ok_bind]
  generalize List.find? _ (List.zipWith HeaderCall.setCall s.calls entries) = call at hfind
  rw [findEntry]
  generalize List.find? _ entries = entry at hfind
  cases hfind with
  | none => rfl
  | @some c e hce =>
    have hkey : sameB c.key = (e.key == name) := by
      simp only [sameB, hkeep hce.1]
    cases heq : e.key == name with
    | true => simp [Option.filter, hkey, heq, hkeep hce.2]
    | false => simp [Option.filter, hkey, heq]

/-- A lookup is a search in the table of the parsed request. -/
theorem lookup_eq_searchList {h : Block} {p : Parsed} {t : HttpRequest}
    (hparse : httpParser h = .ok p) (ht : p.request = some t) (name : List UInt8) :
    lookup h name = Lidas.searchList p.text t.list name := by
  rw [lookup, hparse, ok_bind, ht]

section FindEntry

variable {entries : List Entry} {name : List UInt8} {e : Entry}

theorem findEntry_eq_some (h : findEntry entries name = some e) :
    (entries.find? fun e => crc32Port e.key listSiz = crc32Port name listSiz) = some e ∧
      e.key = name := by
  obtain ⟨hfind, hkey⟩ := Option.filter_eq_some_iff.mp h
  exact ⟨hfind, by simpa using hkey⟩

/-- An entry found is the first one with its key. -/
theorem find?_key_of_findEntry (h : findEntry entries name = some e) :
    (entries.find? fun e => e.key = name) = some e := by
  obtain ⟨hfind, hkey⟩ := findEntry_eq_some h
  obtain ⟨-, as, bs, hsplit, has⟩ := List.find?_eq_some_iff_append.mp hfind
  refine List.find?_eq_some_iff_append.mpr ⟨by simpa using hkey, as, bs, hsplit, fun a ha => ?_⟩
  have hne := has a ha
  simp only [Bool.not_eq_true', decide_eq_false_iff_not] at hne ⊢
  exact fun hak => hne (by rw [hak])

/-- A key that shares its bucket with no other key is found. -/
theorem findEntry_eq_find? (h : ∀ e ∈ entries,
    crc32Port e.key listSiz = crc32Port name listSiz → e.key = name) :
    findEntry entries name = entries.find? fun e => e.key = name := by
  have hbucket : (entries.find? fun e => crc32Port e.key listSiz = crc32Port name listSiz) =
      entries.find? fun e => e.key = name := find?_bucket (f := fun k => crc32Port k listSiz) h
  rw [findEntry, hbucket]
  cases hfind : entries.find? fun e => e.key = name with
  | none => rfl
  | some e =>
    have hkey : e.key = name := by simpa using List.find?_some hfind
    simp [Option.filter, hkey]

end FindEntry

namespace RequestText

variable (r : RequestText)

/-- **Lookups.** What a lookup in a well-formed request finds. -/
theorem lookup_eq (name : List UInt8) :
    lookup (r.text ++ [0]) name = .ok ((findEntry r.entries name).map Entry.content) := by
  obtain ⟨done, s, hentered, hparse⟩ := r.exists_httpParser_eq []
  rw [lookup_eq_searchList hparse rfl, hentered.searchList]

/-- Every header name that occurs is found with the value of its first occurrence, and no
other header name is found. -/
def FindsHeaders : Prop :=
  ∀ name, HeaderName name → lookup (r.text ++ [0]) name =
    .ok ((r.headers.find? fun h => h.name = name).map Header.stripped)

/-- The keys the header loop stores. -/
def storedKeys : List (List UInt8) := (lf :: r.first.name) :: r.others.map Header.name

/-- When lookups go right: the first header is repeated with the same value, the first time
its name comes again, and different stored keys are in different buckets. -/
structure Findable : Prop where
  again : ∃ h, (r.others.find? fun h => h.name = r.first.name) = some h ∧
    h.stripped = r.first.stripped
  buckets : ∀ k ∈ r.storedKeys, ∀ k' ∈ r.storedKeys,
    crc32Port k listSiz = crc32Port k' listSiz → k = k'

theorem map_key_entries : r.entries.map Entry.key = r.storedKeys := by
  simp only [entries, lines, storedKeys, List.map_cons, List.map_map]
  rfl

theorem entries_eq : r.entries = { key := lf :: r.first.name, content := r.first.stripped } ::
    r.others.map fun h => { key := h.name, content := h.stripped } := by
  simp only [entries, lines, List.map_cons, List.map_map]
  rfl

/-- A header name is never the key the first header is stored under. -/
theorem firstKey_ne {name : List UInt8} (hname : HeaderName name) : lf :: r.first.name ≠ name :=
  fun h => hname.lf_notMem (by simp [← h])

/-- Among the entries, a header name can only be found behind the first. -/
theorem find?_key {name : List UInt8} (hname : HeaderName name) :
    (r.entries.find? fun e => e.key = name).map Entry.content =
      (r.others.find? fun h => h.name = name).map Header.stripped := by
  rw [entries_eq, List.find?_cons_of_neg (by simpa using r.firstKey_ne hname), List.find?_map,
    Option.map_map]
  rfl

/-- A header behind the first has this name and this value, and no key stored before it is in
its bucket. -/
def Gives (name w : List UInt8) : Prop :=
  ∃ as h bs, r.others = as ++ h :: bs ∧ h.name = name ∧ h.stripped = w ∧
    ∀ k ∈ (lf :: r.first.name) :: as.map Header.name,
      crc32Port k listSiz ≠ crc32Port name listSiz

/-- The entry that is found for a header name, by the headers. -/
theorem findEntry_gives_iff {name w : List UInt8} (hname : HeaderName name) :
    (findEntry r.entries name).map Entry.content = some w ↔ r.Gives name w := by
  rw [Option.map_eq_some_iff, r.entries_eq]
  constructor
  · rintro ⟨e, he, hcontent⟩
    obtain ⟨hfind, hkey⟩ := findEntry_eq_some he
    obtain ⟨-, as, bs, hsplit, has⟩ := List.find?_eq_some_iff_append.mp hfind
    cases as with
    | nil =>
      obtain ⟨rfl, -⟩ := List.cons.inj hsplit
      exact absurd hkey (r.firstKey_ne hname)
    | cons a as =>
      obtain ⟨rfl, hothers⟩ := List.cons.inj hsplit
      obtain ⟨before, rest, hrest, rfl, hmap⟩ := List.map_eq_append_iff.mp hothers
      obtain ⟨h, after, rfl, rfl, -⟩ := List.map_eq_cons_iff.mp hmap
      refine ⟨before, h, after, hrest, hkey, hcontent, fun k hk => ?_⟩
      rcases List.mem_cons.mp hk with rfl | hk
      · simpa using has _ List.mem_cons_self
      · obtain ⟨d, hd, rfl⟩ := List.mem_map.mp hk
        simpa using has _ (List.mem_cons_of_mem _ (List.mem_map_of_mem hd))
  · rintro ⟨as, h, bs, hothers, rfl, rfl, hbefore⟩
    refine ⟨{ key := h.name, content := h.stripped }, ?_, rfl⟩
    refine Option.filter_eq_some_iff.mpr ⟨List.find?_eq_some_iff_append.mpr ⟨?_,
      { key := lf :: r.first.name, content := r.first.stripped } ::
        as.map fun h => { key := h.name, content := h.stripped },
      bs.map fun h => { key := h.name, content := h.stripped }, by simp [hothers], ?_⟩, ?_⟩
    · simp
    · intro a ha
      have hne := hbefore a.key
      rcases List.mem_cons.mp ha with rfl | ha
      · simpa using hne List.mem_cons_self
      · obtain ⟨d, hd, rfl⟩ := List.mem_map.mp ha
        simpa using hne (List.mem_cons_of_mem _ (List.mem_map_of_mem hd))
    · simp

theorem findable_of_findsHeaders (h : r.FindsHeaders) : r.Findable := by
  -- every header is found, with the value of the first of its name
  have hfound : ∀ d ∈ r.headers, ∃ e, findEntry r.entries d.name = some e ∧
      (r.headers.find? fun h => h.name = d.name).map Header.stripped = some e.content := by
    intro d hd
    have hlookup := h d.name d.name_ok
    rw [r.lookup_eq, Except.ok.injEq] at hlookup
    obtain ⟨d', hd'⟩ : ∃ d', (r.headers.find? fun h => h.name = d.name) = some d' :=
      Option.isSome_iff_exists.mp (List.find?_isSome.mpr ⟨d, hd, by simp⟩)
    rw [hd', Option.map_some] at hlookup ⊢
    obtain ⟨e, he, hcontent⟩ := Option.map_eq_some_iff.mp hlookup
    exact ⟨e, he, by rw [hcontent]⟩
  refine ⟨?_, ?_⟩
  · obtain ⟨e, he, hcontent⟩ := hfound r.first (by simp [headers])
    have hothers := r.find?_key r.first.name_ok
    rw [find?_key_of_findEntry he, Option.map_some] at hothers
    obtain ⟨d, hd, hstripped⟩ := Option.map_eq_some_iff.mp hothers.symm
    refine ⟨d, hd, ?_⟩
    rw [hstripped]
    simpa [headers] using hcontent.symm
  · -- the first entry of the bucket of a later name is that name's own
    have hbucket : ∀ d ∈ r.others, ∃ e, e.key = d.name ∧
        (r.entries.find? fun e => crc32Port e.key listSiz = crc32Port d.name listSiz) = some e := by
      intro d hd
      obtain ⟨e, he, -⟩ := hfound d (by simp [headers, hd])
      exact ⟨e, (findEntry_eq_some he).2, (findEntry_eq_some he).1⟩
    have hfirst : ∀ d ∈ r.others, crc32Port (lf :: r.first.name) listSiz =
        crc32Port d.name listSiz → lf :: r.first.name = d.name := by
      intro d hd hk
      obtain ⟨e, hkey, hfind⟩ := hbucket d hd
      rw [entries_eq, List.find?_cons_of_pos (by simpa using hk), Option.some.injEq] at hfind
      rw [← hkey, ← hfind]
    intro k hk k' hk' heq
    simp only [storedKeys, List.mem_cons, List.mem_map] at hk hk'
    rcases hk with rfl | ⟨d, hd, rfl⟩ <;> rcases hk' with rfl | ⟨d', hd', rfl⟩
    · rfl
    · exact hfirst d' hd' heq
    · exact (hfirst d hd heq.symm).symm
    · obtain ⟨e, hkey, hfind⟩ := hbucket d hd
      obtain ⟨e', hkey', hfind'⟩ := hbucket d' hd'
      rw [heq, hfind', Option.some.injEq] at hfind
      rw [← hkey, ← hkey', hfind]

theorem findsHeaders_of_findable (h : r.Findable) : r.FindsHeaders := by
  intro name hname
  rw [r.lookup_eq, Except.ok.injEq]
  have hkeys : ∀ e ∈ r.entries, e.key ∈ r.storedKeys := fun e he => by
    rw [← map_key_entries]
    exact List.mem_map_of_mem he
  obtain ⟨d, hd, hagain⟩ := h.again
  -- a name among the others has an entry of its own, the first header has none
  by_cases hoccurs : ∃ d ∈ r.others, d.name = name
  · obtain ⟨d', hd', rfl⟩ := hoccurs
    have hstored : d'.name ∈ r.storedKeys := by
      simp only [storedKeys, List.mem_cons, List.mem_map]
      exact Or.inr ⟨d', hd', rfl⟩
    rw [findEntry_eq_find? fun e he => h.buckets _ (hkeys e he) _ hstored, r.find?_key hname,
      headers,
      List.find?_cons]
    by_cases hfirst : r.first.name = d'.name
    · simp only [hfirst, decide_true]
      rw [← hfirst, hd, Option.map_some, Option.map_some, hagain]
    · simp only [hfirst, decide_false]
  · have hnone : findEntry r.entries name = none := by
      refine Option.eq_none_iff_forall_ne_some.mpr fun e he => ?_
      obtain ⟨hfind, hkey⟩ := findEntry_eq_some he
      have hmem := hkeys e (List.mem_of_find?_eq_some hfind)
      simp only [storedKeys, List.mem_cons, List.mem_map] at hmem
      rcases hmem with hfirst | ⟨d', hd', hname'⟩
      · exact r.firstKey_ne hname (by rw [← hfirst, hkey])
      · exact hoccurs ⟨d', hd', by rw [hname', hkey]⟩
    have hfirst : r.first.name ≠ name := fun heq =>
      hoccurs ⟨d, List.mem_of_find?_eq_some hd, by
        have hdname : d.name = r.first.name := by simpa using List.find?_some hd
        rw [hdname, heq]⟩
    have hheaders : (r.headers.find? fun h => h.name = name) = none := by
      refine List.find?_eq_none.mpr fun d' hd' => ?_
      rcases List.mem_cons.mp hd' with rfl | hd'
      · simpa using hfirst
      · exact fun heq => hoccurs ⟨d', hd', by simpa using heq⟩
    rw [hnone, hheaders]
    rfl

/-- The string the first header can be found under, which is no header name. -/
theorem lookup_firstKey :
    lookup (r.text ++ [0]) (lf :: r.first.name) = .ok (some r.first.stripped) := by
  rw [r.lookup_eq, entries_eq, findEntry, List.find?_cons_of_pos (by simp)]
  simp [Option.filter]

/-- **Lookups, exactly.** The headers of a request can be looked up if and only if the first
one is repeated and no two stored keys share a bucket. A string that is no header name is
found in every request. -/
theorem findsHeaders_iff : (r.FindsHeaders ↔ r.Findable) ∧
    ∃ name, (∀ h ∈ r.headers, h.name ≠ name) ∧
      lookup (r.text ++ [0]) name = .ok (some r.first.stripped) :=
  ⟨⟨r.findable_of_findsHeaders, r.findsHeaders_of_findable⟩,
    lf :: r.first.name, fun h _ => (r.firstKey_ne h.name_ok).symm, r.lookup_firstKey⟩

theorem headerName_host : HeaderName (ascii "Host") where
  ne_nil := by decide +kernel
  ok := by decide +kernel

/-- `GET / HTTP/1.1` with the one header line `Host:a`. -/
def oneHeader : RequestText where
  method := ascii "GET"
  url := ascii "/"
  protocal := ascii "HTTP/1.1"
  first := { name := ascii "Host", value := ascii "a", name_ok := headerName_host
             value_ok := by decide +kernel }
  others := []
  body := []
  method_mem := by decide +kernel
  url_ne := by decide +kernel
  url_ok := by decide +kernel
  protocal_mem := by decide +kernel
  body_ok := by decide +kernel

/-- The header of this request is not found. -/
theorem not_findsHeaders_oneHeader : ¬ oneHeader.FindsHeaders := by
  intro h
  have hfound := h (ascii "Host") headerName_host
  have hnone : lookup (oneHeader.text ++ [0]) (ascii "Host") = .ok none := by decide +kernel
  rw [hnone] at hfound
  revert hfound
  decide +kernel

end RequestText

end Lidas
