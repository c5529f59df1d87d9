import Lidas.Worker.Redirect

/-!
# From a URL to a file

`file_search` is to map the URL of a request to a file in the directory of its host. A
`FileSystem` says where the file is that a path names, and a path is right if that place is inside
the directory, whatever components the path has.

`file_search` returns `NULL` for every URL. It takes a save pointer other than `NULL` for the sign
of a query, and `strtok_r` leaves none at `NULL`. What it would go on with compares a `path` that
is not set yet, and joins the name to `hostname` in place of `path`.
-/

namespace Lidas

open CString
open Config (Globals ConfigInfo)

/-- What the kernel makes of a path: the place of the file that it names, as the names on the way
there from the root on. `none` says that there is no such file. A place has no component `.` or
`..`, and no symbolic link. -/
structure FileSystem where
  locate : List UInt8 → Option (List (List UInt8))

/-- The file that `path` names is inside the directory that `dir` names. -/
def FileSystem.Inside (fs : FileSystem) (dir path : List UInt8) : Prop :=
  ∃ d p, fs.locate dir = some d ∧ fs.locate path = some p ∧ d <+: p ∧ d ≠ p

/-- A name under a directory. -/
def under (dir name : List UInt8) : List UInt8 :=
  if name.head? = some slash then dir ++ name else dir ++ slash :: name

/-- The path that a URL stands for. -/
def Config.ConfigInfo.resolve (q : ConfigInfo) (url : List UInt8) : List UInt8 :=
  if url = ascii "/" then under q.path q.frontpage else under q.path url

/-- The arguments `method` and `url` of `file_search`, as pointers into a text. -/
structure FileRequest where
  text : Block
  methodPtr : ℕ
  urlPtr : ℕ
  method : List UInt8
  url : List UInt8
  method_eq : cstr text methodPtr = .ok method
  method_mem : method = ascii "GET" ∨ method = ascii "HEAD"
  url_eq : cstr text urlPtr = .ok url

section Search

variable {H : Type}

/-- The call of `file_search` for the host `i`, with `stat` on the file system. -/
def FileRequest.search (r : FileRequest) (s : Globals H) (i : Fin s.infos.length) (o : Outside)
    (fs : FileSystem) : Except Config.LoadFault (Option (List UInt8)) :=
  fileSearch s { o with stat := fun p => (fs.locate p).isSome } r.text (some r.methodPtr)
    (.info i) (some r.urlPtr)

/-- The URL has a file: it has no query, and it stands for a path to a file inside the directory of
the host. -/
def FileRequest.HasFile (r : FileRequest) (q : ConfigInfo) (fs : FileSystem) : Prop :=
  question ∉ r.url ∧ fs.Inside q.path (q.resolve r.url)

/-- `file_search` returns the path if the URL has a file, and `NULL` otherwise. -/
def FileRequest.SearchesRight (r : FileRequest) (s : Globals H) (i : Fin s.infos.length)
    (o : Outside) (fs : FileSystem) : Prop :=
  ∃ found, r.search s i o fs = .ok found ∧
    ∀ path, found = some path ↔ r.HasFile s.infos[i] fs ∧ path = s.infos[i].resolve r.url

namespace FileRequest

variable (r : FileRequest) (s : Globals H) (i : Fin s.infos.length) (o : Outside) (fs : FileSystem)

theorem search_eq_none : r.search s i o fs = .ok none := by
  obtain ⟨pre, post, htext, hlen, -⟩ := exists_of_cstr r.url_eq
  rw [search, ← hlen]
  exact fileSearch_of_cstr r.method_eq htext _

/-- **The search for a file.** It is right if and only if there is nothing to be found: the URL has
a query, or it stands for no file inside the directory of the host. -/
theorem searchesRight_iff : r.SearchesRight s i o fs ↔
    question ∈ r.url ∨ ¬fs.Inside s.infos[i].path (s.infos[i].resolve r.url) := by
  have hno : question ∈ r.url ∨ ¬fs.Inside s.infos[i].path (s.infos[i].resolve r.url) ↔
      ¬r.HasFile s.infos[i] fs := by
    rw [HasFile, not_and_or, not_not]
  rw [hno]
  constructor
  · rintro ⟨found, hfound, hright⟩ hfile
    rw [r.search_eq_none, Except.ok.injEq] at hfound
    subst hfound
    have hpath := (hright _).mpr ⟨hfile, rfl⟩
    cases hpath
  · intro hnone
    refine ⟨none, r.search_eq_none s i o fs, fun path => ?_⟩
    exact iff_of_false (by simp) fun hfile => hnone hfile.1

end FileRequest

end Search

/-- The request `GET /a`. -/
def getA : FileRequest where
  text := ascii "GET" ++ 0 :: (ascii "/a" ++ [0])
  methodPtr := 0
  urlPtr := 4
  method := ascii "GET"
  url := ascii "/a"
  method_eq := by decide +kernel
  method_mem := Or.inl rfl
  url_eq := by decide +kernel

/-- A host with the directory `/srv`. -/
def srvHost : Globals Unit :=
  { Globals.start with infos := [{ hostname := ascii "h", path := ascii "/srv"
                                   frontpage := ascii "i", active := [] }] }

/-- There is a directory `/srv` with a file `a`. -/
def oneFile : FileSystem where
  locate := fun path =>
    if path = ascii "/srv" then some [ascii "srv"]
    else if path = ascii "/srv/a" then some [ascii "srv", ascii "a"]
    else none

theorem inside_oneFile : oneFile.Inside (ascii "/srv") (ascii "/srv/a") :=
  ⟨[ascii "srv"], [ascii "srv", ascii "a"], by decide +kernel, by decide +kernel,
    List.prefix_append [ascii "srv"] [ascii "a"], by simp⟩

/-- `GET /a` finds nothing, and `/srv/a` is there. -/
theorem not_searchesRight_getA : ¬∀ (r : FileRequest) (s : Globals Unit) (i : Fin s.infos.length)
    (o : Outside) (fs : FileSystem), r.SearchesRight s i o fs := by
  intro h
  obtain ⟨found, hfound, hright⟩ := h getA srvHost ⟨0, Nat.one_pos⟩
    { body := { opened := true, reads := [], waits := [] }
      stale := .error .uninitialised
      stat := fun _ => true
      fopen := fun _ => none
      post := .kind
      writes := [] } oneFile
  rw [getA.search_eq_none, Except.ok.injEq] at hfound
  subst hfound
  have hfile : getA.HasFile srvHost.infos[0] oneFile := ⟨by decide, inside_oneFile⟩
  have hpath := (hright _).mpr ⟨hfile, rfl⟩
  cases hpath

end Lidas
