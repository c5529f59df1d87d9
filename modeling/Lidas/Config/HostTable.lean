import Lidas.Config.Load
import Mathlib.Data.List.Find

/-!
# The table of the hosts

When `lida_read_hosts` comes to its end, and the table it leaves behind. A table that was
filled with keys in buckets of their own `Holds` a node for each; a second key in a bucket is a
use of memory that nobody wrote, and so is a search that meets another key.

`Loads` is what a host must satisfy after the hosts before it. The divisions are by twice the
number of hosts for the hostnames, and by twice a number that depends on the host's own
`<proxy-pass>` for the texts of its entries.
-/

namespace Lidas.Config

/-! ### Filled tables -/

/-- The table has `slots` buckets and was filled with the nodes under the length `len`, each of
them alone in its bucket. -/
structure Holds (slots len : ℕ) (nodes : List Node) (t : Table) : Prop where
  length : t.length = slots
  bucket : ∀ cnt < slots, t[cnt]? = some (nodes.find? fun p => crc32Port p.attri len = cnt)
  alone : ∀ p ∈ nodes, ∀ p' ∈ nodes,
    crc32Port p.attri len = crc32Port p'.attri len → p.attri = p'.attri

/-- An empty table holds no nodes. -/
theorem holds_replicate (slots len : ℕ) : Holds slots len [] (List.replicate slots none) where
  length := List.length_replicate
  bucket := fun cnt h => by simp [h]
  alone := by simp

section Holds

variable {slots len : ℕ} {nodes : List Node} {t : Table}

/-- A bucket inside the table has the node of its checksum. -/
theorem Holds.bucket_eq_ok (h : Holds slots len nodes t) {cnt : ℕ} {b : Option Node} :
    Config.bucket t cnt = .ok b ↔
      cnt < slots ∧ b = nodes.find? fun p => crc32Port p.attri len = cnt := by
  rw [Config.bucket]
  by_cases hcnt : cnt < slots
  · rw [h.bucket cnt hcnt]
    simp [hcnt, eq_comm]
  · have hnone : t[cnt]? = none := List.getElem?_eq_none (by rw [h.length]; omega)
    rw [hnone]
    simp [hcnt]

/-- The checksum is one modulo a length that is not 0. -/
theorem crc32Mod_eq_ok {q : List UInt8} {cnt : ℕ} :
    crc32Mod q len = .ok cnt ↔ 0 < len ∧ cnt = crc32Port q len := by
  rw [crc32Mod]
  rcases Nat.eq_zero_or_pos len with rfl | hlen
  · simp
  · rw [if_neg (Nat.pos_iff_ne_zero.mp hlen)]
    simp [hlen, eq_comm]

/-- `hash_set` succeeds for a key whose bucket exists and is empty. -/
theorem Holds.conditions_of_hashSet (h : Holds slots len nodes t) {t' : Table} {key : List UInt8}
    {c : Content} (hset : hashSet t key c len = .ok t') : crc32Port key len < slots ∧
      ∀ p ∈ nodes, crc32Port p.attri len ≠ crc32Port key len := by
  obtain ⟨cnt, hcnt, hset⟩ := bind_eq_ok.mp hset
  obtain ⟨-, rfl⟩ := crc32Mod_eq_ok.mp hcnt
  obtain ⟨b, hb, hset⟩ := bind_eq_ok.mp hset
  obtain ⟨hlt, rfl⟩ := h.bucket_eq_ok.mp hb
  refine ⟨hlt, fun p hp heq => ?_⟩
  cases hfind : nodes.find? fun p => crc32Port p.attri len = crc32Port key len with
  | none => exact List.find?_eq_none.mp hfind p hp (by simpa using heq)
  | some p =>
    rw [hfind] at hset
    cases hset

/-- A node whose bucket is free and inside the table is entered. -/
theorem Holds.exists_hashSet (h : Holds slots len nodes t) {key : List UInt8} (c : Content)
    (hlen : 0 < len) (hlt : crc32Port key len < slots)
    (halone : ∀ p ∈ nodes, crc32Port p.attri len ≠ crc32Port key len) :
    ∃ t', hashSet t key c len = .ok t' ∧
      Holds slots len (nodes ++ [{ content := c, attri := key }]) t' := by
  have hnone : nodes.find? (fun p => crc32Port p.attri len = crc32Port key len) = none :=
    List.find?_eq_none.mpr fun p hp => by simpa using halone p hp
  refine ⟨t.set (crc32Port key len) (some { content := c, attri := key }), ?_, ?_, ?_, ?_⟩
  · rw [hashSet, crc32Mod_eq_ok.mpr ⟨hlen, rfl⟩, ok_bind,
      h.bucket_eq_ok.mpr ⟨hlt, hnone.symm⟩, ok_bind]
    rfl
  · rw [List.length_set, h.length]
  · intro cnt hcnt
    rw [List.find?_append]
    by_cases heq : crc32Port key len = cnt
    · subst heq
      rw [hnone, List.getElem?_set_self (by rw [h.length]; exact hlt)]
      simp
    · rw [List.getElem?_set_ne heq, h.bucket cnt hcnt]
      simp [heq]
  · intro p hp p' hp' heq
    rcases List.mem_append.mp hp with hp | hp <;> rcases List.mem_append.mp hp' with hp' | hp'
    · exact h.alone p hp p' hp' heq
    · obtain rfl := List.mem_singleton.mp hp'
      exact absurd heq (halone p hp)
    · obtain rfl := List.mem_singleton.mp hp
      exact absurd heq.symm (halone p' hp')
    · rw [List.mem_singleton.mp hp, List.mem_singleton.mp hp']

/-- The keys in a bucket are all the key of the node that the bucket points to. -/
theorem Holds.forall_attri_iff (h : Holds slots len nodes t) {q : List UInt8} {cnt : ℕ} :
    (∀ p ∈ nodes, crc32Port p.attri len = cnt → p.attri = q) ↔
      ∀ p, (nodes.find? fun p => crc32Port p.attri len = cnt) = some p → p.attri = q := by
  refine ⟨fun hall p hp => ?_, fun hfirst p hp hcnt => ?_⟩
  · exact hall p (List.mem_of_find?_eq_some hp) (by simpa using List.find?_some hp)
  · obtain ⟨p₀, hp₀⟩ : ∃ p₀, (nodes.find? fun p => crc32Port p.attri len = cnt) = some p₀ :=
      Option.isSome_iff_exists.mp (List.find?_isSome.mpr ⟨p, hp, by simpa using hcnt⟩)
    have hcnt₀ : crc32Port p₀.attri len = cnt := by simpa using List.find?_some hp₀
    have hmem₀ : p₀ ∈ nodes := List.mem_of_find?_eq_some hp₀
    exact (h.alone p hp p₀ hmem₀ (hcnt.trans hcnt₀.symm)).trans (hfirst p₀ hp₀)

/-- **Searching.** Under any length, a search succeeds if the bucket exists and what is in it
has the key searched for. -/
theorem Holds.hashSearch_eq_ok (h : Holds slots len nodes t) {q : List UInt8} {len' : ℕ}
    {found : Option Content} : hashSearch t q len' = .ok found ↔
      0 < len' ∧ crc32Port q len' < slots ∧
        (∀ p ∈ nodes, crc32Port p.attri len = crc32Port q len' → p.attri = q) ∧
        found = (nodes.find? fun p => crc32Port p.attri len = crc32Port q len').map
          Node.content := by
  rw [h.forall_attri_iff]
  constructor
  · intro hsearch
    obtain ⟨cnt, hcnt, hsearch⟩ := bind_eq_ok.mp hsearch
    obtain ⟨hlen, rfl⟩ := crc32Mod_eq_ok.mp hcnt
    obtain ⟨b, hb, hsearch⟩ := bind_eq_ok.mp hsearch
    obtain ⟨hlt, hfind⟩ := h.bucket_eq_ok.mp hb
    refine ⟨hlen, hlt, ?_⟩
    rw [← hfind]
    cases b with
    | none => exact ⟨nofun, (Except.ok.inj hsearch).symm⟩
    | some p =>
      obtain ⟨hattri, hfound⟩ := searchNode_eq_ok.mp hsearch
      exact ⟨fun p' hp' => Option.some.inj hp' ▸ hattri, hfound⟩
  · rintro ⟨hlen, hlt, hfirst, rfl⟩
    rw [hashSearch, crc32Mod_eq_ok.mpr ⟨hlen, rfl⟩, ok_bind,
      h.bucket_eq_ok.mpr ⟨hlt, rfl⟩, ok_bind]
    cases hfind : nodes.find? fun p => crc32Port p.attri len = crc32Port q len' with
    | none => rfl
    | some p => exact searchNode_eq_ok.mpr ⟨hfirst p hfind, rfl⟩

end Holds

/-! ### The nodes of the hosts -/

/-- The nodes of the hosts, the first of which is the `config_info` number `n`. -/
def nodesFrom : ℕ → List HostElem → List Node
  | _, [] => []
  | n, host :: rest => { content := .info n, attri := host.hostname } :: nodesFrom (n + 1) rest

/-- The last host gets the last number. -/
theorem nodesFrom_concat (n : ℕ) (hosts : List HostElem) (host : HostElem) :
    nodesFrom n (hosts ++ [host]) = nodesFrom n hosts ++
      [{ content := .info (n + hosts.length), attri := host.hostname }] := by
  induction hosts generalizing n with
  | nil => rfl
  | cons e rest ih =>
    rw [List.cons_append, nodesFrom, ih, nodesFrom, List.cons_append, List.length_cons,
      Nat.add_right_comm, Nat.add_assoc]

/-- What holds of all nodes' names holds of all hosts' names. -/
theorem forall_mem_nodesFrom {P : List UInt8 → Prop} {n : ℕ} {hosts : List HostElem} :
    (∀ p ∈ nodesFrom n hosts, P p.attri) ↔ ∀ host ∈ hosts, P host.hostname := by
  induction hosts generalizing n with
  | nil => simp [nodesFrom]
  | cons host rest ih => rw [nodesFrom, List.forall_mem_cons, List.forall_mem_cons, ih]

/-- The first node with a name has the number of the first host with it. -/
theorem find?_nodesFrom (P : List UInt8 → Bool) (n : ℕ) (hosts : List HostElem) :
    ((nodesFrom n hosts).find? fun p => P p.attri).map Node.content =
      (hosts.findIdx? fun host => P host.hostname).map fun i => .info (n + i) := by
  induction hosts generalizing n with
  | nil => rfl
  | cons host rest ih =>
    rw [nodesFrom, List.find?_cons, List.findIdx?_cons]
    cases hP : P host.hostname with
    | true => rfl
    | false =>
      simp only [Bool.false_eq_true, if_false, ih, Option.map_map]
      refine congrArg (fun f => Option.map f _) (funext fun i => ?_)
      rw [Function.comp_apply, Nat.add_right_comm, Nat.add_assoc]

/-! ### The hosts in turn -/

/-- What the loop of `xml_get_active` needs: an entry for each round, and a search for each that
succeeds. -/
theorem exists_activeLoop_iff {H : Type} {s : Globals H} {cnt : ℕ} {acts : List ActiveElem} :
    (∃ active, activeLoop s cnt acts = .ok active) ↔
      cnt ≤ acts.length ∧ ∀ act ∈ acts.take cnt, ∃ c, searchProxyGroup s act.text = .ok c := by
  induction cnt generalizing acts with
  | zero => simp [activeLoop]
  | succ cnt ih =>
    cases acts with
    | nil => simp [activeLoop]
    | cons act next =>
      rw [List.take_succ_cons, List.forall_mem_cons, List.length_cons, Nat.add_le_add_iff_right,
        and_left_comm, ← ih]
      constructor
      · rintro ⟨active, h⟩
        obtain ⟨proxy, hproxy, h⟩ := bind_eq_ok.mp h
        obtain ⟨rest, hrest, -⟩ := bind_eq_ok.mp h
        exact ⟨⟨proxy, hproxy⟩, rest, hrest⟩
      · rintro ⟨⟨proxy, hproxy⟩, rest, hrest⟩
        exact ⟨{ pattern := act.pattern, proxy := proxy } :: rest, by
          simp only [activeLoop, hproxy, hrest, ok_bind, pure_eq_ok]⟩

/-- What a host must satisfy after the earlier ones, with `slots` hosts in all: there are as many
entries as `xml_get_active` counts, each of these can be searched for, and the bucket of the
hostname exists and is empty. -/
structure Loads (slots : ℕ) (earlier : List HostElem) (host : HostElem) : Prop where
  entries : host.following + 1 ≤ host.passes.length
  searches : ∀ act ∈ host.passes.take (host.following + 1),
    crc32Port act.text ((host.following + 1) * 2) < slots ∧ ∀ e ∈ earlier,
      crc32Port e.hostname (slots * 2) = crc32Port act.text ((host.following + 1) * 2) →
        e.hostname = act.text
  slot : crc32Port host.hostname (slots * 2) < slots
  alone : ∀ e ∈ earlier,
    crc32Port e.hostname (slots * 2) ≠ crc32Port host.hostname (slots * 2)

/-- The state of the loop after the hosts `done`; `n` `config_info`s were there before. -/
structure Reading {H : Type} (slots n : ℕ) (done : List HostElem) (s : Globals H) : Prop where
  hashN : s.hostHashN = slots * 2
  table : Holds slots (slots * 2) (nodesFrom n done) s.hostLst
  length : s.infos.length = n + done.length
  names : (s.infos.drop n).map ConfigInfo.hostname = done.map HostElem.hostname

section Reading

variable {H : Type} {slots n : ℕ} {done : List HostElem} {host : HostElem} {s s' : Globals H}

/-- A search returns if its bucket is inside the table and has no other host in it. -/
theorem Reading.searches_iff (h : Reading slots n done s) (text : List UInt8) (k : ℕ) :
    (∃ c, searchProxyGroup { s with proxyGroupHashN := (k + 1) * 2 } text = .ok c) ↔
      crc32Port text ((k + 1) * 2) < slots ∧ ∀ e ∈ done,
        crc32Port e.hostname (slots * 2) = crc32Port text ((k + 1) * 2) → e.hostname = text := by
  simp only [searchProxyGroup, h.table.hashSearch_eq_ok]
  rw [forall_mem_nodesFrom (P := fun attri =>
    crc32Port attri (slots * 2) = crc32Port text ((k + 1) * 2) → attri = text)]
  constructor
  · rintro ⟨c, -, hlt, hall, -⟩
    exact ⟨hlt, hall⟩
  · rintro ⟨hlt, hall⟩
    exact ⟨_, by omega, hlt, hall, rfl⟩

/-- One round needs what the host must satisfy, and it enters the host. -/
theorem Reading.readHost (h : Reading slots n done s) (hround : readHost host s = .ok s') :
    Loads slots done host ∧ Reading slots n (done ++ [host]) s' := by
  obtain ⟨active, hostLst, hloop, hset, rfl⟩ := readHost_eq_ok.mp hround
  obtain ⟨hentries, hsearches⟩ := exists_activeLoop_iff.mp ⟨active, hloop⟩
  rw [h.hashN] at hset
  obtain ⟨hslot, halone⟩ := h.table.conditions_of_hashSet hset
  have hlen : 0 < slots * 2 := by omega
  obtain ⟨hostLst', hset', htable⟩ :=
    h.table.exists_hashSet (.info s.infos.length) hlen hslot halone
  obtain rfl := Except.ok.inj (hset.symm.trans hset')
  refine ⟨⟨hentries, fun act hact => (h.searches_iff _ _).mp (hsearches act hact), hslot,
    (forall_mem_nodesFrom (P := fun attri =>
      crc32Port attri (slots * 2) ≠ crc32Port host.hostname (slots * 2))).mp halone⟩,
    h.hashN, ?_, ?_, ?_⟩
  · rw [nodesFrom_concat, ← h.length]
    exact htable
  · simp [h.length, Nat.add_assoc]
  · rw [List.drop_append_of_le_length (by rw [h.length]; omega)]
    simp [h.names]

/-- A host that can be loaded is read. -/
theorem Reading.exists_readHost (h : Reading slots n done s) (hloads : Loads slots done host) :
    ∃ s', Config.readHost host s = .ok s' := by
  obtain ⟨active, hloop⟩ :=
    (exists_activeLoop_iff (s := { s with proxyGroupHashN := (host.following + 1) * 2 })).mpr
      ⟨hloads.entries, fun act hact => (h.searches_iff _ _).mpr (hloads.searches act hact)⟩
  have hslot := hloads.slot
  obtain ⟨hostLst, hset, -⟩ := h.table.exists_hashSet (.info s.infos.length) (by omega) hslot
    ((forall_mem_nodesFrom (P := fun attri =>
      crc32Port attri (slots * 2) ≠ crc32Port host.hostname (slots * 2))).mpr hloads.alone)
  exact ⟨_, readHost_eq_ok.mpr ⟨active, hostLst, hloop, by rw [h.hashN]; exact hset, rfl⟩⟩

/-- **The loop over the hosts.** It comes to its end if and only if every host loads after those
before it, and then all of them are in the table. -/
theorem Reading.hostLoop (h : Reading slots n done s) (rest : List HostElem) :
    ((∃ s', Config.hostLoop rest s = .ok s') ↔
      ∀ as host bs, rest = as ++ host :: bs → Loads slots (done ++ as) host) ∧
    ∀ s', Config.hostLoop rest s = .ok s' → Reading slots n (done ++ rest) s' := by
  induction rest generalizing done s with
  | nil =>
    refine ⟨iff_of_true ⟨s, rfl⟩ fun as host bs hsplit => by simp at hsplit, fun s' hloop => ?_⟩
    obtain rfl := Except.ok.inj hloop
    simpa using h
  | cons host rest ih =>
    refine ⟨⟨?_, fun hloads => ?_⟩, fun s' hloop => ?_⟩
    · rintro ⟨s', hloop⟩ as e bs hsplit
      obtain ⟨s₁, hround, hloop⟩ := bind_eq_ok.mp hloop
      obtain ⟨hhost, h₁⟩ := h.readHost hround
      cases as with
      | nil =>
        obtain ⟨rfl, -⟩ := List.cons.inj hsplit
        simpa using hhost
      | cons a as =>
        obtain ⟨rfl, hrest⟩ := List.cons.inj hsplit
        have hlater := (ih h₁).1.mp ⟨s', hloop⟩ as e bs hrest
        simpa using hlater
    · have hhost : Loads slots done host := by simpa using hloads [] host rest rfl
      obtain ⟨s₁, hround⟩ := h.exists_readHost hhost
      obtain ⟨s', hloop⟩ := (ih (h.readHost hround).2).1.mpr fun as e bs hrest => by
        simpa using hloads (host :: as) e bs (by rw [hrest]; rfl)
      exact ⟨s', by rw [Config.hostLoop, hround, ok_bind, hloop]⟩
    · obtain ⟨s₁, hround, hloop⟩ := bind_eq_ok.mp hloop
      have hend := (ih (h.readHost hround).2).2 s' hloop
      simpa using hend

end Reading

/-- The hosts can be loaded: each of them loads after those before it. -/
def Loadable (hosts : List HostElem) : Prop :=
  ∀ as host bs, hosts = as ++ host :: bs → Loads hosts.length as host

/-- The globals before the loop of `lida_read_hosts`. -/
theorem reading_start {H : Type} (hosts : List HostElem) (s : Globals H) :
    Reading hosts.length s.infos.length []
      { s with
        hostHashN := hosts.length * 2
        hostLst := List.replicate hosts.length none } where
  hashN := rfl
  table := holds_replicate _ _
  length := rfl
  names := by simp

/-- When `lida_read_hosts` comes to its end. -/
theorem exists_lidaReadHosts_iff {H : Type} {hosts : List HostElem} {s : Globals H} :
    (∃ s', lidaReadHosts hosts s = .ok s') ↔ Loadable hosts := by
  have hloop := ((reading_start hosts s).hostLoop hosts).1
  simp only [List.nil_append] at hloop
  exact hloop

/-- After all hosts, the table is that of all of them. -/
theorem reading_of_lidaReadHosts {H : Type} {hosts : List HostElem} {s s' : Globals H}
    (h : lidaReadHosts hosts s = .ok s') : Reading hosts.length s.infos.length hosts s' :=
  ((reading_start hosts s).hostLoop hosts).2 s' h

end Lidas.Config
