import Lidas.Config.Load

/-!
# Proxy groups

The entries of a `<proxy-pass>` name groups of `proxy.xml`. `load_proxy` enters the groups into
`proxy_lst` with the length `proxy_group_hash_n`, which nobody has set by then. For an entry,
`search_proxy_group` looks into `host_lst`, and all that `host_lst` points to are hosts
(`OnlyInfos`).
-/

namespace Lidas.Config

variable {H : Type}

/-- Every node of the table points to a host. -/
def OnlyInfos (t : Table) : Prop := ∀ p, some p ∈ t → ∃ i, p.content = .info i

theorem onlyInfos_replicate (n : ℕ) : OnlyInfos (List.replicate n none) := fun p hp => by
  simp [List.mem_replicate] at hp

/-- A content found is that of a node of the table. -/
theorem exists_node_of_hashSearch {t : Table} {q : List UInt8} {len : ℕ} {c : Content}
    (h : hashSearch t q len = .ok (some c)) : ∃ p, some p ∈ t ∧ p.content = c := by
  obtain ⟨cnt, -, h⟩ := bind_eq_ok.mp h
  obtain ⟨b, hb, h⟩ := bind_eq_ok.mp h
  cases b with
  | none => simp at h
  | some p =>
    refine ⟨p, ?_, ?_⟩
    · rw [bucket] at hb
      cases hget : t[cnt]? with
      | none =>
        rw [hget] at hb
        cases hb
      | some b =>
        rw [hget] at hb
        cases hb
        exact List.mem_of_getElem? hget
    · exact (Option.some.inj (searchNode_eq_ok.mp h).2).symm

theorem OnlyInfos.hashSet {t t' : Table} {key : List UInt8} {i len : ℕ} (ht : OnlyInfos t)
    (h : hashSet t key (.info i) len = .ok t') : OnlyInfos t' := by
  obtain ⟨cnt, -, h⟩ := bind_eq_ok.mp h
  obtain ⟨b, -, h⟩ := bind_eq_ok.mp h
  cases b with
  | none =>
    obtain rfl := Except.ok.inj h
    intro p hp
    rcases List.mem_or_eq_of_mem_set hp with hp | hp
    · exact ht p hp
    · cases hp
      exact ⟨i, rfl⟩
  | some p => cases h

/-- The `proxy` field points to no group. -/
def ProxyPass.Groupless (a : ProxyPass) : Prop := ∀ i, a.proxy ≠ some (.group i)

section Hosts

variable {s s' : Globals H}

theorem groupless_of_searchProxyGroup (hs : OnlyInfos s.hostLst) {id : List UInt8}
    {c : Option Content} (h : searchProxyGroup s id = .ok c) (i : ℕ) : c ≠ some (.group i) := by
  rintro rfl
  obtain ⟨p, hp, hc⟩ := exists_node_of_hashSearch h
  obtain ⟨j, hj⟩ := hs p hp
  rw [hj] at hc
  cases hc

theorem groupless_of_activeLoop (hs : OnlyInfos s.hostLst) {cnt : ℕ} {acts : List ActiveElem}
    {active : List ProxyPass} (h : activeLoop s cnt acts = .ok active) :
    ∀ a ∈ active, a.Groupless := by
  induction cnt generalizing acts active with
  | zero =>
    obtain rfl := Except.ok.inj h
    simp
  | succ cnt ih =>
    cases acts with
    | nil => cases h
    | cons act next =>
      obtain ⟨proxy, hproxy, h⟩ := bind_eq_ok.mp h
      obtain ⟨rest, hrest, h⟩ := bind_eq_ok.mp h
      obtain rfl := Except.ok.inj h
      intro a ha
      rcases List.mem_cons.mp ha with rfl | ha
      · exact groupless_of_searchProxyGroup hs hproxy
      · exact ih hrest a ha

/-- What the hosts add, and what they leave alone. -/
theorem exists_infos_of_hostLoop (hs : OnlyInfos s.hostLst) {hosts : List HostElem}
    (h : hostLoop hosts s = .ok s') :
    (∃ new, s'.infos = s.infos ++ new ∧ ∀ c ∈ new, ∀ a ∈ c.active, a.Groupless) ∧
      s'.proxyLst = s.proxyLst ∧ s'.proxyLstLen = s.proxyLstLen := by
  induction hosts generalizing s with
  | nil =>
    obtain rfl := Except.ok.inj h
    exact ⟨⟨[], by simp, by simp⟩, rfl, rfl⟩
  | cons host hosts ih =>
    obtain ⟨s₁, hround, h⟩ := bind_eq_ok.mp h
    obtain ⟨active, hostLst, hloop, hset, rfl⟩ := readHost_eq_ok.mp hround
    obtain ⟨⟨new, hnew, hgroupless⟩, hlst, hlen⟩ := ih (hs.hashSet hset) h
    refine ⟨⟨_ :: new, by rw [hnew, List.append_assoc]; rfl, fun c hc => ?_⟩, hlst, hlen⟩
    rcases List.mem_cons.mp hc with rfl | hc
    · exact groupless_of_activeLoop (by exact hs) hloop
    · exact hgroupless c hc

end Hosts

section Load

variable {loadProxyNodes : List NodeElem → Except LoadFault H} {s s' : Globals H}

theorem infos_eq_of_proxyLoop {proxies : List ProxyElem}
    (h : proxyLoop loadProxyNodes proxies s = .ok s') : s'.infos = s.infos := by
  induction proxies generalizing s with
  | nil =>
    obtain rfl := Except.ok.inj h
    rfl
  | cons cur rest ih =>
    obtain ⟨proxyLst, -, h⟩ := bind_eq_ok.mp h
    obtain ⟨nodes, -, h⟩ := bind_eq_ok.mp h
    have hinfos := ih h
    exact hinfos

/-- The first group is entered with the length that was there before. -/
theorem loadProxy_eq_error {cur : ProxyElem} {rest : List ProxyElem}
    (hs : s.proxyGroupHashN = 0) :
    loadProxy loadProxyNodes (cur :: rest) s = .error .divByZero := by
  rw [loadProxy, proxyLoop, hashSet, crc32Mod, if_pos hs]
  rfl

/-- The parts of a load that comes to its end. -/
theorem exists_of_load {files : Files} (h : files.load loadProxyNodes s = .ok s') :
    ∃ s₁ s₂, loadProxy loadProxyNodes files.proxies s = .ok s₁ ∧
      lidaReadHosts files.hosts s₁ = .ok s₂ ∧
      s' = { s₂ with uses := s₂.uses ++ [(s₂.proxyLstLen, s₂.proxyLst.length)] } := by
  obtain ⟨s₁, hproxy, h⟩ := bind_eq_ok.mp h
  obtain ⟨s₂, hhosts, h⟩ := bind_eq_ok.mp h
  obtain ⟨-, -, h⟩ := bind_eq_ok.mp h
  exact ⟨s₁, s₂, hproxy, hhosts, (Except.ok.inj h).symm⟩

/-- No load makes a `proxy` field point to a group. -/
theorem groupless_of_load {files : Files} (h : files.load loadProxyNodes s = .ok s') :
    ∀ c ∈ s'.infos.drop s.infos.length, ∀ a ∈ c.active, a.Groupless := by
  obtain ⟨s₁, s₂, hproxy, hhosts, rfl⟩ := exists_of_load h
  have hinfos := infos_eq_of_proxyLoop hproxy
  obtain ⟨⟨new, hnew, hgroupless⟩, -⟩ :=
    exists_infos_of_hostLoop (onlyInfos_replicate files.hosts.length) hhosts
  have hdrop : s₂.infos.drop s.infos.length = new := by
    rw [hnew, ← hinfos]
    exact List.drop_left
  intro c hc
  exact hgroupless c (hdrop ▸ hc)

end Load

/-- What the `proxy` field of an entry with this text has to be. -/
def Files.declared (files : Files) (text : List UInt8) : Option Content :=
  (files.proxies.findIdx? fun cur => cur.id = text).map .group

/-- The references resolve: the documents are loaded, every entry points to the group its text
names, and `proxy_lst` is always used with its number of slots, which is not zero. -/
def Files.Resolves (files : Files) (loadProxyNodes : List NodeElem → Except LoadFault H) : Prop :=
  ∃ s, files.load loadProxyNodes Globals.start = .ok s ∧
    s.infos.map (fun c => c.active.map ProxyPass.proxy) =
      files.hosts.map (fun host => host.passes.map fun act => files.declared act.text) ∧
    ∀ u ∈ s.uses, u.1 ≠ 0 ∧ u.1 = u.2

/-- Without a group, `proxy_init` uses a table of length zero. -/
theorem zero_mem_uses {files : Files} {loadProxyNodes : List NodeElem → Except LoadFault H}
    {s : Globals H} (hproxies : files.proxies = [])
    (h : files.load loadProxyNodes Globals.start = .ok s) : (0, 0) ∈ s.uses := by
  obtain ⟨s₁, s₂, hproxy, hhosts, rfl⟩ := exists_of_load h
  rw [hproxies] at hproxy
  obtain rfl := Except.ok.inj hproxy
  obtain ⟨-, hlst, hlen⟩ :=
    exists_infos_of_hostLoop (onlyInfos_replicate files.hosts.length) hhosts
  simp [hlst, hlen]

/-- **Proxy groups never resolve.** With a group declared, the load divides by zero; without
one, the traversal uses the length zero. And whatever the globals were, so also when
`lida_reboot` loads again with another length, no entry comes to point to a group. -/
theorem not_resolves (files : Files) (loadProxyNodes : List NodeElem → Except LoadFault H) :
    ¬files.Resolves loadProxyNodes ∧
      (files.proxies ≠ [] → files.load loadProxyNodes Globals.start = .error .divByZero) ∧
      ∀ s₀ s, files.load loadProxyNodes s₀ = .ok s →
        ∀ c ∈ s.infos.drop s₀.infos.length, ∀ a ∈ c.active, a.Groupless := by
  have hzero : files.proxies ≠ [] →
      files.load loadProxyNodes Globals.start = .error .divByZero := by
    intro hproxies
    obtain ⟨cur, rest, hcons⟩ := List.exists_cons_of_ne_nil hproxies
    rw [Files.load, hcons, loadProxy_eq_error rfl, error_bind]
  refine ⟨?_, hzero, fun s₀ s h => groupless_of_load h⟩
  rintro ⟨s, hload, -, huses⟩
  by_cases hproxies : files.proxies = []
  · exact (huses (0, 0) (zero_mem_uses hproxies hload)).1 rfl
  · rw [hzero hproxies] at hload
    cases hload

/-- The documents of the repository: one host, with one entry that names the one group. -/
def oneGroup : Files where
  proxies := [{
    id := ascii "default"
    nodes := [
      { weight := ascii "12", text := ascii "127.0.0.1:1992" },
      { weight := ascii "12", text := ascii "127.0.0.1:3456" },
      { weight := ascii "12", text := ascii "127.0.0.1:1234" }] }]
  hosts := [{
    hostname := ascii "127.0.0.1"
    path := ascii "/srv/www/htdocs"
    frontpage := ascii "index.html"
    passes := [{ pattern := some (ascii "\\.(php|cgi|jsp)$"), text := ascii "default" }]
    following := 0 }]

/-- They are not loaded. -/
theorem not_resolves_oneGroup :
    ¬∀ (files : Files) (loadProxyNodes : List NodeElem → Except LoadFault Unit),
      (files.proxies.map ProxyElem.id).Nodup → files.Resolves loadProxyNodes := by
  intro h
  obtain ⟨s, hload, -⟩ := h oneGroup (fun _ => .ok ()) (by simp [oneGroup])
  have hfault : oneGroup.load (fun _ => .ok ()) Globals.start = .error .divByZero := rfl
  rw [hfault] at hload
  cases hload

end Lidas.Config
