import Lidas.Listener.KeepAlive
import Lidas.Worker.QueueChain

/-!
# Blocks and their caches

`mem_cache_free` puts what it is given on the free list of the cache it is given. Four places call
it: `timer_cleaner` for a timer, `request_destruct` for an event object, `queue_chain_out` for a
node, and a worker that takes `SIGINT` for its own `thread_data_t`. The timers and the nodes always
come from the cache they are given back to. An event object comes from `event_data_pool` only if
`listen_event` made it, not `EVENT_ADD`, and a `thread_data_t` always comes from `malloc`.

`Process` is a process with the connections of `Listener.Connections` and the queue of its
workers.
-/

namespace Lidas

namespace Connections

/-! ### Event objects -/

/-- Whoever has a block of `event_data_pool`, it is handed out, and nobody but `request_destruct`
has the one it gives back. `epoll` has an object under its descriptor. -/
structure Held (c : Config) (s : State) : Prop where
  events : s.events.Sound
  free_cached : ∀ k, .pooled k ∉ s.events.free
  out_cached : ∀ k, .pooled k ∉ s.events.out
  registered : ∀ x i, s.epoll x = some (.cached i) → .cached i ∈ s.events.out ∧
    (s.object (.cached i)).fd = x ∧ s.destructing ≠ some (.cached i)
  given : ∀ i, s.given (.cached i) = true →
    .cached i ∈ s.events.out ∧ s.destructing ≠ some (.cached i)
  destructing : ∀ i, s.destructing = some (.cached i) → .cached i ∈ s.events.out
  backend : ∀ i, .cached i ∈ s.events.out → c.NoClient (s.object (.cached i)).pfd

section Held

variable {c : Config} {s s' : State} {l : Label} {a : Addr}

/-- At the start nothing is handed out and nothing is registered. -/
theorem held_start (c : Config) : Held c (start c) where
  events := by
    refine ⟨List.nodup_range.map fun i j hij => ?_, fun _ _ => by simp [start]⟩
    exact Addr.cached.inj hij
  free_cached k := by simp [start]
  out_cached k := by simp [start]
  registered x i h := by cases h
  given i h := by cases h
  destructing i h := by cases h
  backend i h := by simp [start] at h

/-- An object may be written if one that is handed out keeps its descriptor and gets no client's for
its backend. -/
theorem Held.setObject (h : Held c s) {e : EventData} (he : ∀ i, a = .cached i →
    .cached i ∈ s.events.out → e.fd = (s.object a).fd ∧ c.NoClient e.pfd) :
    Held c (s.setObject a e) := by
  refine { h with registered := fun x i hx => ?_, backend := fun i hi => ?_ }
  · obtain ⟨hout, hfd, hdes⟩ := h.registered x i hx
    refine ⟨hout, ?_, hdes⟩
    by_cases ha : .cached i = a
    · rw [State.setObject_object, ha, Function.update_self, (he i ha.symm hout).1, ← ha, hfd]
    · rw [State.setObject_object, Function.update_of_ne ha, hfd]
  · by_cases ha : .cached i = a
    · rw [State.setObject_object, ha, Function.update_self]
      exact (he i ha.symm hi).2
    · rw [State.setObject_object, Function.update_of_ne ha]
      exact h.backend i hi

/-- A worker may get an object that is handed out and is not being given back. -/
theorem Held.setGiven (h : Held c s) {given : Bool} (ha : given = true → ∀ i, a = .cached i →
    .cached i ∈ s.events.out ∧ s.destructing ≠ some (.cached i)) :
    Held c (s.setGiven a given) := by
  refine { h with given := fun i hi => ?_ }
  by_cases hia : .cached i = a
  · rw [State.setGiven_given, hia, Function.update_self] at hi
    exact ha hi i hia.symm
  · rw [State.setGiven_given, Function.update_of_ne hia] at hi
    exact h.given i hi

/-- The epoll set changes, but for objects that may be there. -/
theorem Held.setEpoll (h : Held c s) {epoll : ℕ → Option Addr}
    (hepoll : ∀ x i, epoll x = some (.cached i) → s.epoll x = some (.cached i) ∨
      .cached i ∈ s.events.out ∧ (s.object (.cached i)).fd = x ∧
        s.destructing ≠ some (.cached i)) : Held c { s with epoll := epoll } := by
  refine { h with registered := fun x i hx => ?_ }
  rcases hepoll x i hx with hold | hnew
  · exact h.registered x i hold
  · exact hnew

/-- A descriptor that is removed from the epoll set leaves the others registered. -/
theorem Held.epollDel (h : Held c s) (fd : ℕ) : Held c (s.epollDel fd) := by
  refine h.setEpoll fun x i hx => Or.inl ?_
  by_cases hfd : x = fd
  · rw [hfd, Function.update_self] at hx
    cases hx
  · rwa [Function.update_of_ne hfd] at hx

/-- A descriptor may be registered again with an object of its own that is handed out. -/
theorem Held.epollMod (h : Held c s) {fd : ℕ} (ha : ∀ i, a = .cached i →
    .cached i ∈ s.events.out ∧ (s.object (.cached i)).fd = fd ∧
      s.destructing ≠ some (.cached i)) : Held c (s.epollMod fd a) := by
  refine h.setEpoll fun x i hx => ?_
  split_ifs at hx
  · exact Or.inl hx
  · by_cases hfd : x = fd
    · rw [hfd, Function.update_self, Option.some.injEq] at hx
      exact Or.inr (hfd ▸ ha i hx)
    · rw [Function.update_of_ne hfd] at hx
      exact Or.inl hx

theorem Held.epollAdd (h : Held c s) {fd : ℕ} (ha : ∀ i, a = .cached i →
    .cached i ∈ s.events.out ∧ (s.object (.cached i)).fd = fd ∧
      s.destructing ≠ some (.cached i)) : Held c (s.epollAdd fd a) := by
  refine h.setEpoll fun x i hx => ?_
  split_ifs at hx
  · by_cases hfd : x = fd
    · rw [hfd, Function.update_self, Option.some.injEq] at hx
      exact Or.inr (hfd ▸ ha i hx)
    · rw [Function.update_of_ne hfd] at hx
      exact Or.inl hx
  · exact Or.inl hx

/-- Other fields do not matter. -/
theorem Held.of_eq (h : Held c s) (hevents : s'.events = s.events) (hobject : s'.object = s.object)
    (hepoll : s'.epoll = s.epoll) (hgiven : s'.given = s.given)
    (hdes : s'.destructing = s.destructing) : Held c s' := by
  refine ⟨?_, ?_, ?_, ?_, ?_, ?_, ?_⟩ <;> simp only [hevents, hobject, hepoll, hgiven, hdes]
  exacts [h.events, h.free_cached, h.out_cached, h.registered, h.given, h.destructing, h.backend]

/-- The invariant does not read the timers. -/
theorem Held.setTimers (h : Held c s) (t : Timers) : Held c { s with timers := t } :=
  h.of_eq rfl rfl rfl rfl rfl

theorem Held.crash (h : Held c s) : Held c s.crash := h.of_eq rfl rfl rfl rfl rfl

/-- A worker that is reset gives its object up. -/
theorem Held.reset (h : Held c s) (fd : ℕ) : Held c (s.reset fd) := by
  refine { h with given := fun i hi => ?_ }
  rw [State.reset_given, Bool.and_eq_true] at hi
  exact h.given i hi.1

/-- What `timer_cleaner` does besides keeps the invariant. -/
theorem Held.forget (h : Held c s) (fd pfd : ℕ) : Held c (s.forget fd pfd) := by
  rw [State.forget]
  split_ifs
  · exact (h.epollDel fd).reset fd
  · exact ((h.epollDel pfd).epollDel fd).reset fd

theorem forget_events (s : State) (fd pfd : ℕ) : (s.forget fd pfd).events = s.events := by
  rw [State.forget]
  split_ifs <;> rfl

theorem forget_object (s : State) (fd pfd : ℕ) : (s.forget fd pfd).object = s.object := by
  rw [State.forget]
  split_ifs <;> rfl

/-- A connection that `timer_cleaner` has cleaned is not registered. -/
theorem forget_epoll_self (s : State) (fd pfd : ℕ) : (s.forget fd pfd).epoll fd = none := by
  rw [State.forget]
  split_ifs <;> simp

/-- No worker is left with an object of the descriptor. -/
theorem fd_ne_of_forget_given {fd pfd : ℕ} (ha : (s.forget fd pfd).given a = true) :
    (s.object a).fd ≠ fd := by
  rw [State.forget] at ha
  split_ifs at ha <;> simpa using (Bool.and_eq_true_iff.mp ha).2

/-- What is left of a connection is the object that `request_destruct` has. -/
theorem Held.destruct (h : Held c s) {fd : ℕ} (pfd : ℕ) (ha : ∀ i, a = .cached i →
    .cached i ∈ s.events.out ∧ (s.object (.cached i)).fd = fd) :
    Held c { s.forget fd pfd with destructing := some a } := by
  have hforget := h.forget fd pfd
  refine { hforget with
    registered := fun x i hx => ?_, given := fun i hi => ?_, destructing := fun i hi => ?_ }
  · obtain ⟨hout, hfd, -⟩ := hforget.registered x i hx
    refine ⟨hout, hfd, fun hdes => ?_⟩
    -- the descriptor of the object is not registered any more
    rw [forget_object, (ha i (Option.some.inj hdes)).2] at hfd
    rw [← hfd, forget_epoll_self] at hx
    cases hx
  · refine ⟨(hforget.given i hi).1, fun hdes => ?_⟩
    exact fd_ne_of_forget_given hi (ha i (Option.some.inj hdes)).2
  · rw [forget_events]
    exact (ha i (Option.some.inj hi)).1

/-- `listen_event` makes an object of a block. -/
theorem Held.alloc (h : Held c s) (hdes : s.destructing = none) {events : FreeList Addr}
    (opened : Finset ℕ) (fd : ℕ) (halloc : s.events.alloc = some (a, events)) :
    a ∈ events.out ∧ Held c (State.setObject { s with opened := opened, events := events } a
        { fd := fd, pfd := 0, type := .commonRdEvent, node := none }) := by
  obtain ⟨hfree, hout⟩ := FreeList.alloc_eq_some halloc
  have hfresh := h.events.not_mem_of_alloc halloc
  have hcached : ∀ k, a ≠ .pooled k := fun k heq =>
    h.free_cached k (by rw [hfree, heq]; exact List.mem_cons_self)
  have hold : ∀ i, .cached i ∈ s.events.out → .cached i ∈ events.out ∧ .cached i ≠ a :=
    fun i hi => ⟨by rw [hout]; exact Finset.mem_insert_of_mem hi, fun heq => hfresh (heq ▸ hi)⟩
  refine ⟨by rw [hout]; exact Finset.mem_insert_self a _, h.events.alloc halloc, fun k hk => ?_,
    fun k hk => ?_, fun x i hx => ?_, fun i hi => ?_, fun i hi => ?_, fun i hi => ?_⟩
  · exact h.free_cached k (by rw [hfree]; exact List.mem_cons_of_mem a hk)
  · rw [State.setObject_events, hout] at hk
    rcases Finset.mem_insert.mp hk with heq | hk
    · exact hcached k heq.symm
    · exact h.out_cached k hk
  · obtain ⟨hiout, hfd, hides⟩ := h.registered x i hx
    refine ⟨(hold i hiout).1, ?_, hides⟩
    rw [State.setObject_object, Function.update_of_ne (hold i hiout).2, hfd]
  · obtain ⟨hiout, hides⟩ := h.given i hi
    exact ⟨(hold i hiout).1, hides⟩
  · rw [State.setObject_destructing, hdes] at hi
    cases hi
  · by_cases hia : .cached i = a
    · rw [State.setObject_object, hia, Function.update_self]
      exact Or.inl rfl
    · rw [State.setObject_events, hout] at hi
      rw [State.setObject_object, Function.update_of_ne hia]
      exact h.backend i ((Finset.mem_insert.mp hi).resolve_left hia)

/-- `request_destruct` gives back a block. -/
theorem Held.release (h : Held c s) {i : ℕ} (hi : s.destructing = some (.cached i)) :
    Held c { s with events := s.events.release (.cached i), destructing := none } := by
  have hne : ∀ j, s.destructing ≠ some (.cached j) → (.cached j : Addr) ≠ .cached i :=
    fun j hj heq => hj (by rw [hi, heq])
  refine ⟨h.events.release (h.destructing i hi), fun k hk => ?_, fun k hk => ?_, fun x j hx => ?_,
    fun j hj => ?_, fun j hj => (nomatch hj), fun j hj => ?_⟩
  · rcases List.mem_cons.mp hk with heq | hk
    · cases heq
    · exact h.free_cached k hk
  · exact h.out_cached k (Finset.mem_of_mem_erase hk)
  · obtain ⟨hout, hfd, hdes⟩ := h.registered x j hx
    exact ⟨FreeList.mem_out_release.mpr ⟨hne j hdes, hout⟩, hfd, nofun⟩
  · obtain ⟨hout, hdes⟩ := h.given j hj
    exact ⟨FreeList.mem_out_release.mpr ⟨hne j hdes, hout⟩, nofun⟩
  · exact h.backend j (FreeList.mem_out_release.mp hj).2

end Held

/-! ### The steps -/

/-- A process whose steps all have given back event objects of `event_data_pool`. -/
structure Tidy (c : Config) (s : State) : Prop where
  sound : s.Sound
  clients : ∀ fd ∈ s.opened, ¬c.NoClient fd
  held : Held c s

/-- The object that `request_destruct` comes to `mem_cache_free` with. -/
def State.givesBack (s : State) : Label → Option Addr
  | .destructRest => s.destructing.filter fun a => (s.object a).node ≠ none
  | _ => none

/-- It is not one of a memory pool. -/
def GivesBack (s : State) (l : Label) : Prop := ∀ k, s.givesBack l ≠ some (.pooled k)

instance (s : State) (l : Label) : Decidable (GivesBack s l) :=
  match h : s.givesBack l with
  | some (.pooled k) => isFalse fun hall => hall k h
  | some (.cached i) => isTrue fun k hk => by simp [h] at hk
  | none => isTrue fun k hk => by simp [h] at hk

section Tidy

variable {c : Config} {s s' : State} {l : Label} {a : Addr}

theorem tidy_start (c : Config) : Tidy c (start c) :=
  ⟨sound_start c, fun fd hfd => by simp [start] at hfd, held_start c⟩

/-- There is no timer for a descriptor that no client has. -/
theorem Tidy.not_present (h : Tidy c s) {x : ℕ} (hx : c.NoClient x) : ¬s.Present c x :=
  fun hpresent => h.clients x (h.sound.opened x hpresent.2) hx

/-- A new client gets an object that nobody else has. -/
theorem Tidy.listenEvent (h : Tidy c s) {fd : ℕ} {added through : Bool} {now : ℤ}
    (hdes : s.destructing = none) : Held c (s.listenEvent c fd added through now) := by
  rw [State.listenEvent]
  split
  · exact h.held.crash
  · rename_i a events halloc
    obtain ⟨hout, hheld⟩ := h.held.alloc hdes (insert fd s.opened) fd halloc
    dsimp only
    by_cases hadded : added = false
    · rw [if_pos hadded]
      exact hheld
    · rw [if_neg hadded]
      split
      · exact h.held.crash
      · rename_i ret t hinsert
        by_cases hgo : through = true ∧ fd < 2 * c.connect
        · rw [if_pos hgo]
          refine (hheld.setTimers t).epollAdd fun i hi => ⟨hi ▸ hout, ?_, ?_⟩
          · subst hi
            simp
          · rw [State.setObject_destructing, hdes]
            simp
        · rw [if_neg hgo]
          exact h.held.crash

/-- An event is handled. A descriptor for which there is a timer is not a backend's. -/
theorem Tidy.act (h : Tidy c s) {derefs : List ℕ} {act : Act}
    (hd : s.dispatch l = some (a, derefs, act)) (hderefs : ∀ x ∈ derefs, s.Present c x)
    (hback : ∀ pfd, act = .reassign pfd → pfd ∈ c.backends) : Held c (s.act a act) := by
  obtain ⟨⟨x, hx⟩, hfits⟩ := dispatch_fits hd
  have hreg : ∀ i, a = .cached i → .cached i ∈ s.events.out ∧ (s.object (.cached i)).fd = x ∧
      s.destructing ≠ some (.cached i) := fun i hi => h.held.registered x i (by rw [hx, hi])
  -- the descriptor of a client is meant
  have hfd : ∀ {fd}, (fd ∈ derefs ∧ (fd = (s.object a).fd ∨ fd = (s.object a).pfd)) →
      ∀ i, a = .cached i → (s.object (.cached i)).fd = fd := by
    rintro fd ⟨hmem, hfd | hfd⟩ i hi
    · rw [hfd, hi]
    · refine absurd (hderefs fd hmem) (h.not_present ?_)
      rw [hfd, hi]
      exact h.held.backend i (hreg i hi).1
  cases act with
  | nothing => exact h.held
  | crash => exact h.held.crash
  | destruct fd =>
    obtain ⟨t, pfd, -, heq⟩ := timerCleaner_of_present (hderefs fd hfits.1).2
    rw [State.act, heq]
    exact (h.held.setTimers t).destruct pfd fun i hi => ⟨(hreg i hi).1, hfd hfits i hi⟩
  | give fd =>
    exact (h.held.setGiven fun _ i hi => ⟨(hreg i hi).1, (hreg i hi).2.2⟩).epollMod
      fun i hi => ⟨(hreg i hi).1, hfd hfits i hi, (hreg i hi).2.2⟩
  | reassign pfd =>
    exact absurd (hderefs pfd hfits) (h.not_present (Or.inr (hback pfd rfl)))

/-- An event of a connection is safe if a hang-up names a backend of the configuration. -/
theorem Tidy.event (h : Tidy c s) (hevent : s.event c l = some s')
    (hback : ∀ x pfd, l = .hupEvent x (some pfd) → pfd ∈ c.backends) : Held c s' := by
  rw [State.event] at hevent
  split_ifs at hevent with hdes
  obtain ⟨⟨a, derefs, act⟩, hd, rfl⟩ := Option.map_eq_some_iff.mp hevent
  rw [State.handle]
  split_ifs with hderefs
  · refine h.act hd hderefs fun pfd hpfd => ?_
    subst hpfd
    obtain ⟨x, rfl⟩ := eq_hupEvent_of_reassign hd
    exact hback x pfd rfl
  · exact h.held.crash

/-- The thread of the timer takes objects from workers, and gives none back. -/
theorem Tidy.timerTask (h : Tidy c s) (now : ℤ) : Held c (s.timerTask c now) := by
  rw [State.timerTask]
  split
  · exact h.held.crash
  · dsimp only
    split_ifs
    · exact ((h.held.setTimers _).forget _ _).crash
    · exact (h.held.setTimers _).forget _ _
    · exact h.held.setTimers _

/-- No step but one that gives back a block of a memory pool breaks it. -/
theorem Tidy.heldAfter (h : Tidy c s) (hback : GivesBack s l) (hnext : s.next c l = some s') :
    Held c s' := by
  cases l with
  | accept fd added through now =>
    rw [State.next] at hnext
    split_ifs at hnext with hmay
    obtain rfl := Option.some.inj hnext
    exact h.listenEvent hmay.1
  | hupEvent x backend =>
    rw [State.next] at hnext
    split_ifs at hnext with hbackend
    refine h.event hnext fun y pfd heq => ?_
    cases heq
    exact hbackend pfd rfl
  | rdEvent x handler => exact h.event hnext fun y pfd heq => by cases heq
  | outEvent x => exact h.event hnext fun y pfd heq => by cases heq
  | destructRest =>
    obtain ⟨a, ha, rfl⟩ := Option.map_eq_some_iff.mp hnext
    split_ifs with hnode
    · exact h.held.crash
    · cases a with
      | cached i => exact h.held.release ha
      | pooled k =>
        -- a block of a memory pool is not given back
        refine absurd ?_ (hback k)
        rw [State.givesBack, ha]
        simpa using hnode
  | timerTask now =>
    obtain rfl := Option.some.inj hnext
    exact h.timerTask now
  | kill =>
    obtain rfl := Option.some.inj hnext
    exact h.held.of_eq rfl rfl rfl rfl rfl
  | post a pfd node =>
    rw [State.next] at hnext
    split_ifs at hnext with hgiven
    obtain rfl := Option.some.inj hnext
    exact h.held.setObject fun i _ _ => ⟨rfl, hgiven.2⟩
  | eventAdd a pfd g t =>
    rw [State.next] at hnext
    split_ifs at hnext
    · obtain rfl := Option.some.inj hnext
      have hobject := @Held.setObject c s (.pooled s.made) h.held
        { fd := (s.object a).fd, pfd := pfd, type := t, node := some g } fun i hi => by cases hi
      have hadd := @Held.epollAdd c _ (.pooled s.made) hobject pfd fun i hi => by cases hi
      exact hadd.of_eq rfl rfl rfl rfl rfl
    · obtain rfl := Option.some.inj hnext
      exact h.held.crash
  | setType a t =>
    rw [State.next] at hnext
    split_ifs at hnext with hgiven
    obtain rfl := Option.some.inj hnext
    exact h.held.setObject fun i hi hout => ⟨rfl, hi ▸ h.held.backend i hout⟩
  | memPoolAlloc a =>
    rw [State.next] at hnext
    split_ifs at hnext
    · exact Option.some.inj hnext ▸ h.held
    · exact Option.some.inj hnext ▸ h.held.crash
  | modify a =>
    rw [State.next] at hnext
    split_ifs at hnext with hgiven
    obtain rfl := Option.some.inj hnext
    refine h.held.epollMod fun i hi => ?_
    subst hi
    obtain ⟨hout, hdes⟩ := h.held.given i hgiven
    exact ⟨hout, rfl, hdes⟩
  | unregister a =>
    rw [State.next] at hnext
    split_ifs at hnext with hgiven
    obtain rfl := Option.some.inj hnext
    exact h.held.epollDel _
  | finish a =>
    rw [State.next] at hnext
    split_ifs at hnext with hgiven
    obtain rfl := Option.some.inj hnext
    exact h.held.setGiven fun hgiven => by cases hgiven
  | reuse a e =>
    rw [State.next] at hnext
    split_ifs at hnext with hstale
    obtain rfl := Option.some.inj hnext
    refine h.held.setObject fun i hi hout => ?_
    subst hi
    -- a block that is used again is not handed out
    exact absurd hout (h.held.events.disjoint _ hstale)

/-- The step lemma. -/
theorem Tidy.after (h : Tidy c s) (hback : GivesBack s l) (hstep : step c s l = some s') :
    Tidy c s' := by
  refine ⟨h.sound.after hstep, (step_timers hstep).clients h.clients, ?_⟩
  rw [step] at hstep
  split_ifs at hstep
  exact h.heldAfter hback hstep

end Tidy

/-! ### Calls of `mem_cache_free` -/

/-- A block that is given back to a cache: to that of the timers, `event_data_pool`, that of the
nodes, or that of the workers' records. -/
inductive Freed where
  | timer (p : ℕ)
  | event (a : Addr)
  | node (n : ℕ)
  | thread (d : ℕ)

/-- The descriptor of the connection that a step closes. -/
def State.closes (c : Config) (s : State) (l : Label) : Option ℕ :=
  match l with
  | .timerTask now => if s.Expires c now then some s.sweptFd else none
  | _ =>
    match s.dispatch l with
    | some (_, derefs, .destruct fd) =>
      if s.destructing = none ∧ ∀ x ∈ derefs, s.Present c x then some fd else none
    | _ => none

/-- The calls of `mem_cache_free` in `request_destruct` and `timer_cleaner`. -/
def State.frees (c : Config) (s : State) (l : Label) : List Freed :=
  (s.givesBack l).toList.map .event ++
    ((s.closes c l).bind s.timers.table).toList.map .timer

/-- A process: the connections, the queue of the workers, and the cache of the workers' records,
which there is for more than 500 of them. -/
structure Process where
  conn : State
  chain : QueueChain
  workers : Option (FreeList ℕ)

inductive ProcessLabel where
  | conn (l : Label)
  /-- `queue_chain_in`, in `thread_pool_init` or at `THREAD_RET` -/
  | chainIn (fresh : ℕ)
  /-- `queue_chain_out`, in `thread_pool_alloc` -/
  | chainOut
  /-- a worker at `RESTART` takes `SIGINT`; its record is at `d` -/
  | sigint (d : ℕ)

namespace Process

variable (c : Config) (s : Process)

def crash : Process := { s with conn := s.conn.crash }

/-- The queue of the workers after an operation. -/
def setChain : Option QueueChain → Process
  | some chain => { s with chain := chain }
  | none => s.crash

def step : ProcessLabel → Option Process
  | .conn l => (Connections.step c s.conn l).map fun conn => { s with conn := conn }
  | .chainIn fresh =>
    if s.conn.alive = true then some (s.setChain (s.chain.queueChainIn fresh)) else none
  | .chainOut => if s.conn.alive = true then some (s.setChain s.chain.queueChainOut) else none
  | .sigint d =>
    if s.conn.alive = true then
      match s.workers with
      | some pool => some { s with workers := some (pool.release d) }
      | none => some s.crash
    else none

/-- The calls of `mem_cache_free` in a step. -/
def frees : ProcessLabel → List Freed
  | .conn l => s.conn.frees c l
  | .chainIn _ => []
  | .chainOut => s.chain.released.toList.map .node
  | .sigint d => [.thread d]

/-- The block was obtained from its cache, and has not been given back. -/
def Obtained : Freed → Prop
  | .timer p => p ∈ s.conn.timers.pool.out
  | .event a => a ∈ s.conn.events.out
  | .node n => ∃ pool ∈ s.chain.pool, n ∈ pool.out
  | .thread d => ∃ pool ∈ s.workers, d ∈ pool.out

/-- Every block that a step gives back was obtained from the same cache. -/
def FreesRight (l : ProcessLabel) : Prop := ∀ f ∈ s.frees c l, s.Obtained f

/-- No object of a memory pool is given back by `request_destruct`, and no worker takes `SIGINT` at
`RESTART`. -/
def Proper : ProcessLabel → Prop
  | .conn l => GivesBack s.conn l
  | .sigint _ => False
  | _ => True

/-- After `mem_cache_creat` and before the workers are started. -/
def start (threads : ℕ) : Process where
  conn := Connections.start c
  chain :=
    { nodes := []
      pool := if 500 < threads then some { free := List.range threads, out := ∅ } else none }
  workers := if 500 < threads then some { free := List.range threads, out := ∅ } else none

/-- The invariant of the runs without foreign blocks. -/
structure Sound : Prop where
  conn : Tidy c s.conn
  chain : s.chain.Sound
  workers : ∀ pool ∈ s.workers, pool.out = ∅

variable {c s} {s' : Process} {l : ProcessLabel}

/-- At the start no cache has handed anything out. -/
theorem sound_start (c : Config) (threads : ℕ) : (start c threads).Sound c := by
  refine ⟨tidy_start c, ⟨fun pool hpool => ?_, fun _ => List.nodup_nil, nofun⟩,
    fun pool hpool => ?_⟩
  · rw [start, Option.mem_def] at hpool
    dsimp only at hpool
    split_ifs at hpool
    obtain rfl := Option.some.inj hpool
    exact ⟨List.nodup_range, fun _ _ => by simp⟩
  · rw [start, Option.mem_def] at hpool
    dsimp only at hpool
    split_ifs at hpool
    obtain rfl := Option.some.inj hpool
    rfl

/-- A process that has ended keeps what it has. -/
theorem Sound.crash (h : s.Sound c) : s.crash.Sound c :=
  ⟨⟨⟨h.conn.sound.timers, h.conn.sound.opened⟩, h.conn.clients, h.conn.held.crash⟩, h.chain,
    h.workers⟩

/-- The step lemma: a proper step gives no foreign block back. -/
theorem Sound.after (h : s.Sound c) (hproper : s.Proper l) (hstep : s.step c l = some s') :
    s'.Sound c := by
  cases l with
  | conn l =>
    obtain ⟨conn, hconn, rfl⟩ := Option.map_eq_some_iff.mp hstep
    exact ⟨h.conn.after hproper hconn, h.chain, h.workers⟩
  | chainIn fresh =>
    rw [step] at hstep
    split_ifs at hstep
    obtain rfl := Option.some.inj hstep
    cases hin : s.chain.queueChainIn fresh with
    | none => exact h.crash
    | some chain => exact ⟨h.conn, h.chain.queueChainIn hin, h.workers⟩
  | chainOut =>
    rw [step] at hstep
    split_ifs at hstep
    obtain rfl := Option.some.inj hstep
    cases hout : s.chain.queueChainOut with
    | none => exact h.crash
    | some chain => exact ⟨h.conn, h.chain.queueChainOut hout, h.workers⟩
  | sigint d => exact absurd hproper id

/-- Only the object that `request_destruct` has is given back. -/
theorem destructing_of_givesBack {t : State} {l : Label} {a : Addr}
    (h : t.givesBack l = some a) : t.destructing = some a := by
  cases l with
  | destructRest => exact (Option.filter_eq_some_iff.mp h).1
  | _ => cases h

/-- The blocks that the connections give back are right unless one is of a memory pool. -/
theorem Sound.freesRight_conn_iff (h : s.Sound c) (l : Label) :
    s.FreesRight c (.conn l) ↔ GivesBack s.conn l := by
  have htimers : ∀ p ∈ ((s.conn.closes c l).bind s.conn.timers.table).toList,
      s.Obtained (.timer p) := fun p hp => by
    obtain ⟨fd, -, hp⟩ := Option.bind_eq_some_iff.mp (Option.mem_toList.mp hp)
    exact (h.conn.sound.timers.owned fd p hp).1
  have hevents : (∀ a ∈ (s.conn.givesBack l).toList, s.Obtained (.event a)) ↔
      GivesBack s.conn l := by
    cases hback : s.conn.givesBack l with
    | none => exact iff_of_true (fun a ha => by simp at ha) fun k hk => by simp [hback] at hk
    | some a =>
      have hdes := destructing_of_givesBack hback
      rw [Option.toList_some, List.forall_mem_singleton]
      cases a with
      | cached i =>
        exact iff_of_true (h.conn.held.destructing i hdes) fun k hk => by simp [hback] at hk
      | pooled k => exact iff_of_false (h.conn.held.out_cached k) fun hall => hall k hback
  rw [FreesRight, frees, State.frees, List.forall_mem_append, List.forall_mem_map,
    List.forall_mem_map, hevents]
  exact and_iff_left htimers

/-- **One step.** -/
theorem Sound.freesRight_step_iff (h : s.Sound c) (hstep : s.step c l = some s') :
    s.FreesRight c l ↔ s.Proper l := by
  cases l with
  | conn l => exact h.freesRight_conn_iff l
  | chainIn fresh => exact iff_of_true (fun f hf => nomatch hf) trivial
  | chainOut =>
    refine iff_of_true (fun f hf => ?_) trivial
    obtain ⟨n, hn, rfl⟩ := List.mem_map.mp hf
    exact h.chain.out_of_released (Option.mem_toList.mp hn)
  | sigint d =>
    refine iff_of_false (fun hall => ?_) id
    obtain ⟨pool, hpool, hd⟩ := hall (.thread d) List.mem_cons_self
    rw [h.workers pool hpool] at hd
    simp at hd

/-- **Blocks and caches.** In every step of a run the blocks that are given back were obtained from
the same cache, exactly if `request_destruct` gives back no object of a memory pool and no worker
takes `SIGINT` at `RESTART`. -/
theorem freesRight_iff (c : Config) (threads : ℕ) (ls : List ProcessLabel) :
    Runs.Meets (step c) (FreesRight c) (start c threads) ls ↔
      Runs.Meets (step c) Proper (start c threads) ls :=
  Runs.meets_iff_meets (fun _ _ _ (h : Sound c _) hproper hstep => h.after hproper hstep)
    (fun _ _ _ h hstep => h.freesRight_step_iff hstep) (sound_start c threads) ls

/-- With 501 workers, one takes `SIGINT`. -/
theorem not_freesRight_sigint :
    ¬∀ (c : Config) (threads : ℕ) (ls : List ProcessLabel),
      Runs.Meets (step c) (FreesRight c) (start c threads) ls := by
  intro h
  obtain ⟨hright, -⟩ := h smallConfig 501 [.sigint 0] _ rfl
  obtain ⟨pool, hpool, hd⟩ := hright (.thread 0) List.mem_cons_self
  rw [(sound_start smallConfig 501).workers pool hpool] at hd
  simp at hd

end Process

end Connections

end Lidas
