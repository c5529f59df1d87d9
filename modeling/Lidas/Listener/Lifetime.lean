import Lidas.Listener.Frees

/-!
# The lifetime of a listener process

A client's descriptor is never closed, so that `accept` never returns it again, and
`timer_data_lst` has room for `2*connect` descriptors. A process can therefore only give timers to
so many connections, however many of them have gone meanwhile. The other thing that runs out are the
event objects, of which there are `connect`: they come back by `request_destruct` only.

`History` counts along a run. `lifetime` bounds what a process that has not ended has counted.
-/

namespace Lidas

namespace Connections

/-- What has happened in a run: the connections that were given a timer, the number of all that were
accepted, and the number of event objects that were given back. -/
structure History where
  timed : List ℕ
  accepted : ℕ
  returned : ℕ

/-- Before the first round. -/
def History.start : History := ⟨[], 0, 0⟩

/-- What a step adds. -/
def Label.record : Label → History → History
  | .accept fd added _ _, e =>
    { e with timed := if added = true then fd :: e.timed else e.timed, accepted := e.accepted + 1 }
  | .destructRest, e => { e with returned := e.returned + 1 }
  | _, e => e

/-- The descriptors that a timer can be given to. -/
def Config.timerFds (c : Config) : Finset ℕ :=
  (Finset.range (2 * c.connect)).filter fun fd => ¬c.NoClient fd

/-- What a step of a process that does not end in it does to the descriptors that were opened and to
the number of free event objects. -/
inductive Counted (c : Config) (s s' : State) : Label → Prop where
  | accept {fd : ℕ} {added through : Bool} {now : ℤ} (hfresh : fd ∉ s.opened)
      (hopened : s'.opened = insert fd s.opened) (hfits : added = true → fd ∈ c.timerFds)
      (hfree : s.events.free.length = s'.events.free.length + 1) :
      Counted c s s' (.accept fd added through now)
  | returns (hopened : s'.opened = s.opened)
      (hfree : s'.events.free.length = s.events.free.length + 1) : Counted c s s' .destructRest
  | same {l : Label} (hrecord : l.record = id) (hopened : s'.opened = s.opened)
      (hevents : s'.events = s.events) : Counted c s s' l

variable {c : Config} {s s' : State} {l : Label}

/-- The history fits the state: no descriptor was given a timer twice, and each event object is free
or is one that was taken for a connection and has not come back. -/
structure History.Sound (c : Config) (s : State) (e : History) : Prop where
  nodup : e.timed.Nodup
  opened : ∀ fd ∈ e.timed, fd ∈ s.opened
  fits : ∀ fd ∈ e.timed, fd ∈ c.timerFds
  events : e.accepted + s.events.free.length = c.connect + e.returned

theorem History.sound_start (c : Config) : History.Sound c (Connections.start c) .start where
  nodup := List.nodup_nil
  opened := by simp [History.start]
  fits := by simp [History.start]
  events := by simp [History.start, Connections.start]

theorem Counted.sound {e : History} (h : Counted c s s' l) (he : e.Sound c s) :
    (l.record e).Sound c s' := by
  cases h with
  | @accept fd added through now hfresh hopened hfits hfree =>
    have hevents := he.events
    have hold : ∀ x ∈ e.timed, x ∈ s'.opened := fun x hx => by
      rw [hopened]
      exact Finset.mem_insert_of_mem (he.opened x hx)
    have hcount : e.accepted + 1 + s'.events.free.length = c.connect + e.returned := by omega
    cases added with
    | false => exact ⟨he.nodup, hold, he.fits, hcount⟩
    | true =>
      refine ⟨List.nodup_cons.mpr ⟨fun hx => hfresh (he.opened fd hx), he.nodup⟩, fun x hx => ?_,
        fun x hx => ?_, hcount⟩
      · rcases List.mem_cons.mp hx with rfl | hx
        · rw [hopened]
          exact Finset.mem_insert_self x s.opened
        · exact hold x hx
      · rcases List.mem_cons.mp hx with rfl | hx
        · exact hfits rfl
        · exact he.fits x hx
  | returns hopened hfree =>
    have hevents := he.events
    refine ⟨he.nodup, fun x hx => hopened ▸ he.opened x hx, he.fits, ?_⟩
    change e.accepted + s'.events.free.length = c.connect + (e.returned + 1)
    omega
  | same hrecord hopened hevents =>
    rw [hrecord]
    exact ⟨he.nodup, fun x hx => hopened ▸ he.opened x hx, he.fits, hevents ▸ he.events⟩

end Connections

end Lidas
