import Lidas.Config.Load
import Lidas.Http.Parser

/-!
# The rules of a host

`xml_get_active` makes an array of rules from the entries of a `<proxy-pass>` element, and
`match_proxy` asks `match.pl` about one after the other, to find the group for a URL.

The array ends where its memory ends. `match_proxy` goes on until `t` is `NULL`, which it never
becomes, and it compares the first two bytes of an answer with `yes`. So it always runs past the
last rule (`matchLoop_eq_error`), unless it stops before at a rule without a pattern. The array has
as many rules as `xml_get_active` counts: the `<proxy-pass>` element and its followers.
-/

namespace Lidas

open CString
open Config (Globals HostElem ActiveElem ProxyPass Content LoadFault activeLoop xmlGetActive
  searchProxyGroup)

/-- The string that `fgets` leaves in an array of `n` bytes. -/
def fgets (n : ℕ) (input : List UInt8) : List UInt8 :=
  (input.take (input.findIdx (· == lf) + 1)).take (n - 1)

/-- What `match.pl` prints. -/
def perlOutput (matched : Bool) : List UInt8 := if matched then ascii "yes" else ascii "no"

/-- The command line for `popen`. -/
def perlCommand (url pattern : List UInt8) : List UInt8 :=
  ascii "./match.pl " ++ (url ++ sp :: pattern)

/-- The number of bytes that the array `r` has besides those of the URL and the pattern. -/
def commandSiz : ℕ := 11

section Rules

variable (siz : ℕ) (reports : List UInt8 → List UInt8 → Option Bool) (url : List UInt8)

/-- The loop of `match_proxy`, with the answer of `match.pl` for each URL and pattern; `none` says
that `popen` fails. The array `r` has `siz` bytes besides those of the two. -/
def matchLoop : List ProxyPass → Except LoadFault (Option Content)
  -- `t` is not `NULL` behind the last rule
  | [] => .error (.access .outOfBounds)
  | t :: ts =>
    match t.pattern with
    | none => .error (.access .nullDeref)
    | some pattern =>
      if url.length + pattern.length + siz < (perlCommand url pattern).length + 1 then
        .error (.access .outOfBounds)
      else
        match reports url pattern with
        | none => matchLoop ts
        | some matched =>
          if fgets 3 (perlOutput matched) ≠ ascii "yes" then matchLoop ts else .ok t.proxy

/-- `match_proxy`. -/
def matchProxy (active : List ProxyPass) : Except LoadFault (Option Content) :=
  matchLoop siz reports url active

/-- `match.pl` reports that the URL matches the rule. -/
def Reported (t : ProxyPass) : Bool := t.pattern.bind (reports url) == some true

/-- The group of the first rule that matches. -/
def firstMatch (active : List ProxyPass) : Option Content :=
  (active.find? (Reported reports url)).bind ProxyPass.proxy

variable {H : Type}

/-- The rule that stands for an entry. -/
structure Stands (s : Globals H) (e : ActiveElem) (t : ProxyPass) : Prop where
  pattern : t.pattern = e.pattern
  proxy : searchProxyGroup s e.text = .ok t.proxy

/-- There is one rule for each entry, in their order, and the URL is given to the group of the
first rule that matches. -/
def RulesRight (host : HostElem) (s : Globals H) : Prop :=
  ∃ active s', xmlGetActive host s = .ok (active, s') ∧
    List.Forall₂ (Stands s') host.passes active ∧
    matchProxy siz reports url active = .ok (firstMatch reports url active)

/-- No answer is taken for a match. -/
theorem fgets_ne_yes (matched : Bool) : fgets 3 (perlOutput matched) ≠ ascii "yes" := by
  cases matched with
  | false => decide
  | true => decide

theorem matchLoop_ne_ok (active : List ProxyPass) (found : Option Content) :
    matchLoop siz reports url active ≠ .ok found := by
  induction active with
  | nil => simp [matchLoop]
  | cons t ts ih =>
    rw [matchLoop]
    cases t.pattern with
    | none => simp
    | some pattern =>
      dsimp only
      split_ifs with hsiz
      · simp
      · cases reports url pattern with
        | none => exact ih
        | some matched =>
          dsimp only
          rw [if_pos (fgets_ne_yes matched)]
          exact ih

/-- **Past the end.** With a pattern in each rule, the loop ends with a use of memory outside an
array: behind the rules, or behind the command line. -/
theorem matchLoop_eq_error (active : List ProxyPass) (hpattern : ∀ t ∈ active, t.pattern ≠ none) :
    matchLoop siz reports url active = .error (.access .outOfBounds) := by
  induction active with
  | nil => rfl
  | cons t ts ih =>
    obtain ⟨pattern, hsome⟩ := Option.ne_none_iff_exists'.mp (hpattern t List.mem_cons_self)
    have hrest := ih fun t' ht' => hpattern t' (List.mem_cons_of_mem t ht')
    rw [matchLoop, hsome]
    dsimp only
    split_ifs with hsiz
    · rfl
    · cases reports url pattern with
      | none => exact hrest
      | some matched =>
        dsimp only
        rw [if_pos (fgets_ne_yes matched)]
        exact hrest

/-- The array of `xml_get_active`: rules for the first `cnt` entries. -/
theorem activeLoop_eq_ok {s : Globals H} {cnt : ℕ} {passes : List ActiveElem}
    {active : List ProxyPass} : activeLoop s cnt passes = .ok active ↔
      cnt ≤ passes.length ∧ List.Forall₂ (Stands s) (passes.take cnt) active := by
  induction cnt generalizing passes active with
  | zero =>
    rw [activeLoop, List.take_zero, List.forall₂_nil_left_iff, Except.ok.injEq]
    exact ⟨fun h => ⟨Nat.zero_le _, h.symm⟩, fun h => h.2.symm⟩
  | succ cnt ih =>
    cases passes with
    | nil => exact iff_of_false (by rintro ⟨⟩) fun h => absurd h.1 (Nat.not_succ_le_zero cnt)
    | cons e passes =>
      rw [List.take_succ_cons, List.forall₂_cons_left_iff, List.length_cons,
        Nat.add_le_add_iff_right]
      constructor
      · intro h
        obtain ⟨proxy, hproxy, h⟩ := bind_eq_ok.mp h
        obtain ⟨rest, hrest, h⟩ := bind_eq_ok.mp h
        obtain ⟨hle, hstands⟩ := ih.mp hrest
        exact ⟨hle, _, rest, ⟨rfl, hproxy⟩, hstands, (Except.ok.inj h).symm⟩
      · rintro ⟨hle, ⟨pattern, proxy⟩, rest, ⟨hpattern, hproxy⟩, hstands, rfl⟩
        dsimp only at hpattern hproxy
        rw [activeLoop, hproxy, ok_bind, ih.mpr ⟨hle, hstands⟩, ok_bind, hpattern]
        rfl

/-- **The array.** There is one rule for each entry if and only if there are as many entries as
`xml_get_active` counts elements. -/
theorem forall₂_stands_iff {host : HostElem} {s s' : Globals H} {active : List ProxyPass}
    (h : xmlGetActive host s = .ok (active, s')) :
    List.Forall₂ (Stands s') host.passes active ↔ host.passes.length = host.following + 1 := by
  obtain ⟨active', hloop, h⟩ := bind_eq_ok.mp h
  obtain ⟨rfl, rfl⟩ := Prod.mk.inj (Except.ok.inj h)
  obtain ⟨hle, hstands⟩ := activeLoop_eq_ok.mp hloop
  constructor
  · intro hall
    rw [hall.length_eq, ← hstands.length_eq, List.length_take, Nat.min_eq_left hle]
  · intro hlen
    rwa [List.take_of_length_le hlen.le] at hstands

/-- **The rules.** They are right for no host and no URL. -/
theorem not_rulesRight (host : HostElem) (s : Globals H) : ¬RulesRight siz reports url host s := by
  rintro ⟨active, s', -, -, hmatch⟩
  exact matchLoop_ne_ok siz reports url active _ hmatch

end Rules

/-- A host with the entry `php`, in a configuration without groups. -/
def phpHost : HostElem where
  hostname := ascii "h"
  path := ascii "/srv"
  frontpage := ascii "i"
  passes := [{ pattern := some (ascii "php"), text := ascii "default" }]
  following := 0

/-- The URL `/a.php` matches the only rule, and the loop goes on behind it. -/
theorem not_forall_rulesRight : ¬∀ (reports : List UInt8 → List UInt8 → Option Bool)
    (url : List UInt8) (host : HostElem) (s : Globals Unit),
    RulesRight commandSiz reports url host s := by
  intro h
  obtain ⟨active, s', -, -, hmatch⟩ := h (fun _ _ => some true) (ascii "/a.php") phpHost
    { Globals.start with hostLst := [none, none] }
  exact matchLoop_ne_ok _ _ _ active _ hmatch

end Lidas
