import Mathlib.Data.List.Basic
import Mathlib.Tactic.Common

/-!
# Heads of messages

A head is a start line and a list of fields, each a name and a value, and it ends with an empty
line. The end of a line and the separator between a name and a value are two letters each. `encode`
writes a head, and `decode` reads one and nothing behind it. What `decode` reads of a head that was
written is that head, if the first letters of the ends and separators stand nowhere else
(`decode_encode`), and it reads nothing of a head that breaks off (`decode_eq_none`).
-/

namespace Lidas

namespace Fields

variable {β : Type*}

section Encode

variable (eol sep : β × β)

/-- The end of a line, or a separator, as letters. -/
def letters (p : β × β) : List β := [p.1, p.2]

/-- The line of a field. -/
def fieldLine (f : List β × List β) : List β := f.1 ++ letters sep ++ f.2 ++ letters eol

/-- The lines behind the start line. -/
def encodeFields (fields : List (List β × List β)) : List β :=
  fields.flatMap (fieldLine eol sep) ++ letters eol

/-- A head. -/
def encode (start : List β) (fields : List (List β × List β)) : List β :=
  start ++ letters eol ++ encodeFields eol sep fields

theorem length_lt_length_encodeFields (fields : List (List β × List β)) :
    fields.length < (encodeFields eol sep fields).length := by
  induction fields with
  | nil => simp [encodeFields, letters]
  | cons f fields ih =>
    simp only [encodeFields, List.flatMap_cons, List.length_append, List.length_cons, fieldLine,
      letters, List.length_nil] at ih ⊢
    omega

end Encode

section Decode

variable [DecidableEq β] (eol sep : β × β)

/-- What is in front of the first occurrence of two letters, and what is behind it. -/
def cut (p : β × β) : List β → Option (List β × List β)
  | x :: y :: rest =>
    if x = p.1 ∧ y = p.2 then some ([], rest)
    else (cut p (y :: rest)).map fun r => (x :: r.1, r.2)
  | _ => none

/-- The fields of no more than the given number of lines, and what is behind the empty line. -/
def decodeFields : ℕ → List β → Option (List (List β × List β) × List β)
  | 0, _ => none
  | fuel + 1, s =>
    match cut eol s with
    | none => none
    | some ([], rest) => some ([], rest)
    | some (line, rest) =>
      match cut sep line with
      | none => none
      | some f => (decodeFields fuel rest).map fun r => (f :: r.1, r.2)

/-- A start line and fields, with nothing behind them. -/
def decode (s : List β) : Option (List β × List (List β × List β)) :=
  match cut eol s with
  | none => none
  | some (start, rest) =>
    match decodeFields eol sep rest.length rest with
    | some (fields, []) => some (start, fields)
    | _ => none

variable {eol sep}

theorem cut_append {p : β × β} {l rest : List β} (hl : p.1 ∉ l) :
    cut p (l ++ letters p ++ rest) = some (l, rest) := by
  induction l with
  | nil => simp [letters, cut]
  | cons x l ih =>
    rw [List.mem_cons, not_or] at hl
    have hx : ∀ y, ¬(x = p.1 ∧ y = p.2) := fun y h => hl.1 h.1.symm
    obtain ⟨y, ys, hys⟩ : ∃ y ys, l ++ letters p ++ rest = y :: ys := by
      cases l with
      | nil => exact ⟨_, _, rfl⟩
      | cons y l => exact ⟨_, _, rfl⟩
    rw [List.cons_append, List.cons_append, hys, cut, if_neg (hx y), ← hys, ih hl.2]
    rfl

/-- The end of a line is not there if its second letter is missing. -/
theorem cut_eq_none {p : β × β} {l : List β} (hl : p.1 ∉ l) : cut p (l ++ [p.1]) = none := by
  induction l with
  | nil => rfl
  | cons x l ih =>
    rw [List.mem_cons, not_or] at hl
    obtain ⟨y, ys, hys⟩ : ∃ y ys, l ++ [p.1] = y :: ys := by
      cases l with
      | nil => exact ⟨_, _, rfl⟩
      | cons y l => exact ⟨_, _, rfl⟩
    rw [List.cons_append, hys, cut, if_neg fun h => hl.1 h.1.symm, ← hys, ih hl.2]
    rfl

/-- A line is read. -/
theorem decodeFields_fieldLine {f : List β × List β} {rest : List β} (hsep : eol.1 ∉ letters sep)
    (hf : sep.1 ∉ f.1 ∧ eol.1 ∉ f.1 ∧ eol.1 ∉ f.2) (fuel : ℕ) :
    decodeFields eol sep (fuel + 1) (fieldLine eol sep f ++ rest) =
      (decodeFields eol sep fuel rest).map fun r => (f :: r.1, r.2) := by
  obtain ⟨hname, hname', hvalue⟩ := hf
  have hline : eol.1 ∉ f.1 ++ letters sep ++ f.2 := by
    rw [List.mem_append, List.mem_append, not_or, not_or]
    exact ⟨⟨hname', hsep⟩, hvalue⟩
  obtain ⟨x, xs, hxs⟩ : ∃ x xs, f.1 ++ letters sep ++ f.2 = x :: xs := by
    cases f.1 with
    | nil => exact ⟨_, _, rfl⟩
    | cons x l => exact ⟨_, _, rfl⟩
  rw [decodeFields, fieldLine, cut_append hline, hxs]
  dsimp only
  rw [← hxs, cut_append hname]

theorem decodeFields_encodeFields {fields : List (List β × List β)}
    (hfields : ∀ f ∈ fields, sep.1 ∉ f.1 ∧ eol.1 ∉ f.1 ∧ eol.1 ∉ f.2)
    (hsep : eol.1 ∉ letters sep) {fuel : ℕ} (hfuel : fields.length < fuel) :
    decodeFields eol sep fuel (encodeFields eol sep fields) = some (fields, []) := by
  induction fields generalizing fuel with
  | nil =>
    obtain ⟨fuel, rfl⟩ := Nat.exists_eq_add_one_of_ne_zero (Nat.ne_of_gt hfuel)
    simp [decodeFields, encodeFields, letters, cut]
  | cons f fields ih =>
    obtain ⟨fuel, rfl⟩ := Nat.exists_eq_add_one_of_ne_zero (Nat.ne_of_gt (Nat.zero_lt_of_lt hfuel))
    obtain ⟨hf, hfields⟩ := List.forall_mem_cons.mp hfields
    have hencode : encodeFields eol sep (f :: fields) =
        fieldLine eol sep f ++ encodeFields eol sep fields := by
      rw [encodeFields, List.flatMap_cons, List.append_assoc, ← encodeFields]
    rw [hencode, decodeFields_fieldLine hsep hf, ih hfields (by simpa using hfuel)]
    rfl

/-- **Round trip.** A head that is written is read. -/
theorem decode_encode {start : List β} {fields : List (List β × List β)} (hstart : eol.1 ∉ start)
    (hfields : ∀ f ∈ fields, sep.1 ∉ f.1 ∧ eol.1 ∉ f.1 ∧ eol.1 ∉ f.2)
    (hsep : eol.1 ∉ letters sep) :
    decode eol sep (encode eol sep start fields) = some (start, fields) := by
  rw [decode, encode, cut_append hstart]
  dsimp only
  rw [decodeFields_encodeFields hfields hsep (length_lt_length_encodeFields eol sep fields)]

/-- A head that breaks off in the end of a line is not read. -/
theorem decode_eq_none {start l : List β} {fields : List (List β × List β)}
    (hstart : eol.1 ∉ start) (hfields : ∀ f ∈ fields, sep.1 ∉ f.1 ∧ eol.1 ∉ f.1 ∧ eol.1 ∉ f.2)
    (hsep : eol.1 ∉ letters sep) (hl : eol.1 ∉ l) :
    decode eol sep
      (start ++ letters eol ++ (fields.flatMap (fieldLine eol sep) ++ (l ++ [eol.1]))) = none := by
  have hrest : ∀ fuel,
      decodeFields eol sep fuel (fields.flatMap (fieldLine eol sep) ++ (l ++ [eol.1])) = none := by
    induction fields with
    | nil =>
      intro fuel
      cases fuel with
      | zero => rfl
      | succ fuel => rw [List.flatMap_nil, List.nil_append, decodeFields, cut_eq_none hl]
    | cons f fields ih =>
      obtain ⟨hf, hfields⟩ := List.forall_mem_cons.mp hfields
      intro fuel
      cases fuel with
      | zero => rfl
      | succ fuel =>
        rw [List.flatMap_cons, List.append_assoc, decodeFields_fieldLine hsep hf, ih hfields]
        rfl
  rw [decode, cut_append hstart]
  dsimp only
  rw [hrest]

end Decode

end Fields

end Lidas
