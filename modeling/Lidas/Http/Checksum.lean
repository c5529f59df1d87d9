import Lidas.Http.Crc32
import Lidas.Lib.Crc

/-!
# What the checksum tells apart

The table of `crc32.h` is that of the polynomial `0xEDB88320`: `crc32` takes in the bytes of a
buffer bit by bit (`crc32_eq_feed`), and may be called for one part of the buffer after another
(`crc32_append`). Buffers that differ in 32 consecutive bits at most have different checksums, and
four bytes, wherever they stand, can be chosen for a buffer to have any given checksum, in exactly
one way.
-/

namespace Lidas

/-- The polynomial of `crc32_tab`, without the highest power, and the lowest bit of a byte first. -/
def crc32Poly : BitVec 32 := 0xEDB88320#32

/-- The bits of a buffer. -/
def bufBits (buf : List UInt8) : List Bool := buf.flatMap fun b => Crc.bits b.toBitVec

/-- The four bytes of a word, the lowest one first. -/
def wordBytes (x : BitVec 32) : List UInt8 :=
  [⟨x.extractLsb' 0 8⟩, ⟨x.extractLsb' 8 8⟩, ⟨x.extractLsb' 16 8⟩, ⟨x.extractLsb' 24 8⟩]

/-- The polynomial has its top bit, so that a shift can be undone. -/
theorem crc32Poly_top : crc32Poly.getLsbD (32 - 1) = true := by decide

theorem bufBits_append (a b : List UInt8) : bufBits (a ++ b) = bufBits a ++ bufBits b :=
  List.flatMap_append

theorem length_bufBits (buf : List UInt8) : (bufBits buf).length = 8 * buf.length := by
  induction buf with
  | nil => rfl
  | cons b buf ih =>
    have hcons : bufBits (b :: buf) = Crc.bits b.toBitVec ++ bufBits buf := rfl
    rw [hcons, List.length_append, Crc.length_bits, ih, List.length_cons]
    omega

/-- A text is determined by its bits. -/
theorem bufBits_injective : Function.Injective bufBits := by
  intro a
  induction a with
  | nil =>
    intro b h
    have hlen := congrArg List.length h
    rw [length_bufBits, length_bufBits, List.length_nil] at hlen
    have hzero : b.length = 0 := by omega
    exact (List.length_eq_zero_iff.mp hzero).symm
  | cons x a ih =>
    intro b h
    cases b with
    | nil =>
      have hlen := congrArg List.length h
      rw [length_bufBits, length_bufBits] at hlen
      cases hlen
    | cons y b =>
      have hhead : (Crc.bits x.toBitVec).length = (Crc.bits y.toBitVec).length := by
        rw [Crc.length_bits, Crc.length_bits]
      obtain ⟨hxy, hab⟩ := List.append_inj h hhead
      have hpack := congrArg (Crc.pack 8) hxy
      rw [Crc.pack_bits, Crc.pack_bits, BitVec.setWidth_eq, BitVec.setWidth_eq] at hpack
      rw [UInt8.toBitVec_inj.mp hpack, ih hab]

/-- The four bytes of a word have the bits of the word. -/
theorem bufBits_wordBytes (x : BitVec 32) : bufBits (wordBytes x) = Crc.bits x := by
  have hbyte (k : ℕ) (h : k + 8 ≤ 32) : Crc.bits (x.extractLsb' k 8)
      = List.ofFn fun i : Fin 8 => x.getLsbD (k + i) := by
    simp [Crc.bits]
  have happ : bufBits (wordBytes x) = Crc.bits (x.extractLsb' 0 8) ++ (Crc.bits (x.extractLsb' 8 8)
      ++ (Crc.bits (x.extractLsb' 16 8) ++ (Crc.bits (x.extractLsb' 24 8) ++ []))) := rfl
  rw [happ, hbyte 0 (by omega), hbyte 8 (by omega), hbyte 16 (by omega), hbyte 24 (by omega)]
  simp [Crc.bits, List.ofFn_succ]

/-! ### The table -/

/-- Entry `i` of the table is the byte `i` after eight shifts. -/
theorem crc32Tab_eq_iterate :
    ∀ i < 256, (crc32Tab.getD i 0).toBitVec = (Crc.shift crc32Poly)^[8] (BitVec.ofNat 32 i) := by
  decide +kernel

/-- One round of the loop takes in one byte. -/
theorem toBitVec_step (c : UInt32) (b : UInt8) :
    (crc32Tab.getD ((c ^^^ b.toUInt32) &&& 0xFF).toNat 0 ^^^ (c >>> 8)).toBitVec =
      Crc.feed crc32Poly c.toBitVec (Crc.bits b.toBitVec) := by
  have hlow : BitVec.ofNat 32 ((c ^^^ b.toUInt32) &&& 0xFF).toNat
      = ((c.toBitVec ^^^ b.toBitVec.setWidth 32).setWidth 8).setWidth 32 := by
    have hmask (x : BitVec 32) : x &&& 0xFF = (x.setWidth 8).setWidth 32 := by
      apply BitVec.eq_of_toNat_eq
      have hmod : x.toNat &&& 255 = x.toNat % 256 := Nat.and_two_pow_sub_one_eq_mod _ 8
      have hlt : x.toNat % 256 < 2 ^ 32 := by omega
      rw [BitVec.toNat_and, BitVec.toNat_setWidth, BitVec.toNat_setWidth]
      exact hmod.trans (Nat.mod_eq_of_lt hlt).symm
    rw [← hmask]
    exact BitVec.eq_of_toNat_eq (Nat.mod_eq_of_lt (UInt32.toNat_lt _))
  have hhigh : (c.toBitVec ^^^ b.toBitVec.setWidth 32) >>> 8 = c.toBitVec >>> 8 := by
    apply BitVec.eq_of_getLsbD_eq
    intro i hi
    simp
  have hindex : ((c ^^^ b.toUInt32) &&& 0xFF).toNat < 256 := by
    rw [UInt32.toNat_and]
    exact lt_of_le_of_lt Nat.and_le_right (by decide)
  rw [Crc.feed_bits _ (by omega), Crc.iterate_shift_table, hhigh, ← hlow,
    ← crc32Tab_eq_iterate _ hindex, UInt32.toBitVec_xor]
  rfl

/-- **The checksum is that of the polynomial**, taken in bit by bit. -/
theorem crc32_eq_feed (crc : UInt32) (buf : List UInt8) :
    (crc32 crc buf).toBitVec = ~~~Crc.feed crc32Poly (~~~crc.toBitVec) (bufBits buf) := by
  have hnot : ∀ c : UInt32, (c ^^^ 0xFFFFFFFF).toBitVec = ~~~c.toBitVec := fun c => by
    rw [UInt32.toBitVec_xor]
    exact BitVec.xor_allOnes
  have hfold : ∀ (buf : List UInt8) (c : UInt32),
      (buf.foldl (fun (c : UInt32) (b : UInt8) =>
        crc32Tab.getD ((c ^^^ b.toUInt32) &&& 0xFF).toNat 0 ^^^ (c >>> 8)) c).toBitVec =
        Crc.feed crc32Poly c.toBitVec (bufBits buf) := by
    intro buf
    induction buf with
    | nil => exact fun c => rfl
    | cons b buf ih =>
      intro c
      have hcons : bufBits (b :: buf) = Crc.bits b.toBitVec ++ bufBits buf := rfl
      rw [List.foldl_cons, ih, hcons, Crc.feed_append, toBitVec_step]
  rw [crc32, hnot, hfold, hnot]

/-- Nothing changes the checksum of nothing. -/
theorem crc32_nil (crc : UInt32) : crc32 crc [] = crc := by
  rw [crc32, List.foldl_nil, UInt32.xor_assoc, UInt32.xor_self, UInt32.xor_zero]

/-- A buffer may be handed over in parts. -/
theorem crc32_append (crc : UInt32) (a b : List UInt8) :
    crc32 crc (a ++ b) = crc32 (crc32 crc a) b := by
  rw [← UInt32.toBitVec_inj, crc32_eq_feed, crc32_eq_feed, crc32_eq_feed, bufBits_append,
    Crc.feed_append, BitVec.not_not]

/-- The parts of a buffer, one after the other, leave the checksum of the polynomial. -/
theorem crc32_parts (crc : UInt32) (parts : List (List UInt8)) :
    (parts.foldl crc32 crc).toBitVec =
      ~~~Crc.feed crc32Poly (~~~crc.toBitVec) (bufBits parts.flatten) := by
  rw [← crc32_eq_feed]
  congr 1
  induction parts generalizing crc with
  | nil => rw [List.foldl_nil, List.flatten_nil, crc32_nil]
  | cons a parts ih => rw [List.foldl_cons, ih, List.flatten_cons, crc32_append]

/-! ### Windows of a buffer -/

/-- Two texts have one checksum if they leave the register alike. -/
theorem crc32_eq_iff {crc : UInt32} {a b : List UInt8} : crc32 crc a = crc32 crc b ↔
    Crc.feed crc32Poly (~~~crc.toBitVec) (bufBits a) =
      Crc.feed crc32Poly (~~~crc.toBitVec) (bufBits b) := by
  rw [← UInt32.toBitVec_inj, crc32_eq_feed, crc32_eq_feed, BitVec.not_inj]

/-- **A difference in 32 consecutive bits changes the checksum.** -/
theorem crc32_ne_of_window (crc : UInt32) {a b : List UInt8} {u x y v : List Bool}
    (ha : bufBits a = u ++ x ++ v) (hb : bufBits b = u ++ y ++ v) (hx : x.length ≤ 32)
    (hlen : x.length = y.length) (hne : x ≠ y) : crc32 crc a ≠ crc32 crc b := by
  rw [ne_eq, crc32_eq_iff, ha, hb]
  exact Crc.feed_window_ne crc32Poly_top _ u v hx hlen hne

theorem crc32_ne_of_window_ab : crc32 0 [97] ≠ crc32 0 [98] :=
  crc32_ne_of_window 0 (u := []) (x := [true, false]) (y := [false, true])
    (v := [false, false, false, true, true, false]) (by decide) (by decide) (by decide) (by decide)
    (by decide)

/-- Four bytes at most, one behind the other. -/
theorem eq_of_crc32_eq (crc : UInt32) (u v : List UInt8) {x y : List UInt8} (hx : x.length ≤ 4)
    (hlen : x.length = y.length) (h : crc32 crc (u ++ x ++ v) = crc32 crc (u ++ y ++ v)) :
    x = y := by
  by_contra hne
  rw [crc32_eq_iff, bufBits_append, bufBits_append, bufBits_append, bufBits_append] at h
  refine Crc.feed_window_ne crc32Poly_top _ (bufBits u) (bufBits v) ?_ ?_
    (fun hb => hne (bufBits_injective hb)) h
  · rw [length_bufBits]
    omega
  · rw [length_bufBits, length_bufBits, hlen]

/-- **Four bytes can be chosen for any checksum**, wherever they stand, and in one way only. -/
theorem existsUnique_crc32_eq (crc target : UInt32) (u v : List UInt8) :
    ∃! x : BitVec 32, crc32 crc (u ++ wordBytes x ++ v) = target := by
  have hiff : ∀ x : BitVec 32, crc32 crc (u ++ wordBytes x ++ v) = target ↔
      Crc.feed crc32Poly (~~~crc.toBitVec) (bufBits u ++ Crc.bits x ++ bufBits v) =
        ~~~target.toBitVec := by
    intro x
    rw [← UInt32.toBitVec_inj, crc32_eq_feed, bufBits_append, bufBits_append, bufBits_wordBytes]
    exact ⟨fun h => by rw [← h, BitVec.not_not], fun h => by rw [h, BitVec.not_not]⟩
  simp only [hiff]
  exact Crc.existsUnique_window crc32Poly_top _ _ _ _

end Lidas
