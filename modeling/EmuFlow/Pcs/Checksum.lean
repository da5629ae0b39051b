import EmuFlow.Lib.ErrorDetection
import EmuFlow.Pcs.Xgmii

/-!
# What the checksum of a record detects

The sender's checksum and the receiver's go over the same 88 bits in the same order, so flipped bits
change the difference of the two by a sum of syndromes, one for each of the 98 bits of a frame that
carry the record or its checksum.
-/

namespace EmuFlow.Pcs

open ErrorDetection List

/-! ## the checksum is affine -/

/-- `crc16_ccitt` from another start value. -/
def crcFrom (start : BitVec 16) (value : BitVec 88) : BitVec 16 :=
  ((List.range 88).reverse.map value.getLsbD).foldl crcRound start

def crcLinear (value : BitVec 88) : BitVec 16 := crcFrom 0 value

theorem crcRound_xor (a b : BitVec 16) (x y : Bool) :
    crcRound (a ^^^ b) (x ^^ y) = crcRound a x ^^^ crcRound b y := by
  have hc : ∀ p q r : BitVec 16, p ^^^ q = p ^^^ r ^^^ (q ^^^ r) := by
    intro p q r
    rw [BitVec.xor_assoc p r, BitVec.xor_comm q r, ← BitVec.xor_assoc r r, BitVec.xor_self,
      BitVec.zero_xor]
  unfold crcRound
  rw [BitVec.getLsbD_xor, BitVec.shiftLeft_xor_distrib]
  cases a.getLsbD 15 <;> cases b.getLsbD 15 <;> cases x <;> cases y <;> simp <;>
    first | ac_rfl | exact hc _ _ _

/-- The register is linear in its start and in the bits. -/
theorem crcFrom_xor (a b : BitVec 16) (v e : BitVec 88) :
    crcFrom (a ^^^ b) (v ^^^ e) = crcFrom a v ^^^ crcFrom b e := by
  unfold crcFrom
  generalize (List.range 88).reverse = positions
  induction positions generalizing a b with
  | nil => rfl
  | cons i positions ih =>
    rw [map_cons, foldl_cons, BitVec.getLsbD_xor, crcRound_xor, ih]
    rfl

theorem crc16Ccitt_xor (v e : BitVec 88) : crc16Ccitt (v ^^^ e) = crc16Ccitt v ^^^ crcLinear e := by
  have h := crcFrom_xor 0xffff 0 v e
  rwa [BitVec.ofNat_eq_ofNat, BitVec.ofNat_eq_ofNat, BitVec.xor_zero] at h

theorem crcLinear_xor (v e : BitVec 88) : crcLinear (v ^^^ e) = crcLinear v ^^^ crcLinear e := by
  have h := crcFrom_xor 0 0 v e
  rwa [BitVec.xor_self] at h

/-! ## fields of changed columns -/

theorem byte_xor {w : Nat} (a b : BitVec w) (i : Nat) : byte (a ^^^ b) i = byte a i ^^^ byte b i :=
  BitVec.extractLsb'_xor

theorem word16_xor (a b c d : BitVec 8) : word16 (a ^^^ c) (b ^^^ d) = word16 a b ^^^ word16 c d :=
  BitVec.xor_append.symm

theorem word64_xor (a7 a6 a5 a4 a3 a2 a1 a0 b7 b6 b5 b4 b3 b2 b1 b0 : BitVec 8) :
    word64 (a7 ^^^ b7) (a6 ^^^ b6) (a5 ^^^ b5) (a4 ^^^ b4) (a3 ^^^ b3) (a2 ^^^ b2) (a1 ^^^ b1)
        (a0 ^^^ b0) =
      word64 a7 a6 a5 a4 a3 a2 a1 a0 ^^^ word64 b7 b6 b5 b4 b3 b2 b1 b0 := by
  apply BitVec.eq_of_getLsbD_eq
  intro i _
  simp only [word64, BitVec.getLsbD_append, BitVec.getLsbD_xor]
  repeat' split
  all_goals rfl

theorem kindByte_xor (a b : BitVec 2) : kindByte (a ^^^ b) = kindByte a ^^^ kindByte b := by
  rw [kindByte, kindByte, kindByte, BitVec.xor_append, BitVec.xor_self]

theorem append_xor (a c : BitVec 8) (b d : BitVec 16) (x y : BitVec 64) :
    (a ^^^ c) ++ (b ^^^ d) ++ (x ^^^ y) = (a ++ b ++ x) ^^^ (c ++ d ++ y) := by
  rw [BitVec.xor_append, BitVec.xor_append]

def carried (header body : BitVec 64) : BitVec 88 :=
  kindByte (header.extractLsb' 24 2) ++ word16 (byte header 5) (byte header 4) ++
    word64 (byte body 5) (byte body 4) (byte body 3) (byte body 2) (byte body 1) (byte body 0)
      (byte header 7) (byte header 6)

theorem carried_xor (h b x y : BitVec 64) :
    carried (h ^^^ x) (b ^^^ y) = carried h b ^^^ carried x y := by
  simp only [carried, BitVec.extractLsb'_xor, byte_xor, kindByte_xor, word16_xor, word64_xor]
  exact append_xor _ _ _ _ _ _

/-! ## the difference of the two checksums -/

/-- `received_crc ^ expected_crc`. -/
def difference (header body : BitVec 64) : BitVec 16 :=
  word16 (byte body 7) (byte body 6) ^^^ crc16Ccitt (carried header body)

def headerChange (x : BitVec 64) : BitVec 16 := crcLinear (carried x 0)

def bodyChange (y : BitVec 64) : BitVec 16 :=
  word16 (byte y 7) (byte y 6) ^^^ crcLinear (carried 0 y)

theorem linear_headerChange : Linear headerChange := by
  intro a b
  have h : carried (a ^^^ b) (0 ^^^ 0) = carried a 0 ^^^ carried b 0 := carried_xor a 0 b 0
  rw [show (0 : BitVec 64) ^^^ 0 = 0 by rfl] at h
  rw [headerChange, headerChange, headerChange, h, crcLinear_xor]

theorem linear_bodyChange : Linear bodyChange := by
  intro a b
  have h : carried (0 ^^^ 0) (a ^^^ b) = carried 0 a ^^^ carried 0 b := carried_xor 0 a 0 b
  rw [show (0 : BitVec 64) ^^^ 0 = 0 by rfl] at h
  rw [bodyChange, bodyChange, bodyChange, h, crcLinear_xor, byte_xor, byte_xor, word16_xor]
  ac_rfl

/-- What the deframer compares changes by the flips alone. -/
theorem difference_xor (h b x y : BitVec 64) :
    difference (h ^^^ x) (b ^^^ y) = difference h b ^^^ (headerChange x ^^^ bodyChange y) := by
  have hs : carried x y = carried x 0 ^^^ carried 0 y := by
    have h := carried_xor x 0 0 y
    rwa [BitVec.ofNat_eq_ofNat, BitVec.xor_zero, BitVec.zero_xor] at h
  rw [difference, difference, headerChange, bodyChange, carried_xor, crc16Ccitt_xor, hs,
    crcLinear_xor, byte_xor, byte_xor, word16_xor]
  ac_rfl

/-! ## the syndromes -/

/-- The data bits of a header that carry the record: kind, sequence and the low payload. -/
def headerBits : List Nat := [24, 25] ++ (List.range 32).map (· + 32)

def flipSyndrome : Nat ⊕ Nat → BitVec 16
  | .inl i => headerChange (BitVec.twoPow 64 i)
  | .inr i => bodyChange (BitVec.twoPow 64 i)

def frameBits : List (Nat ⊕ Nat) := headerBits.map .inl ++ (List.range 64).map .inr

/-- No two bits of a frame have one syndrome, -/
theorem nodup_syndromes : (frameBits.map flipSyndrome).Nodup := by decide +kernel

/-- and each is odd, so that no three of them add up to zero. -/
theorem odd_syndromes : (frameBits.map flipSyndrome).all parity = true := by decide +kernel

def frameFlips (x y : BitVec 64) : List (Nat ⊕ Nat) := (flips x).map .inl ++ (flips y).map .inr

/-- The change is the sum of the syndromes of the flipped bits. -/
theorem change_eq_total (x y : BitVec 64) :
    headerChange x ^^^ bodyChange y = total ((frameFlips x y).map flipSyndrome) := by
  rw [linear_headerChange.eq_total, linear_bodyChange.eq_total, frameFlips, map_append,
    total_append, map_map, map_map]
  simp only [Function.comp_def, flipSyndrome]

theorem nodup_frameFlips (x y : BitVec 64) : (frameFlips x y).Nodup := by
  refine Nodup.append ?_ ?_ ?_
  · exact (nodup_flips x).map Sum.inl_injective
  · exact (nodup_flips y).map Sum.inr_injective
  · intro bit hx hy
    obtain ⟨i, -, rfl⟩ := mem_map.mp hx
    obtain ⟨j, -, h⟩ := mem_map.mp hy
    cases h

theorem mem_frameBits {x y : BitVec 64} (hx : ∀ i ∈ flips x, i ∈ headerBits) {bit : Nat ⊕ Nat}
    (h : bit ∈ frameFlips x y) : bit ∈ frameBits := by
  rcases List.mem_append.mp h with h | h
  · obtain ⟨i, hi, rfl⟩ := mem_map.mp h
    exact mem_append_left _ (mem_map_of_mem (hx i hi))
  · obtain ⟨i, hi, rfl⟩ := mem_map.mp h
    exact mem_append_right _ (mem_map_of_mem
      (mem_range.mpr (BitVec.lt_of_getLsbD (mem_flips.mp hi))))

/-- **Up to three flips change what the deframer compares.** -/
theorem difference_ne {h b x y : BitVec 64} (hx : ∀ i ∈ flips x, i ∈ headerBits)
    (hf : weight x + weight y ≤ 3) (hh : x ≠ 0 ∨ y ≠ 0) :
    difference (h ^^^ x) (b ^^^ y) ≠ difference h b := by
  have hl : (frameFlips x y).length = weight x + weight y := by
    simp [frameFlips, weight]
  have hne : frameFlips x y ≠ [] := by
    intro hn
    rw [hn, length_nil] at hl
    have hx0 : weight x = 0 := by omega
    have hy : weight y = 0 := by omega
    rcases hh with hh | hh
    · exact hh (weight_eq_zero.mp hx0)
    · exact hh (weight_eq_zero.mp hy)
  have hc : headerChange x ^^^ bodyChange y ≠ 0 := by
    rw [change_eq_total]
    refine total_ne_zero ?_ ?_ ?_ ?_
    · refine (nodup_frameFlips x y).map_on ?_
      intro bit hb bit' hb' heq
      exact inj_on_of_nodup_map nodup_syndromes (mem_frameBits hx hb)
        (mem_frameBits hx hb') heq
    · intro syndrome hs
      obtain ⟨bit, hb, rfl⟩ := mem_map.mp hs
      exact all_eq_true.mp odd_syndromes _ (mem_map_of_mem (mem_frameBits hx hb))
    · simpa using hne
    · rw [length_map, hl]
      exact hf
  rw [difference_xor]
  intro heq
  exact hc ((BitVec.xor_right_inj _).mp (heq.trans BitVec.xor_zero.symm))

end EmuFlow.Pcs
