import MiniTsdb.Lib.ShiftRegister
import MiniTsdb.Spec.Crc32

/-! `Crc32` is a shift register fed byte by byte: the table does eight bit steps at once. So
it can be continued over the parts of a string, it is the check of the standard computed bit by
bit, and it tells any two strings apart that differ within four consecutive bytes. -/

namespace MiniTsdb
open Lib

def crcPolynomial : BitVec 32 := 0xEDB88320#32

/-- The bits of a string, the low bit of each byte first. -/
def messageBits (data : Bytes) : List Bool :=
  data.flatMap fun b => (List.range 8).map b.val.testBit

/-- One bit of the message enters the reflected register. -/
def crcMessageBit (reg : BitVec 32) (bit : Bool) : BitVec 32 :=
  if (reg.getLsbD 0 ^^ bit) = true then crcPolynomial ^^^ (reg >>> 1) else reg >>> 1

/-- The reflected CRC-32 of the standard: all ones at the start, one bit of the message after
the other, the complement at the end. -/
def crcBitByBit (data : Bytes) : BitVec 32 :=
  ~~~((messageBits data).foldl crcMessageBit (BitVec.allOnes 32))

def crcDigit (b : Byte) : BitVec 8 := BitVec.ofNat 8 b.val

theorem crcDigit_injective : Function.Injective crcDigit := by
  intro a b h
  have hval := congrArg BitVec.toNat h
  have ha := a.isLt
  have hb := b.isLt
  simp only [crcDigit, BitVec.toNat_ofNat] at hval
  apply Fin.ext
  omega

theorem setWidth_crcDigit (b : Byte) : (crcDigit b).setWidth 32 = BitVec.ofNat 32 b.val := by
  have hb := b.isLt
  apply BitVec.eq_of_toNat_eq
  simp only [crcDigit, BitVec.toNat_setWidth, BitVec.toNat_ofNat]
  omega

theorem crcPolynomial_msb : crcPolynomial.msb = true := by decide

theorem crcBit_eq_shiftStep (c : BitVec 32) : crcBit c = shiftStep crcPolynomial c := by
  have hlow : c &&& 1#32 = 0#32 ↔ c.getLsbD 0 = false := by
    rw [BitVec.and_one_eq_setWidth_ofBool_getLsbD]
    cases c.getLsbD 0 <;> decide
  unfold crcBit shiftStep crcPolynomial
  cases hc : c.getLsbD 0
  · simp [hlow.mpr hc]
  · simp [hlow, hc]

theorem crcTable_eq (i : BitVec 32) : crcTable i = (shiftStep crcPolynomial)^[8] i := by
  rw [crcTable, show crcBit = shiftStep crcPolynomial from funext crcBit_eq_shiftStep]

theorem low_byte_xor_high (x : BitVec 32) : x = (x &&& 0xFF#32) ^^^ ((x >>> 8) <<< 8) := by
  apply BitVec.eq_of_getLsbD_eq
  intro i hi
  have hmask : (0xFF#32).getLsbD i = decide (i < 8) := by
    interval_cases i <;> decide
  simp only [BitVec.getLsbD_xor, BitVec.getLsbD_and, BitVec.getLsbD_shiftLeft,
    BitVec.getLsbD_ushiftRight, hmask]
  by_cases h8 : i < 8
  · simp [h8]
  · simp [h8, hi, show 8 + (i - 8) = i by omega]

/-- The index into the table carries the low byte, the shift the other three. -/
theorem crcByte_eq_feed (r : BitVec 32) (b : Byte) :
    crcByte r b = feed crcPolynomial r (crcDigit b) := by
  have hb := b.isLt
  have hhigh : r >>> 8 = (r ^^^ BitVec.ofNat 32 b.val) >>> 8 := by
    have hzero : BitVec.ofNat 32 b.val >>> 8 = 0#32 := by
      apply BitVec.eq_of_toNat_eq
      simp only [BitVec.toNat_ushiftRight, BitVec.toNat_ofNat, Nat.shiftRight_eq_div_pow]
      omega
    rw [BitVec.ushiftRight_xor_distrib, hzero, BitVec.xor_zero]
  have hsplit := low_byte_xor_high (r ^^^ BitVec.ofNat 32 b.val)
  have hback : (r ^^^ BitVec.ofNat 32 b.val) >>> 8 <<< 8 >>> 8 =
      (r ^^^ BitVec.ofNat 32 b.val) >>> 8 := by
    apply BitVec.eq_of_getLsbD_eq
    intro i hi
    simp only [BitVec.getLsbD_ushiftRight, BitVec.getLsbD_shiftLeft]
    by_cases h : 8 + i < 32
    · simp [h]
    · have htop : (r ^^^ BitVec.ofNat 32 b.val).getLsbD (8 + i) = false :=
        BitVec.getLsbD_of_ge _ _ (by omega)
      simp [h, htop]
  rw [feed, setWidth_crcDigit, hsplit, iterate_shiftStep_xor, iterate_shiftStep_shiftLeft, hback,
    crcByte, crcTable_eq, hhigh]

theorem foldl_crcByte (data : Bytes) (r : BitVec 32) :
    data.foldl crcByte r = (data.map crcDigit).foldl (feed crcPolynomial) r := by
  rw [List.foldl_map, show crcByte = fun r b => feed crcPolynomial r (crcDigit b) from
    funext fun r => funext fun b => crcByte_eq_feed r b]

theorem crcMessageBit_eq_feed (r : BitVec 32) (bit : Bool) :
    crcMessageBit r bit = feed crcPolynomial r (BitVec.ofBool bit) := by
  have hshift : (BitVec.ofBool bit).setWidth 32 >>> 1 = 0#32 := by cases bit <;> decide
  simp [crcMessageBit, feed, shiftStep, BitVec.ushiftRight_xor_distrib, hshift]

theorem pack_testBit (b : Byte) :
    pack 32 (((List.range 8).map b.val.testBit).map BitVec.ofBool) = (crcDigit b).setWidth 32 := by
  have hb := b.isLt
  apply BitVec.eq_of_getLsbD_eq
  intro i hi
  rw [getLsbD_pack_ofBool _ hi]
  by_cases h8 : i < 8
  · simp [crcDigit, h8, hi]
  · have hbig : b.val.testBit i = false :=
      Nat.testBit_lt_two_pow (hb.trans_le (Nat.pow_le_pow_right (by omega : 0 < 2) (by omega : 8 ≤ i)))
    simp [crcDigit, h8, hbig]

theorem foldl_crcMessageBit (b : Byte) (r : BitVec 32) :
    ((List.range 8).map b.val.testBit).foldl crcMessageBit r = feed crcPolynomial r (crcDigit b) := by
  have hfeed := foldl_feed_eq_pack crcPolynomial r
    (((List.range 8).map b.val.testBit).map BitVec.ofBool) (by simp)
  rw [pack_testBit, List.foldl_map] at hfeed
  rw [show crcMessageBit = fun r bit => feed crcPolynomial r (BitVec.ofBool bit) from
    funext fun r => funext fun bit => crcMessageBit_eq_feed r bit, hfeed]
  simp [feed]

theorem foldl_messageBits (data : Bytes) (r : BitVec 32) :
    (messageBits data).foldl crcMessageBit r = data.foldl crcByte r := by
  induction data generalizing r with
  | nil => rfl
  | cons b data ih =>
    have hcons : messageBits (b :: data) = (List.range 8).map b.val.testBit ++ messageBits data := rfl
    rw [hcons, List.foldl_append, ih, foldl_crcMessageBit, List.foldl_cons, crcByte_eq_feed]

theorem crc32_eq_crcBitByBit (data : Bytes) : crc32 data 0#32 = crcBitByBit data := by
  have hstart : (0#32 ^^^ 0xFFFFFFFF#32) = BitVec.allOnes 32 := by decide
  have hend (r : BitVec 32) : r ^^^ 0xFFFFFFFF#32 = ~~~r := by
    rw [show 0xFFFFFFFF#32 = BitVec.allOnes 32 by decide, BitVec.xor_allOnes]
  rw [crc32, crcBitByBit, foldl_messageBits, hstart, hend]

/-- The inversions at the end of the first part and at the start of the second cancel. -/
theorem crc32_append (a b : Bytes) (c : BitVec 32) :
    crc32 (a ++ b) c = crc32 b (crc32 a c) := by
  unfold crc32
  rw [List.foldl_append, BitVec.xor_assoc _ 0xFFFFFFFF#32 0xFFFFFFFF#32]
  simp

/-- `Crc32` may be computed over a string in parts, and it is the CRC-32 of the standard. -/
theorem crc32_incremental_bitwise :
    (∀ (a b : Bytes) (c : BitVec 32), crc32 (a ++ b) c = crc32 b (crc32 a c)) ∧
      ∀ data : Bytes, crc32 data 0#32 = crcBitByBit data :=
  ⟨crc32_append, crc32_eq_crcBitByBit⟩

theorem split_window {xs ys : Bytes} {i k : ℕ}
    (hwindow : ∀ j, xs[j]? ≠ ys[j]? → i ≤ j ∧ j < i + k) :
    xs = xs.take i ++ (slice xs i k ++ xs.drop (i + k)) ∧
      ys = xs.take i ++ (slice ys i k ++ xs.drop (i + k)) := by
  have hparts (zs : Bytes) : zs = zs.take i ++ (slice zs i k ++ zs.drop (i + k)) := by
    rw [slice, ← List.drop_drop, List.take_append_drop, List.take_append_drop]
  have hbefore : xs.take i = ys.take i := by
    apply List.ext_getElem?
    intro j
    by_cases hj : j < i
    · have hsame : xs[j]? = ys[j]? := by
        by_contra hne
        have := (hwindow j hne).1
        omega
      simp [hj, hsame]
    · simp [hj]
  have hbehind : xs.drop (i + k) = ys.drop (i + k) := by
    apply List.ext_getElem?
    intro j
    rw [List.getElem?_drop, List.getElem?_drop]
    by_contra hne
    have := (hwindow _ hne).2
    omega
  refine ⟨hparts xs, ?_⟩
  rw [hbefore, hbehind]
  exact hparts ys

/-- Four bytes fill the register, so no two of them leave the same one. -/
theorem crc32_ne_of_burst {xs ys : Bytes} {i : ℕ} (crc : BitVec 32)
    (hlen : xs.length = ys.length) (hne : xs ≠ ys)
    (hwindow : ∀ j, xs[j]? ≠ ys[j]? → i ≤ j ∧ j < i + 4) : crc32 xs crc ≠ crc32 ys crc := by
  obtain ⟨hxs, hys⟩ := split_window hwindow
  have hslices : slice xs i 4 ≠ slice ys i 4 := by
    intro h
    rw [h, ← hys] at hxs
    exact hne hxs
  have hlength : (slice xs i 4).length = (slice ys i 4).length := by
    simp [slice, hlen]
  have hfour : (slice xs i 4).length ≤ 4 := by simp [slice]
  have hdigits : (slice xs i 4).map crcDigit ≠ (slice ys i 4).map crcDigit := by
    intro h
    exact hslices (List.map_injective_iff.mpr crcDigit_injective h)
  have hregister := foldl_feed_ne_of_burst crcPolynomial_msb (crc ^^^ 0xFFFFFFFF#32)
    ((xs.take i).map crcDigit) ((xs.drop (i + 4)).map crcDigit)
    (by simpa using hlength) (by simp; omega) hdigits
  intro h
  apply hregister
  rw [crc32, crc32, BitVec.xor_left_inj, foldl_crcByte, foldl_crcByte] at h
  rw [hxs, hys] at h
  simpa using h

theorem crc32_set_ne {data : Bytes} {i : ℕ} {b : Byte} (hi : i < data.length)
    (hb : data[i]? ≠ some b) (crc : BitVec 32) : crc32 (data.set i b) crc ≠ crc32 data crc := by
  have hdiffer : data.set i b ≠ data := by
    intro h
    apply hb
    rw [← h, List.getElem?_set_self (by simpa using hi)]
  apply crc32_ne_of_burst (i := i) crc (by simp) hdiffer
  intro j hj
  by_cases hij : i = j
  · omega
  · exact absurd (List.getElem?_set_ne hij) hj

end MiniTsdb
