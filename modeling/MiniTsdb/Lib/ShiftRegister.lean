import Mathlib

/-! The shift register of a cyclic redundancy check, low bit first, for any width and
polynomial. A step is linear over XOR; it is injective if the polynomial has its top bit.
A message is fed in digits of `n` bits, and digits that fit the register together are fed
as one word. -/

namespace Lib

variable {w n : ℕ}

/-- One step: the low bit goes out and decides whether the polynomial comes in. -/
def shiftStep (poly r : BitVec w) : BitVec w :=
  if r.getLsbD 0 then poly ^^^ (r >>> 1) else r >>> 1

theorem shiftStep_xor (poly a b : BitVec w) :
    shiftStep poly (a ^^^ b) = shiftStep poly a ^^^ shiftStep poly b := by
  simp only [shiftStep, BitVec.getLsbD_xor, BitVec.ushiftRight_xor_distrib]
  cases a.getLsbD 0 <;> cases b.getLsbD 0
  · simp
  · simp only [Bool.false_xor, if_true, Bool.false_eq_true, if_false]
    ac_rfl
  · simp only [Bool.xor_false, if_true, Bool.false_eq_true, if_false]
    ac_rfl
  · -- the polynomial comes in twice on the right
    have hpoly : poly ^^^ a >>> 1 ^^^ (poly ^^^ b >>> 1) =
        (poly ^^^ poly) ^^^ (a >>> 1 ^^^ b >>> 1) := by ac_rfl
    simp [hpoly]

theorem iterate_shiftStep_xor (poly : BitVec w) (k : ℕ) (a b : BitVec w) :
    (shiftStep poly)^[k] (a ^^^ b) = (shiftStep poly)^[k] a ^^^ (shiftStep poly)^[k] b := by
  induction k generalizing a b with
  | zero => rfl
  | succ k ih => simp only [Function.iterate_succ_apply, shiftStep_xor, ih]

theorem iterate_shiftStep_of_low_clear (poly : BitVec w) {k : ℕ} {r : BitVec w}
    (h : ∀ i < k, r.getLsbD i = false) : (shiftStep poly)^[k] r = r >>> k := by
  induction k with
  | zero => simp
  | succ k ih =>
    have hlow : (r >>> k).getLsbD 0 = false := by
      rw [BitVec.getLsbD_ushiftRight]
      exact h k (by omega)
    rw [Function.iterate_succ_apply', ih fun i hi => h i (by omega), shiftStep, hlow,
      BitVec.shiftRight_add]
    simp

theorem iterate_shiftStep_shiftLeft (poly : BitVec w) (k : ℕ) (r : BitVec w) :
    (shiftStep poly)^[k] (r <<< k) = r <<< k >>> k := by
  apply iterate_shiftStep_of_low_clear
  intro i hi
  simp [hi]

/-- What went out of the register can be read off its top bit. -/
theorem shiftStep_msb {poly : BitVec w} (hpoly : poly.msb = true) (r : BitVec w) :
    (shiftStep poly r).msb = r.getLsbD 0 := by
  have htop : (r >>> 1).msb = false := by
    rw [BitVec.msb_eq_getLsbD_last, BitVec.getLsbD_ushiftRight]
    apply BitVec.getLsbD_of_ge
    omega
  cases hr : r.getLsbD 0 <;> simp [shiftStep, hr, htop, hpoly]

theorem eq_of_low_of_shift {a b : BitVec w} (hlow : a.getLsbD 0 = b.getLsbD 0)
    (hshift : a >>> 1 = b >>> 1) : a = b := by
  apply BitVec.eq_of_getLsbD_eq
  intro i _
  cases i with
  | zero => exact hlow
  | succ i =>
    have hi := congrArg (fun r : BitVec w => r.getLsbD i) hshift
    simpa [Nat.add_comm] using hi

theorem shiftStep_injective {poly : BitVec w} (hpoly : poly.msb = true) :
    Function.Injective (shiftStep poly) := by
  intro a b h
  have hlow : a.getLsbD 0 = b.getLsbD 0 := by
    rw [← shiftStep_msb hpoly a, ← shiftStep_msb hpoly b, h]
  apply eq_of_low_of_shift hlow
  cases hb : b.getLsbD 0 <;> simpa [shiftStep, hlow, hb] using h

def feed (poly r : BitVec w) (d : BitVec n) : BitVec w :=
  (shiftStep poly)^[n] (r ^^^ d.setWidth w)

/-- The digits next to each other, the first one lowest. -/
def pack (w : ℕ) : List (BitVec n) → BitVec w
  | [] => 0#w
  | d :: ds => d.setWidth w ^^^ pack w ds <<< n

theorem getLsbD_pack_of_ge (ds : List (BitVec n)) {i : ℕ} (h : n * ds.length ≤ i) :
    (pack w ds).getLsbD i = false := by
  induction ds generalizing i with
  | nil => simp [pack]
  | cons d ds ih =>
    rw [List.length_cons, Nat.mul_succ] at h
    have hd : d.getLsbD i = false := BitVec.getLsbD_of_ge d i (by omega)
    have hds := ih (i := i - n) (by omega)
    simp [pack, hd, hds]

theorem pack_shift (ds : List (BitVec n)) (h : n * ds.length + n ≤ w) :
    pack w ds <<< n >>> n = pack w ds := by
  apply BitVec.eq_of_getLsbD_eq
  intro i hi
  simp only [BitVec.getLsbD_ushiftRight, BitVec.getLsbD_shiftLeft]
  by_cases hin : n + i < w
  · simp [hin]
  · simp [hin, getLsbD_pack_of_ge ds (show n * ds.length ≤ i by omega)]

/-- Digits that fit the register are fed as one word. -/
theorem foldl_feed_eq_pack (poly r : BitVec w) (ds : List (BitVec n))
    (h : n * ds.length ≤ w) :
    ds.foldl (feed poly) r = (shiftStep poly)^[n * ds.length] (r ^^^ pack w ds) := by
  induction ds generalizing r with
  | nil => simp [pack]
  | cons d ds ih =>
    rw [List.length_cons, Nat.mul_succ] at h
    have hrest : feed poly r d ^^^ pack w ds =
        (shiftStep poly)^[n] (r ^^^ pack w (d :: ds)) := by
      rw [pack, ← BitVec.xor_assoc, iterate_shiftStep_xor, iterate_shiftStep_shiftLeft,
        pack_shift ds h, feed]
    rw [List.foldl_cons, ih _ (by omega), hrest, List.length_cons, Nat.mul_succ,
      Function.iterate_add_apply]

theorem pack_injective {ds es : List (BitVec n)} (hlen : ds.length = es.length)
    (hfit : n * ds.length ≤ w) (h : pack w ds = pack w es) : ds = es := by
  induction ds generalizing es with
  | nil => simpa using hlen.symm
  | cons d ds ih =>
    obtain _ | ⟨e, es⟩ := es
    · simp at hlen
    rw [List.length_cons, Nat.mul_succ] at hfit
    have hde : d = e := by
      apply BitVec.eq_of_getLsbD_eq
      intro i hi
      have hbit := congrArg (fun r : BitVec w => r.getLsbD i) h
      simpa [pack, hi, show i < w by omega] using hbit
    subst hde
    have hrest : pack w ds <<< n = pack w es <<< n := by simpa [pack] using h
    have hlen' : ds.length = es.length := by simpa using hlen
    have hpack : pack w ds = pack w es := by
      rw [← pack_shift ds hfit, hrest, pack_shift es (by rw [← hlen']; exact hfit)]
    rw [ih hlen' (by omega) hpack]

/-- Packing single bits gives the word with these bits. -/
theorem getLsbD_pack_ofBool (bits : List Bool) {i : ℕ} (hi : i < w) :
    (pack w (bits.map BitVec.ofBool)).getLsbD i = bits.getD i false := by
  induction bits generalizing i with
  | nil => simp [pack]
  | cons b bits ih =>
    cases i with
    | zero => simp [pack, hi]
    | succ i =>
      have hrest := ih (i := i) (by omega)
      rw [BitVec.getLsbD_eq_getElem (by omega)] at hrest
      simpa [pack, hi] using hrest

theorem feed_injective {poly : BitVec w} (hpoly : poly.msb = true) (d : BitVec n) :
    Function.Injective fun r => feed poly r d := by
  intro a b h
  have := (shiftStep_injective hpoly).iterate n h
  simpa using this

theorem foldl_feed_injective {poly : BitVec w} (hpoly : poly.msb = true)
    (ds : List (BitVec n)) : Function.Injective fun r => ds.foldl (feed poly) r := by
  induction ds with
  | nil => exact Function.injective_id
  | cons d ds ih => exact ih.comp (feed_injective hpoly d)

/-- Two messages that differ only in digits that fit the register together leave different
registers. -/
theorem foldl_feed_ne_of_burst {poly : BitVec w} (hpoly : poly.msb = true) (r : BitVec w)
    (before : List (BitVec n)) {ds es : List (BitVec n)} (behind : List (BitVec n))
    (hlen : ds.length = es.length) (hfit : n * ds.length ≤ w) (hne : ds ≠ es) :
    (before ++ (ds ++ behind)).foldl (feed poly) r ≠
      (before ++ (es ++ behind)).foldl (feed poly) r := by
  intro h
  simp only [List.foldl_append] at h
  have hword := foldl_feed_injective hpoly behind h
  have hfit' : n * es.length ≤ w := by rw [← hlen]; exact hfit
  rw [foldl_feed_eq_pack _ _ ds hfit, foldl_feed_eq_pack _ _ es hfit', ← hlen] at hword
  have hpack := (shiftStep_injective hpoly).iterate _ hword
  exact hne (pack_injective hlen hfit (by simpa using hpack))

end Lib
