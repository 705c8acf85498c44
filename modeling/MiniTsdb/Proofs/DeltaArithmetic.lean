import MiniTsdb.Proofs.DeltaOfDelta
import MiniTsdb.Spec.DeltaArithmetic

/-! When the timestamp codec overflows. Its step is a gap of two timestamps read as a signed
number; the change of the step and its negation are `int64` values exactly if no two gaps in a
row lie on both sides of `2 ^ 63` and within `2 ^ 63` of each other. -/

namespace MiniTsdb
open Lib

/-- The list ascends; equal timestamps may follow each other. -/
def AscendingTimestamps (tss : List Int64) : Prop := tss.Pairwise fun t u => t.toInt ≤ u.toInt

/-- No operation on signed numbers overflows, in the encoder and in any number of calls of the
decoder on its stream. -/
def CodecDefined (tss : List Int64) : Prop :=
  ∃ stream, DeltaOfDeltaEncoder.checkedEncode tss = some stream ∧
    ∀ calls, ((DeltaOfDeltaDecoder.init stream).checkedNexts calls).isSome

/-- Two gaps in a row: both below `2 ^ 63`, or further apart than that. -/
def GapsFit (last_gap gap : ℤ) : Prop :=
  last_gap < 2 ^ 63 ∧ gap < 2 ^ 63 ∨ 2 ^ 63 < |gap - last_gap|

/-- Of all gaps of a list, where `last_gap` is the one before. -/
def AllGapsFit : ℤ → List Int64 → Prop
  | last_gap, t :: u :: tss =>
    GapsFit last_gap (u.toInt - t.toInt) ∧ AllGapsFit (u.toInt - t.toInt) (u :: tss)
  | _, _ => True

/-- A change of the step whose negation is an `int64` value as well. -/
def DodFits (last_delta delta : UInt64) : Prop :=
  -2 ^ 63 < delta.toInt64.toInt - last_delta.toInt64.toInt ∧
    delta.toInt64.toInt - last_delta.toInt64.toInt < 2 ^ 63

def AllDodsFit : UInt64 → UInt64 → List Int64 → Prop
  | _, _, [] => True
  | last_ts, last_delta, ts :: tss =>
    DodFits last_delta (ts.toUInt64 - last_ts) ∧ AllDodsFit ts.toUInt64 (ts.toUInt64 - last_ts) tss

theorem DodFits.fits64 {last_delta delta : UInt64} (h : DodFits last_delta delta) :
    Fits64 (delta.toInt64.toInt - last_delta.toInt64.toInt) := ⟨h.1.le, h.2⟩

theorem DodFits.toInt_sub {last_delta delta : UInt64} (h : DodFits last_delta delta) :
    (delta.toInt64 - last_delta.toInt64).toInt =
      delta.toInt64.toInt - last_delta.toInt64.toInt := by
  rw [Int64.toInt_sub, bmod_of_fits h.fits64]

/-- Other than the least number, each has its negation. -/
theorem neg_fits {dod : Int64} (h : -2 ^ 63 < dod.toInt) : Fits64 (-dod.toInt) := by
  have hhigh := dod.toInt_lt
  exact ⟨by omega, by omega⟩

namespace DeltaOfDeltaEncoder

variable {e : DeltaOfDeltaEncoder}

theorem checkedWriteSigned_eq (e : DeltaOfDeltaEncoder) (num_bits : ℕ) {dod : Int64}
    (h : -2 ^ 63 < dod.toInt) : e.checkedWriteSigned num_bits dod = some (e.writeSigned num_bits dod) := by
  unfold checkedWriteSigned writeSigned
  split_ifs
  · rw [negInt64_of_fits (neg_fits h)]
  · rfl

theorem checkedWriteDod_eq (e : DeltaOfDeltaEncoder) {dod : Int64} (h : -2 ^ 63 < dod.toInt) :
    e.checkedWriteDod dod = some (e.writeDod dod) := by
  unfold checkedWriteDod writeDod
  split_ifs
  · rfl
  · exact checkedWriteSigned_eq _ 6 h
  · exact checkedWriteSigned_eq _ 13 h
  · exact checkedWriteSigned_eq _ 64 h

/-- The least number has no negation, and only the widest class could hold it. -/
theorem checkedWriteDod_minValue (e : DeltaOfDeltaEncoder) :
    e.checkedWriteDod Int64.minValue = none := rfl

theorem checkedAdd_eq (hcount : e.count ≠ 0) {ts : Int64}
    (h : DodFits e.last_delta (ts.toUInt64 - e.last_ts)) : e.checkedAdd ts = some (e.add ts) := by
  rw [checkedAdd, if_neg hcount, add, if_neg hcount]
  dsimp only
  rw [subInt64_of_fits h.fits64]
  dsimp only
  rw [checkedWriteDod_eq e (by rw [h.toInt_sub]; exact h.1)]

theorem dodFits_of_checkedAdd (hcount : e.count ≠ 0) {ts : Int64}
    (h : (e.checkedAdd ts).isSome) : DodFits e.last_delta (ts.toUInt64 - e.last_ts) := by
  rw [checkedAdd, if_neg hcount] at h
  dsimp only at h
  cases hsub : subInt64 (ts.toUInt64 - e.last_ts).toInt64 e.last_delta.toInt64 with
  | none =>
    rw [hsub] at h
    simp at h
  | some dod =>
    have hdod := checked_eq_some_iff.mp hsub
    obtain ⟨hlow, hhigh⟩ := fits64_toInt dod
    rw [hdod] at hlow hhigh
    refine ⟨lt_of_le_of_ne hlow ?_, hhigh⟩
    intro hmin
    -- the least number cannot be written
    have heq : dod = Int64.minValue := by
      apply Int64.toInt_inj.mp
      rw [hdod, ← hmin]
      rfl
    rw [hsub, heq] at h
    dsimp only at h
    rw [checkedWriteDod_minValue] at h
    simp at h

theorem foldlM_checkedAdd (hcount : e.count ≠ 0) {tss : List Int64}
    (h : AllDodsFit e.last_ts e.last_delta tss) :
    tss.foldlM checkedAdd e = some (tss.foldl add e) := by
  induction tss generalizing e with
  | nil => rfl
  | cons ts tss ih =>
    obtain ⟨hts, htss⟩ := h
    have hadd : e.add ts = { e.writeDod ((ts.toUInt64 - e.last_ts).toInt64 - e.last_delta.toInt64) with
        last_ts := ts.toUInt64
        last_delta := ts.toUInt64 - e.last_ts
        count := e.count + 1 } := by
      rw [add, if_neg hcount]
    rw [List.foldlM_cons, checkedAdd_eq hcount hts, List.foldl_cons]
    apply ih
    · simp [hadd]
    · rw [hadd]
      exact htss

theorem allDodsFit_of_foldlM (hcount : e.count ≠ 0) {tss : List Int64}
    (h : (tss.foldlM checkedAdd e).isSome) : AllDodsFit e.last_ts e.last_delta tss := by
  induction tss generalizing e with
  | nil => trivial
  | cons ts tss ih =>
    rw [List.foldlM_cons] at h
    cases hts : e.checkedAdd ts with
    | none => simp [hts] at h
    | some e' =>
      have hfits := dodFits_of_checkedAdd hcount (by rw [hts]; rfl)
      have he' : e.add ts = e' := by
        rw [checkedAdd_eq hcount hfits] at hts
        exact Option.some.inj hts
      rw [hts] at h
      have hrest := ih (e := e') (by simp [← he', add, hcount]) h
      refine ⟨hfits, ?_⟩
      rw [← he', add, if_neg hcount] at hrest
      exact hrest

theorem checkedAdd_new (ts : Int64) : new.checkedAdd ts = some (new.add ts) := rfl

theorem checkedEncode_cons_of_fits {ts : Int64} {tss : List Int64}
    (h : AllDodsFit ts.toUInt64 0 tss) :
    checkedEncode (ts :: tss) = some (new.encode (ts :: tss)).1 := by
  obtain ⟨-, hts, hdelta, hcount⟩ := add_new ts
  have hall := foldlM_checkedAdd (e := new.add ts) (by rw [hcount]; decide)
    (by rw [hts, hdelta]; exact h)
  rw [checkedEncode, List.foldlM_cons, checkedAdd_new]
  change Option.map _ (tss.foldlM checkedAdd (new.add ts)) = _
  rw [hall]
  rfl

theorem allDodsFit_of_checkedEncode {ts : Int64} {tss : List Int64} {stream : Bytes}
    (h : checkedEncode (ts :: tss) = some stream) : AllDodsFit ts.toUInt64 0 tss := by
  obtain ⟨-, hts, hdelta, hcount⟩ := add_new ts
  rw [checkedEncode, List.foldlM_cons, checkedAdd_new] at h
  obtain ⟨e, he, -⟩ := Option.map_eq_some_iff.mp h
  have hall : (tss.foldlM checkedAdd (new.add ts)).isSome := by
    rw [show tss.foldlM checkedAdd (new.add ts) = some e from he]
    rfl
  have hfits := allDodsFit_of_foldlM (by rw [hcount]; decide) hall
  rwa [hts, hdelta] at hfits

end DeltaOfDeltaEncoder

namespace DeltaOfDeltaDecoder

variable {d : DeltaOfDeltaDecoder}

theorem checkedReadSigned_eq {bs : List Bool} {n : ℕ} {dod : Int64}
    (hn : n ≤ 64) (hneg : dod < 0 → (-dod).toUInt64.toNat < 2 ^ n)
    (hpos : ¬ dod < 0 → dod.toUInt64.toNat < 2 ^ n) (hrest : d.rest = signedBits n dod ++ bs)
    (hmin : -2 ^ 63 < dod.toInt) (hsum : Fits64 (d.last_delta.toInt64.toInt + dod.toInt)) :
    d.checkedReadSigned n = some (d.readSigned n) := by
  rw [signedBits] at hrest
  split_ifs at hrest with h
  · obtain ⟨d₁, hsign, hl₁⟩ := readBit_leaves hrest
    obtain ⟨d₂, hval, hl₂⟩ := readBits_leaves hn (hneg h) hl₁.rest
    have hback : negInt64 (-dod) = some dod := by
      have hnegated : (-dod).toInt = -dod.toInt := by
        rw [Int64.toInt_neg, bmod_of_fits (neg_fits hmin)]
      rw [negInt64, hnegated, neg_neg, checked_eq_some_iff]
    have hdelta := (hl₁.trans hl₂).last_delta
    have hadd : addInt64 d₂.last_delta.toInt64 dod = some (d₂.last_delta.toInt64 + dod) := by
      apply addInt64_of_fits
      rw [hdelta]
      exact hsum
    simp [checkedReadSigned, readSigned, hsign, hval, hback, hadd]
  · obtain ⟨d₁, hsign, hl₁⟩ := readBit_leaves hrest
    obtain ⟨d₂, hval, hl₂⟩ := readBits_leaves hn (hpos h) hl₁.rest
    have hdelta := (hl₁.trans hl₂).last_delta
    have hadd : addInt64 d₂.last_delta.toInt64 dod = some (d₂.last_delta.toInt64 + dod) := by
      apply addInt64_of_fits
      rw [hdelta]
      exact hsum
    simp [checkedReadSigned, readSigned, hsign, hval, hadd]

theorem checkedReadDod_eq {bs : List Bool} {dod : Int64} (hrest : d.rest = dodBits dod ++ bs)
    (hmin : -2 ^ 63 < dod.toInt) (hsum : Fits64 (d.last_delta.toInt64.toInt + dod.toInt)) :
    d.checkedReadDod = some d.readDod := by
  rw [dodBits] at hrest
  split_ifs at hrest with hzero hsix hthirteen <;>
    simp only [List.cons_append, List.nil_append] at hrest
  · obtain ⟨d₁, hb₁, -⟩ := readBit_leaves hrest
    simp [checkedReadDod, readDod, hb₁]
  · obtain ⟨d₁, hb₁, hl₁⟩ := readBit_leaves hrest
    obtain ⟨d₂, hb₂, hl₂⟩ := readBit_leaves hl₁.rest
    obtain ⟨hneg, hpos⟩ := abs_lt_of_le (n := 6) (b := 63) hsix.1 hsix.2
      (by decide) (by decide) (by decide)
    have hread := checkedReadSigned_eq (by norm_num) hneg hpos hl₂.rest hmin
      (by rw [(hl₁.trans hl₂).last_delta]; exact hsum)
    simp [checkedReadDod, readDod, hb₁, hb₂, hread]
  · obtain ⟨d₁, hb₁, hl₁⟩ := readBit_leaves hrest
    obtain ⟨d₂, hb₂, hl₂⟩ := readBit_leaves hl₁.rest
    obtain ⟨d₃, hb₃, hl₃⟩ := readBit_leaves hl₂.rest
    obtain ⟨hneg, hpos⟩ := abs_lt_of_le (n := 13) (b := 8191) hthirteen.1 hthirteen.2
      (by decide) (by decide) (by decide)
    have hread := checkedReadSigned_eq (by norm_num) hneg hpos hl₃.rest hmin
      (by rw [((hl₁.trans hl₂).trans hl₃).last_delta]; exact hsum)
    simp [checkedReadDod, readDod, hb₁, hb₂, hb₃, hread]
  · obtain ⟨d₁, hb₁, hl₁⟩ := readBit_leaves hrest
    obtain ⟨d₂, hb₂, hl₂⟩ := readBit_leaves hl₁.rest
    obtain ⟨d₃, hb₃, hl₃⟩ := readBit_leaves hl₂.rest
    have hread := checkedReadSigned_eq le_rfl (fun _ => UInt64.toNat_lt _)
      (fun _ => UInt64.toNat_lt _) hl₃.rest hmin
      (by rw [((hl₁.trans hl₂).trans hl₃).last_delta]; exact hsum)
    simp [checkedReadDod, readDod, hb₁, hb₂, hb₃, hread]

/-- Over the code words of a list, `Next` may be called any number of times. -/
theorem checkedNexts_isSome {tss : List Int64} {bs : List Bool}
    (hrest : d.rest = codeBits d.last_ts d.last_delta tss ++ bs) (hcount : d.count ≠ 0)
    (htotal : d.total_count ≤ (d.count + tss.length : ℕ))
    (hfits : AllDodsFit d.last_ts d.last_delta tss) (calls : ℕ) :
    (d.checkedNexts calls).isSome := by
  induction tss generalizing d calls with
  | nil =>
    obtain _ | calls := calls
    · rfl
    · have hend : (d.count : ℤ) ≥ d.total_count := by simpa using htotal
      rw [checkedNexts, checkedNext, if_pos hend]
      rfl
  | cons ts tss ih =>
    obtain _ | calls := calls
    · rfl
    obtain ⟨hts, htss⟩ := hfits
    rw [checkedNexts, checkedNext]
    by_cases hend : (d.count : ℤ) ≥ d.total_count
    · rw [if_pos hend]
      rfl
    · rw [codeBits, List.append_assoc] at hrest
      have hl := readDod_leaves hrest
      have hsum : Fits64 (d.last_delta.toInt64.toInt +
          ((ts.toUInt64 - d.last_ts).toInt64 - d.last_delta.toInt64).toInt) := by
        rw [hts.toInt_sub, add_sub_cancel]
        exact fits64_toInt _
      have hread := checkedReadDod_eq hrest (by rw [hts.toInt_sub]; exact hts.1) hsum
      have hdelta : d.readDod.last_delta = ts.toUInt64 - d.last_ts := by
        rw [hl.last_delta]
        simp
      have hlast : d.readDod.last_ts + d.readDod.last_delta = ts.toUInt64 := by
        rw [hdelta, hl.last_ts]
        simp
      rw [if_neg hend, if_neg hcount, hread]
      dsimp only
      rw [hlast]
      apply ih
      · dsimp only
        rw [hdelta]
        exact hl.rest
      · simp
      · dsimp only
        rw [hl.total_count, hl.count]
        simp only [List.length_cons] at htotal
        push_cast at htotal ⊢
        omega
      · dsimp only
        rw [hdelta]
        exact htss

theorem asInt32_le (n : ℕ) : asInt32 n ≤ n := by
  unfold asInt32
  split_ifs <;> omega

/-- A varint of more than ten bytes is no value. -/
theorem decodeVarint64Loop_of_long {s rest : Bytes} {turns v pos shift result : ℕ}
    (h : s.drop pos = encodeVarint v ++ rest) (hv : 128 ^ turns ≤ v) :
    (decodeVarint64Loop s turns pos shift result).1 = 0 := by
  induction turns generalizing v pos shift result with
  | zero => rfl
  | succ turns ih =>
    have hlong : v ≥ 128 := le_trans (Nat.le_self_pow (Nat.succ_ne_zero turns) 128) hv
    have hval : (Fin.ofNat 256 (v % 128 + 128)).val = v % 128 + 128 := by
      simp [Fin.ofNat]
      omega
    rw [encodeVarint, if_pos hlong, List.cons_append] at h
    have htail : s.drop (pos + 1) = encodeVarint (v / 128) ++ rest := drop_add_of_drop (c := [_]) h
    rw [decodeVarint64Loop, getElem?_of_drop h]
    dsimp only
    rw [hval, if_neg (by omega)]
    apply ih htail
    rwa [Nat.le_div_iff_mul_le (by norm_num), ← pow_succ]

theorem checkedNexts_encode {ts : Int64} {tss : List Int64} (hfits : AllDodsFit ts.toUInt64 0 tss)
    (calls : ℕ) :
    ((init (DeltaOfDeltaEncoder.new.encode (ts :: tss)).1).checkedNexts calls).isSome := by
  obtain ⟨body, k, hencode, hbits⟩ := DeltaOfDeltaEncoder.encode_cons ts tss
  obtain _ | calls := calls
  · rfl
  rw [hencode]
  dsimp only
  set data := encodeVarint (tss.length + 1) ++ (encodeVarint ts.toUInt64.toNat ++ body) with hdata
  have hhead : data.drop 0 =
    encodeVarint (tss.length + 1) ++ (encodeVarint ts.toUInt64.toNat ++ body) := rfl
  by_cases hlong : 128 ^ 10 ≤ tss.length + 1
  · -- a count that cannot be read is zero
    have htotal : (decodeVarint64 data 0).1 = 0 := decodeVarint64Loop_of_long hhead hlong
    have hend : (((init data).count : ℕ) : ℤ) ≥ (init data).total_count := by
      simp [init, htotal, asInt32]
    rw [checkedNexts, checkedNext, if_pos hend]
    rfl
  · have htotal := decodeVarint64_encode_mod hhead (by omega)
    have hfirst := decodeVarint64_encode (drop_add_of_drop hhead) (UInt64.toNat_lt ts.toUInt64)
    rw [init, htotal]
    dsimp only
    by_cases hend : ((0 : ℕ) : ℤ) ≥ asInt32 ((tss.length + 1) % 2 ^ 64)
    · rw [checkedNexts, checkedNext, if_pos hend]
      rfl
    · rw [checkedNexts, checkedNext, if_neg hend, if_pos rfl]
      dsimp only
      rw [hfirst]
      dsimp only
      have hafter : rest ⟨data, 0 + (encodeVarint (tss.length + 1)).length +
          (encodeVarint ts.toUInt64.toNat).length, 0, 0, UInt64.ofNat ts.toUInt64.toNat, 0, 0 + 1,
          asInt32 ((tss.length + 1) % 2 ^ 64)⟩ =
            codeBits (UInt64.ofNat ts.toUInt64.toNat) 0 tss ++ List.replicate k false := by
        rw [rest, UInt64.ofNat_toNat, ← hbits]
        simp [hdata, ← List.drop_drop]
      apply checkedNexts_isSome hafter
      · simp
      · have hcount := asInt32_le ((tss.length + 1) % 2 ^ 64)
        have hmod := Nat.mod_le (tss.length + 1) (2 ^ 64)
        dsimp only
        push_cast at hcount ⊢
        omega
      · rw [UInt64.ofNat_toNat]
        exact hfits

end DeltaOfDeltaDecoder

def signedGap (gap : ℤ) : ℤ := if gap < 2 ^ 63 then gap else gap - 2 ^ 64

theorem toInt_delta {t u : Int64} (h : t.toInt ≤ u.toInt) :
    (u.toUInt64 - t.toUInt64).toInt64.toInt = signedGap (u.toInt - t.toInt) := by
  have hsub : (u.toUInt64 - t.toUInt64).toInt64 = u - t := by simp
  have hlow := t.le_toInt
  have hhigh := u.toInt_lt
  rw [hsub, Int64.toInt_sub, signedGap]
  split_ifs with hsmall
  · exact bmod_of_fits ⟨by omega, hsmall⟩
  · have hwrap : (u.toInt - t.toInt - ((2 ^ 64 : ℕ) : ℤ)).bmod (2 ^ 64) =
        (u.toInt - t.toInt).bmod (2 ^ 64) := Int.sub_bmod_right _ _
    rw [← hwrap]
    exact bmod_of_fits ⟨by push_cast; omega, by push_cast; omega⟩

/-- Two gaps of ascending timestamps together are less than the range of the timestamps. -/
theorem gapsFit_iff {a b : ℤ} (ha : 0 ≤ a) (hb : 0 ≤ b) (hsum : a + b < 2 ^ 64) :
    GapsFit a b ↔ -2 ^ 63 < signedGap b - signedGap a ∧ signedGap b - signedGap a < 2 ^ 63 := by
  unfold GapsFit signedGap
  rw [lt_abs]
  split_ifs <;> omega

theorem allDodsFit_iff {ts : Int64} {tss : List Int64} {last_delta : UInt64} {last_gap : ℤ}
    (hasc : AscendingTimestamps (ts :: tss)) (hzero : 0 ≤ last_gap)
    (hgap : last_gap ≤ ts.toInt + 2 ^ 63) (hdelta : last_delta.toInt64.toInt = signedGap last_gap) :
    AllDodsFit ts.toUInt64 last_delta tss ↔ AllGapsFit last_gap (ts :: tss) := by
  induction tss generalizing ts last_delta last_gap with
  | nil => simp [AllDodsFit, AllGapsFit]
  | cons u tss ih =>
    obtain ⟨hts, htss⟩ := List.pairwise_cons.mp hasc
    have htu : ts.toInt ≤ u.toInt := hts u List.mem_cons_self
    have hlow := ts.le_toInt
    have hhigh := u.toInt_lt
    have hnext := toInt_delta htu
    have hrest : AllDodsFit u.toUInt64 (u.toUInt64 - ts.toUInt64) tss ↔
        AllGapsFit (u.toInt - ts.toInt) (u :: tss) := ih htss (by omega) (by omega) hnext
    rw [AllDodsFit, AllGapsFit, hrest, DodFits, hnext, hdelta,
      gapsFit_iff hzero (by omega) (by omega)]

/-- Over an ascending list no signed operation of the codec overflows, in the encoder or in the
decoder, exactly if every two gaps in a row, the first one behind a gap of zero, are both below
`2 ^ 63` or further apart than that. -/
theorem codecDefined_iff_allGapsFit {tss : List Int64} (hasc : AscendingTimestamps tss) :
    CodecDefined tss ↔ AllGapsFit 0 tss := by
  cases tss with
  | nil =>
    refine iff_of_true ⟨_, rfl, ?_⟩ trivial
    intro calls
    have hhead : (encodeVarint 0).drop 0 = encodeVarint 0 ++ [] := by simp
    have hempty : DeltaOfDeltaDecoder.init (DeltaOfDeltaEncoder.finish .new).1 =
        ⟨encodeVarint 0, 0 + (encodeVarint 0).length, 0, 0, 0, 0, 0, 0⟩ := by
      rw [show (DeltaOfDeltaEncoder.finish .new).1 = encodeVarint 0 from
        congrArg Prod.fst DeltaOfDeltaEncoder.encode_nil, DeltaOfDeltaDecoder.init,
        decodeVarint64_encode hhead (by norm_num)]
      simp [asInt32]
    rw [hempty]
    cases calls <;> rfl
  | cons ts tss =>
    have hlow := ts.le_toInt
    rw [← allDodsFit_iff hasc le_rfl (by omega) (show (0 : UInt64).toInt64.toInt = signedGap 0 by rfl)]
    constructor
    · intro h
      obtain ⟨stream, hstream, -⟩ := h
      exact DeltaOfDeltaEncoder.allDodsFit_of_checkedEncode hstream
    · intro hfits
      exact ⟨_, DeltaOfDeltaEncoder.checkedEncode_cons_of_fits hfits,
        DeltaOfDeltaDecoder.checkedNexts_encode hfits⟩

/-- Equal steps and a gap near the whole range are fine, two gaps on both sides of `2 ^ 63`
are not. -/
theorem codecDefined_iff_allGapsFit_of_three :
    CodecDefined [0, 63, 126] ∧ CodecDefined [Int64.minValue, Int64.maxValue] ∧
      ¬ CodecDefined [Int64.minValue, -1, Int64.maxValue] := by
  refine ⟨?_, ?_, ?_⟩
  · rw [codecDefined_iff_allGapsFit (by simp [AscendingTimestamps])]
    simp [AllGapsFit, GapsFit]
  · rw [codecDefined_iff_allGapsFit (by simp [AscendingTimestamps, Int64.toInt_maxValue])]
    simp [AllGapsFit, GapsFit, Int64.toInt_maxValue]
  · rw [codecDefined_iff_allGapsFit (by simp [AscendingTimestamps, Int64.toInt_maxValue])]
    simp [AllGapsFit, GapsFit, Int64.toInt_maxValue]

/-- Two timestamps `2 ^ 63` apart: the change of the step is the least number, whose negation
is no `int64` value. -/
theorem codecDefined_fails_on_ascending :
    ¬ ∀ tss, AscendingTimestamps tss → CodecDefined tss := by
  intro h
  obtain ⟨stream, hstream, -⟩ := h [-4611686018427387904, 4611686018427387904]
    (by simp [AscendingTimestamps])
  have hfits := DeltaOfDeltaEncoder.allDodsFit_of_checkedEncode hstream
  exact absurd hfits.1.1 (by decide)

end MiniTsdb
