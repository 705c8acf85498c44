import MiniTsdb.Lib.Bits
import MiniTsdb.Proofs.SSTableCodec
import MiniTsdb.Spec.DeltaOfDelta

/-! The timestamp codec reads back every list. What the encoder holds and what the decoder
has ahead are both lists of bits, and each step moves one code word. -/

namespace MiniTsdb
open Lib

theorem decodeVarint64_encode_mod {s rest : Bytes} {v pos : ℕ}
    (h : s.drop pos = encodeVarint v ++ rest) (hv : v < 128 ^ 10) :
    decodeVarint64 s pos = (v % 2 ^ 64, pos + (encodeVarint v).length) := by
  have hloop : decodeVarint64Loop s (9 + 1) pos 0 0 =
      ((0 + v * 2 ^ 0) % 2 ^ 64, pos + (encodeVarint v).length) := by
    refine varintLoop_encode (fun turns pos shift result byte hb => ?_) 9 h hv
    rw [decodeVarint64Loop, hb]
  rw [decodeVarint64, hloop, pow_zero, Nat.mul_one, Nat.zero_add]

theorem decodeVarint64_encode {s rest : Bytes} {v pos : ℕ}
    (h : s.drop pos = encodeVarint v ++ rest) (hv : v < 2 ^ 64) :
    decodeVarint64 s pos = (v, pos + (encodeVarint v).length) := by
  rw [decodeVarint64_encode_mod h (lt_of_lt_of_le hv (by norm_num)), Nat.mod_eq_of_lt hv]

theorem asInt32_of_lt {n : ℕ} (h : n < 2 ^ 31) : asInt32 n = n := by
  have hmod : n % 2 ^ 32 = n := Nat.mod_eq_of_lt (by omega)
  rw [asInt32, hmod, if_pos h]

def signedBits (num_bits : ℕ) (dod : Int64) : List Bool :=
  if dod < 0 then true :: msbBits num_bits (-dod).toUInt64.toNat
  else false :: msbBits num_bits dod.toUInt64.toNat

def dodBits (dod : Int64) : List Bool :=
  if dod = 0 then [false]
  else if dod ≥ -63 ∧ dod ≤ 63 then [true, false] ++ signedBits 6 dod
  else if dod ≥ -8191 ∧ dod ≤ 8191 then [true, true, false] ++ signedBits 13 dod
  else [true, true, true] ++ signedBits 64 dod

/-- The code words behind the first timestamp. -/
def codeBits : UInt64 → UInt64 → List Int64 → List Bool
  | _, _, [] => []
  | last_ts, last_delta, ts :: tss =>
    let delta := ts.toUInt64 - last_ts
    dodBits (delta.toInt64 - last_delta.toInt64) ++ codeBits ts.toUInt64 delta tss

namespace DeltaOfDeltaEncoder

/-- Behind `head`, the encoder has been given `bits`. -/
structure Holds (e : DeltaOfDeltaEncoder) (head : Bytes) (bits : List Bool) : Prop where
  pending : e.pending_bits < 8
  block : e.block < 2 ^ e.pending_bits
  bits : ∃ body, e.buf = head ++ body ∧ bits = bitsOf body ++ lsbBits e.pending_bits e.block

variable {e : DeltaOfDeltaEncoder} {head : Bytes} {bits : List Bool}

theorem Holds.writeBit (h : e.Holds head bits) (b : Bool) :
    (e.writeBit b).Holds head (bits ++ [b]) := by
  obtain ⟨body, hbuf, hbits⟩ := h.bits
  have hblock := or_shiftLeft_lt h.block b
  rw [DeltaOfDeltaEncoder.writeBit]
  split_ifs with hfull
  · have hpow : 2 ^ (e.pending_bits + 1) = 256 := by rw [hfull]; norm_num
    refine ⟨by simp, by simp,
      body ++ [Fin.ofNat 256 (e.block ||| b.toNat <<< e.pending_bits)], ?_, ?_⟩
    · simp [hbuf]
    · have hval : (Fin.ofNat 256 (e.block ||| b.toNat <<< e.pending_bits)).val =
          e.block ||| b.toNat <<< e.pending_bits := Nat.mod_eq_of_lt (hpow ▸ hblock)
      have hbyte := lsbBits_or_shiftLeft h.block b
      rw [hfull] at hbyte
      rw [hbits, bitsOf_append, bitsOf_cons, hval, hbyte]
      simp
  · refine ⟨?_, hblock, body, hbuf, ?_⟩
    · have := h.pending
      dsimp only
      omega
    · dsimp only
      rw [lsbBits_or_shiftLeft h.block, hbits, List.append_assoc]

theorem Holds.writeBits (h : e.Holds head bits) (n : ℕ) (v : UInt64) :
    (e.writeBits n v).Holds head (bits ++ msbBits n v.toNat) := by
  induction n generalizing e bits with
  | zero => simpa [DeltaOfDeltaEncoder.writeBits, msbBits] using h
  | succ n ih =>
    have hstep := ih (h.writeBit (v.toNat.testBit n))
    rwa [List.append_assoc] at hstep

theorem Holds.writeSigned (h : e.Holds head bits) (n : ℕ) (dod : Int64) :
    (e.writeSigned n dod).Holds head (bits ++ signedBits n dod) := by
  unfold DeltaOfDeltaEncoder.writeSigned signedBits
  split_ifs
  · simpa using (h.writeBit true).writeBits n (-dod).toUInt64
  · simpa using (h.writeBit false).writeBits n dod.toUInt64

theorem Holds.writeDod (h : e.Holds head bits) (dod : Int64) :
    (e.writeDod dod).Holds head (bits ++ dodBits dod) := by
  unfold DeltaOfDeltaEncoder.writeDod dodBits
  split_ifs
  · exact h.writeBit false
  · simpa using ((h.writeBit true).writeBit false).writeSigned 6 dod
  · simpa using (((h.writeBit true).writeBit true).writeBit false).writeSigned 13 dod
  · simpa using (((h.writeBit true).writeBit true).writeBit true).writeSigned 64 dod

theorem Holds.add (h : e.Holds head bits) (hcount : e.count ≠ 0) (ts : Int64) :
    (e.add ts).Holds head
      (bits ++ dodBits ((ts.toUInt64 - e.last_ts).toInt64 - e.last_delta.toInt64)) ∧
    (e.add ts).last_ts = ts.toUInt64 ∧ (e.add ts).last_delta = ts.toUInt64 - e.last_ts ∧
    (e.add ts).count = e.count + 1 := by
  have hword := h.writeDod ((ts.toUInt64 - e.last_ts).toInt64 - e.last_delta.toInt64)
  rw [DeltaOfDeltaEncoder.add, if_neg hcount]
  exact ⟨⟨hword.pending, hword.block, hword.bits⟩, rfl, rfl, rfl⟩

theorem Holds.foldl_add (h : e.Holds head bits) (hcount : e.count ≠ 0) (tss : List Int64) :
    (tss.foldl DeltaOfDeltaEncoder.add e).Holds head (bits ++ codeBits e.last_ts e.last_delta tss) ∧
    (tss.foldl DeltaOfDeltaEncoder.add e).count = e.count + tss.length := by
  induction tss generalizing e bits with
  | nil => simpa [codeBits] using h
  | cons ts tss ih =>
    obtain ⟨hadd, hts, hdelta, hnext⟩ := h.add hcount ts
    obtain ⟨hrest, hlen⟩ := ih hadd (by omega)
    rw [hts, hdelta, List.append_assoc] at hrest
    rw [List.foldl_cons]
    refine ⟨hrest, ?_⟩
    rw [hlen, hnext, List.length_cons]
    omega

theorem Holds.finish (h : e.Holds head bits) :
    ∃ body k, e.finish = (encodeVarint e.count ++ (head ++ body), .new) ∧
      bitsOf body = bits ++ List.replicate k false := by
  obtain ⟨body, hbuf, hbits⟩ := h.bits
  have hpending := h.pending
  rw [DeltaOfDeltaEncoder.finish]
  split_ifs with hp
  · have hval : (Fin.ofNat 256 e.block).val = e.block := by
      refine Nat.mod_eq_of_lt (h.block.trans_le ?_)
      exact Nat.pow_le_pow_right (show 0 < 2 by norm_num) hpending.le
    have hbyte := lsbBits_add (k := 8 - e.pending_bits) h.block
    rw [show e.pending_bits + (8 - e.pending_bits) = 8 by omega] at hbyte
    refine ⟨body ++ [Fin.ofNat 256 e.block], 8 - e.pending_bits,
      by rw [hbuf, List.append_assoc], ?_⟩
    rw [hbits, bitsOf_append, bitsOf_cons, hval, hbyte]
    simp
  · have hzero : e.pending_bits = 0 := by omega
    refine ⟨body, 0, by rw [hbuf], ?_⟩
    rw [hbits, hzero]
    simp

theorem add_new (ts : Int64) :
    (new.add ts).Holds (encodeVarint ts.toUInt64.toNat) [] ∧ (new.add ts).last_ts = ts.toUInt64 ∧
    (new.add ts).last_delta = 0 ∧ (new.add ts).count = 1 := by
  refine ⟨⟨?_, ?_, [], ?_, rfl⟩, rfl, rfl, rfl⟩ <;> simp [DeltaOfDeltaEncoder.add, new]

theorem encode_cons (ts : Int64) (tss : List Int64) :
    ∃ body k, new.encode (ts :: tss) =
        (encodeVarint (tss.length + 1) ++ (encodeVarint ts.toUInt64.toNat ++ body), .new) ∧
      bitsOf body = codeBits ts.toUInt64 0 tss ++ List.replicate k false := by
  obtain ⟨hhead, hts, hdelta, hcount⟩ := add_new ts
  obtain ⟨hall, hlen⟩ := hhead.foldl_add (by omega) tss
  obtain ⟨body, k, hfinish, hbits⟩ := hall.finish
  rw [hts, hdelta, List.nil_append] at hbits
  rw [hlen, hcount, Nat.add_comm] at hfinish
  exact ⟨body, k, hfinish, hbits⟩

theorem encode_nil : new.encode [] = (encodeVarint 0, .new) := by
  simp [encode, finish, new]

end DeltaOfDeltaEncoder

namespace DeltaOfDeltaDecoder

/-- The bits ahead of the decoder. -/
def rest (d : DeltaOfDeltaDecoder) : List Bool :=
  lsbBits d.pending_bits d.block ++ bitsOf (d.data.drop d.pos)

/-- From `d` only bits were read, and `bs` are left. -/
structure Leaves (d d' : DeltaOfDeltaDecoder) (bs : List Bool) : Prop where
  rest : d'.rest = bs
  last_ts : d'.last_ts = d.last_ts
  last_delta : d'.last_delta = d.last_delta
  count : d'.count = d.count
  total_count : d'.total_count = d.total_count

theorem Leaves.trans {d d₁ d₂ : DeltaOfDeltaDecoder} {bs cs : List Bool} (h₁ : Leaves d d₁ bs)
    (h₂ : Leaves d₁ d₂ cs) : Leaves d d₂ cs where
  rest := h₂.rest
  last_ts := h₂.last_ts.trans h₁.last_ts
  last_delta := h₂.last_delta.trans h₁.last_delta
  count := h₂.count.trans h₁.count
  total_count := h₂.total_count.trans h₁.total_count

theorem Leaves.stepped {d d₁ d₂ : DeltaOfDeltaDecoder} {bs cs : List Bool} {dod : Int64}
    (h₂ : Leaves { d₁ with last_delta := (d₁.last_delta.toInt64 + dod).toUInt64 } d₂ cs)
    (h₁ : Leaves d d₁ bs) :
    Leaves { d with last_delta := (d.last_delta.toInt64 + dod).toUInt64 } d₂ cs where
  rest := h₂.rest
  last_ts := h₂.last_ts.trans h₁.last_ts
  last_delta := by rw [h₂.last_delta, h₁.last_delta]
  count := h₂.count.trans h₁.count
  total_count := h₂.total_count.trans h₁.total_count

theorem takeBit_leaves {d : DeltaOfDeltaDecoder} {b : Bool} {bs : List Bool} {n : ℕ}
    (hpending : d.pending_bits = n + 1) (hrest : d.rest = b :: bs) :
    ∃ d', d.takeBit = (b, d') ∧ Leaves d d' bs := by
  rw [rest, hpending, lsbBits_succ, List.cons_append, List.cons.injEq] at hrest
  refine ⟨d.takeBit.2, ?_, ⟨?_, rfl, rfl, rfl, rfl⟩⟩
  · rw [← hrest.1]
    rfl
  · rw [← hrest.2, rest]
    simp [takeBit, hpending]

theorem readBit_leaves {d : DeltaOfDeltaDecoder} {b : Bool} {bs : List Bool}
    (hrest : d.rest = b :: bs) : ∃ d', d.readBit = (b, d') ∧ Leaves d d' bs := by
  by_cases hpending : d.pending_bits = 0
  · rw [rest, hpending, lsbBits_zero, List.nil_append] at hrest
    cases hdrop : d.data.drop d.pos with
    | nil => simp [hdrop] at hrest
    | cons byte more =>
      -- the next byte is fetched, and its lowest bit taken
      have htail : d.data.drop (d.pos + 1) = more := drop_add_of_drop (c := [byte]) hdrop
      have hnext : rest { d with
          block := byte.val
          pos := d.pos + 1
          pending_bits := 8 } = b :: bs := by
        rw [← hrest, hdrop, bitsOf_cons, rest]
        simp [htail]
      obtain ⟨d', htake, hleaves⟩ := takeBit_leaves (n := 7) rfl hnext
      refine ⟨d', ?_, ⟨hleaves.rest, hleaves.last_ts, hleaves.last_delta, hleaves.count,
        hleaves.total_count⟩⟩
      rw [readBit, if_pos hpending, getElem?_of_drop hdrop]
      exact htake
  · obtain ⟨n, hn⟩ := Nat.exists_eq_succ_of_ne_zero hpending
    rw [readBit, if_neg hpending]
    exact takeBit_leaves hn hrest

theorem toNat_shiftLeft_or {val : UInt64} (b : Bool) (h : val.toNat < 2 ^ 63) :
    (val <<< 1 ||| b.toUInt64).toNat = val.toNat * 2 + b.toNat := by
  have hshift : (val <<< 1).toNat = val.toNat <<< 1 := by
    rw [UInt64.toNat_shiftLeft]
    exact Nat.mod_eq_of_lt (by simp [Nat.shiftLeft_eq]; omega)
  have hbit : b.toUInt64.toNat = b.toNat := by cases b <;> rfl
  have hlt : b.toNat < 2 ^ 1 := by cases b <;> simp
  rw [UInt64.toNat_or, hshift, hbit, ← Nat.shiftLeft_add_eq_or_of_lt hlt, Nat.shiftLeft_eq]

theorem readBitsLoop_leaves {d : DeltaOfDeltaDecoder} {bs : List Bool} {n v : ℕ} {val : UInt64}
    (hrest : d.rest = msbBits n v ++ bs) (hfit : (val.toNat + 1) * 2 ^ n ≤ 2 ^ 64) :
    ∃ got d', d.readBitsLoop n val = (got, d') ∧ got.toNat = val.toNat * 2 ^ n + v % 2 ^ n ∧
      Leaves d d' bs := by
  induction n generalizing d val with
  | zero => exact ⟨val, d, rfl, by simp [Nat.mod_one], ⟨hrest, rfl, rfl, rfl, rfl⟩⟩
  | succ n ih =>
    obtain ⟨d₁, hread, hleaves⟩ := readBit_leaves hrest
    have hpow : 2 ^ (n + 1) = 2 ^ n * 2 := pow_succ 2 n
    have hpos : 0 < 2 ^ n := by positivity
    have hval : val.toNat < 2 ^ 63 := by
      have : (val.toNat + 1) * 2 ≤ (val.toNat + 1) * 2 ^ (n + 1) :=
        Nat.mul_le_mul_left _ (by omega)
      omega
    have hnext := toNat_shiftLeft_or (v.testBit n) hval
    have hbit : (v.testBit n).toNat ≤ 1 := Bool.toNat_le _
    have hroom : ((val <<< 1 ||| (v.testBit n).toUInt64).toNat + 1) * 2 ^ n ≤ 2 ^ 64 := by
      refine le_trans (Nat.mul_le_mul_right _ (?_ : _ ≤ (val.toNat + 1) * 2)) ?_
      · omega
      · rwa [Nat.mul_assoc, Nat.mul_comm 2, ← hpow]
    obtain ⟨got, d₂, hloop, hgot, hrest₂⟩ := ih hleaves.rest hroom
    refine ⟨got, d₂, ?_, ?_, hleaves.trans hrest₂⟩
    · rw [readBitsLoop, hread]
      exact hloop
    · rw [hgot, hnext, Nat.mod_pow_succ, ← Nat.toNat_testBit, hpow]
      ring

theorem readBits_leaves {d : DeltaOfDeltaDecoder} {bs : List Bool} {n : ℕ} {v : UInt64}
    (hn : n ≤ 64) (hv : v.toNat < 2 ^ n) (hrest : d.rest = msbBits n v.toNat ++ bs) :
    ∃ d', d.readBits n = (v, d') ∧ Leaves d d' bs := by
  have hfit : ((0 : UInt64).toNat + 1) * 2 ^ n ≤ 2 ^ 64 := by
    simpa using Nat.pow_le_pow_right (show 0 < 2 by norm_num) hn
  obtain ⟨got, d', hloop, hgot, hleaves⟩ := readBitsLoop_leaves hrest hfit
  have heq : got = v := by
    rw [← UInt64.toNat_inj, hgot, Nat.mod_eq_of_lt hv]
    simp
  exact ⟨d', heq ▸ hloop, hleaves⟩

theorem readSigned_leaves {d : DeltaOfDeltaDecoder} {bs : List Bool} {n : ℕ} {dod : Int64}
    (hn : n ≤ 64) (hneg : dod < 0 → (-dod).toUInt64.toNat < 2 ^ n)
    (hpos : ¬ dod < 0 → dod.toUInt64.toNat < 2 ^ n) (hrest : d.rest = signedBits n dod ++ bs) :
    Leaves { d with last_delta := (d.last_delta.toInt64 + dod).toUInt64 } (d.readSigned n) bs := by
  rw [signedBits] at hrest
  split_ifs at hrest with h
  · obtain ⟨d₁, hsign, hl₁⟩ := readBit_leaves hrest
    obtain ⟨d₂, hval, hl₂⟩ := readBits_leaves hn (hneg h) hl₁.rest
    have hl := hl₁.trans hl₂
    simp only [readSigned, hsign, hval]
    exact ⟨hl.rest, hl.last_ts, by simp [hl.last_delta], hl.count, hl.total_count⟩
  · obtain ⟨d₁, hsign, hl₁⟩ := readBit_leaves hrest
    obtain ⟨d₂, hval, hl₂⟩ := readBits_leaves hn (hpos h) hl₁.rest
    have hl := hl₁.trans hl₂
    simp only [readSigned, hsign, hval]
    exact ⟨hl.rest, hl.last_ts, by simp [hl.last_delta], hl.count, hl.total_count⟩

theorem toNat_lt_of_le {x : Int64} {n : ℕ} (h0 : 0 ≤ x.toInt) (h : x.toInt < 2 ^ n) :
    x.toUInt64.toNat < 2 ^ n := by
  have hx : x.toInt = x.toBitVec.toInt := rfl
  have hcond := BitVec.toInt_eq_toNat_cond x.toBitVec
  have hnat : x.toUInt64.toNat = x.toBitVec.toNat := rfl
  have hlt := x.toBitVec.isLt
  split_ifs at hcond
  · rw [hx, hcond] at h
    rw [hnat]
    exact_mod_cast h
  · omega

/-- A step within `b` on both sides has its absolute value in `n` bits. -/
theorem abs_lt_of_le {dod b : Int64} {n : ℕ} (hlow : -b ≤ dod) (hhigh : dod ≤ b)
    (hbound : b.toInt < 2 ^ n) (hneg : (-b).toInt = -b.toInt) (hsmall : b.toInt < 2 ^ 62) :
    (dod < 0 → (-dod).toUInt64.toNat < 2 ^ n) ∧ (¬ dod < 0 → dod.toUInt64.toNat < 2 ^ n) := by
  rw [Int64.le_iff_toInt_le] at hlow hhigh
  rw [hneg] at hlow
  have hzero : (0 : Int64).toInt = 0 := rfl
  refine ⟨fun h => ?_, fun h => ?_⟩
  · rw [Int64.lt_iff_toInt_lt, hzero] at h
    have habs : (-dod).toInt = -dod.toInt := by
      rw [Int64.toInt_neg]
      exact Int.bmod_eq_of_le (by omega) (by omega)
    exact toNat_lt_of_le (by omega) (by omega)
  · rw [Int64.lt_iff_toInt_lt, hzero] at h
    exact toNat_lt_of_le (by omega) (by omega)

theorem readDod_leaves {d : DeltaOfDeltaDecoder} {bs : List Bool} {dod : Int64}
    (hrest : d.rest = dodBits dod ++ bs) :
    Leaves { d with last_delta := (d.last_delta.toInt64 + dod).toUInt64 } d.readDod bs := by
  rw [dodBits] at hrest
  split_ifs at hrest with hzero hsix hthirteen <;>
    simp only [List.cons_append, List.nil_append] at hrest
  · obtain ⟨d₁, hb₁, hl₁⟩ := readBit_leaves hrest
    rw [readDod, hb₁]
    exact ⟨hl₁.rest, hl₁.last_ts, by simp [hl₁.last_delta, hzero], hl₁.count, hl₁.total_count⟩
  · obtain ⟨d₁, hb₁, hl₁⟩ := readBit_leaves hrest
    obtain ⟨d₂, hb₂, hl₂⟩ := readBit_leaves hl₁.rest
    obtain ⟨hneg, hpos⟩ := abs_lt_of_le (n := 6) (b := 63) hsix.1 hsix.2
      (by decide) (by decide) (by decide)
    have hl := readSigned_leaves (by norm_num) hneg hpos hl₂.rest
    simp only [readDod, hb₁, hb₂, Bool.true_eq_false, if_false, if_true]
    exact hl.stepped (hl₁.trans hl₂)
  · obtain ⟨d₁, hb₁, hl₁⟩ := readBit_leaves hrest
    obtain ⟨d₂, hb₂, hl₂⟩ := readBit_leaves hl₁.rest
    obtain ⟨d₃, hb₃, hl₃⟩ := readBit_leaves hl₂.rest
    obtain ⟨hneg, hpos⟩ := abs_lt_of_le (n := 13) (b := 8191) hthirteen.1 hthirteen.2
      (by decide) (by decide) (by decide)
    have hl := readSigned_leaves (by norm_num) hneg hpos hl₃.rest
    simp only [readDod, hb₁, hb₂, hb₃, Bool.true_eq_false, if_false, if_true]
    exact hl.stepped ((hl₁.trans hl₂).trans hl₃)
  · obtain ⟨d₁, hb₁, hl₁⟩ := readBit_leaves hrest
    obtain ⟨d₂, hb₂, hl₂⟩ := readBit_leaves hl₁.rest
    obtain ⟨d₃, hb₃, hl₃⟩ := readBit_leaves hl₂.rest
    have hl := readSigned_leaves le_rfl (fun _ => UInt64.toNat_lt _) (fun _ => UInt64.toNat_lt _)
      hl₃.rest
    simp only [readDod, hb₁, hb₂, hb₃, Bool.true_eq_false, if_false]
    exact hl.stepped ((hl₁.trans hl₂).trans hl₃)

/-- The code words ahead give the timestamps back, one a call. -/
theorem yields_of_rest {d : DeltaOfDeltaDecoder} {tss : List Int64} {bs : List Bool}
    (hrest : d.rest = codeBits d.last_ts d.last_delta tss ++ bs) (hcount : d.count ≠ 0)
    (htotal : d.total_count = (d.count + tss.length : ℕ)) : d.Yields tss := by
  induction tss generalizing d with
  | nil =>
    rw [Yields, next, if_pos (by simp [htotal])]
  | cons ts tss ih =>
    rw [codeBits, List.append_assoc] at hrest
    have hl := readDod_leaves hrest
    have hdelta : d.readDod.last_delta = ts.toUInt64 - d.last_ts := by
      rw [hl.last_delta]
      simp
    have hts : d.readDod.last_ts + d.readDod.last_delta = ts.toUInt64 := by
      rw [hdelta, hl.last_ts]
      simp
    have hmore : ¬ (d.count : ℤ) ≥ d.total_count := by
      rw [htotal, List.length_cons]
      omega
    refine ⟨{ d.readDod with
        last_ts := ts.toUInt64
        count := d.readDod.count + 1 }, ?_, ih ?_ (by simp) ?_⟩
    · rw [next, if_neg hmore, if_neg hcount]
      dsimp only
      rw [hts]
      simp
    · dsimp only
      rw [hdelta]
      exact hl.rest
    · dsimp only
      rw [hl.total_count, hl.count, List.length_cons] at *
      push_cast [htotal]
      ring

/-- What a fresh encoder made of a list decodes to the list. -/
theorem yields_encode {tss : List Int64} (hlen : tss.length < 2 ^ 31) :
    (init (DeltaOfDeltaEncoder.new.encode tss).1).Yields tss := by
  cases tss with
  | nil =>
    have hall : (encodeVarint 0).drop 0 = encodeVarint 0 ++ [] := by simp
    rw [DeltaOfDeltaEncoder.encode_nil, init, decodeVarint64_encode hall (by norm_num), Yields, next,
      if_pos (by simp [asInt32])]
  | cons ts tss =>
    rw [List.length_cons] at hlen
    obtain ⟨body, k, hencode, hbits⟩ := DeltaOfDeltaEncoder.encode_cons ts tss
    rw [hencode]
    dsimp only
    set data := encodeVarint (tss.length + 1) ++ (encodeVarint ts.toUInt64.toNat ++ body) with hdata
    -- the count, then the first timestamp, each a varint
    have hhead : data.drop 0 =
      encodeVarint (tss.length + 1) ++ (encodeVarint ts.toUInt64.toNat ++ body) := rfl
    have htotal := decodeVarint64_encode hhead (by omega)
    have hfirst := decodeVarint64_encode (drop_add_of_drop hhead) (UInt64.toNat_lt ts.toUInt64)
    have hmore : ¬ ((0 : ℕ) : ℤ) ≥ asInt32 (tss.length + 1) := by
      rw [asInt32_of_lt hlen]
      omega
    set after : DeltaOfDeltaDecoder :=
      ⟨data, 0 + (encodeVarint (tss.length + 1)).length + (encodeVarint ts.toUInt64.toNat).length,
        0, 0, ts.toUInt64, 0, 1, asInt32 (tss.length + 1)⟩ with hafter
    have hrest : after.rest =
        codeBits after.last_ts after.last_delta tss ++ List.replicate k false := by
      rw [rest, ← hbits]
      simp [hafter, hdata, ← List.drop_drop]
    refine ⟨after, ?_, yields_of_rest hrest (by simp [hafter]) ?_⟩
    · rw [init, htotal]
      dsimp only
      rw [next, if_neg hmore, if_pos rfl]
      dsimp only
      rw [hfirst]
      simp [hafter]
    · rw [hafter]
      dsimp only
      rw [asInt32_of_lt hlen, Nat.add_comm]

end DeltaOfDeltaDecoder

open DeltaOfDeltaDecoder in
/-- A list of timestamps is decoded as it was encoded, and so is the next list of the same
encoder. -/
theorem delta_of_delta_round_trip {tss uss : List Int64} (htss : tss.length < 2 ^ 31)
    (huss : uss.length < 2 ^ 31) :
    (init (DeltaOfDeltaEncoder.new.encode tss).1).Yields tss ∧
    (init ((DeltaOfDeltaEncoder.new.encode tss).2.encode uss).1).Yields uss :=
  ⟨yields_encode htss, yields_encode huss⟩

open DeltaOfDeltaDecoder in
/-- Steps on both sides of each class, and the largest there is. -/
theorem delta_of_delta_round_trip_bounds :
    (init (DeltaOfDeltaEncoder.new.encode [0, 63, 190, 8508, Int64.minValue]).1).Yields
      [0, 63, 190, 8508, Int64.minValue] ∧
    (init ((DeltaOfDeltaEncoder.new.encode [0, 63, 190, 8508, Int64.minValue]).2.encode
      [Int64.maxValue, -1]).1).Yields [Int64.maxValue, -1] :=
  delta_of_delta_round_trip (by decide) (by decide)

end MiniTsdb
