import MiniTsdb.Proofs.SSTableCodec

/-! The codecs of lengths and keys inside any context: what is read never depends on what
follows, so a key is told apart from every part and every extension of its bytes. -/

namespace MiniTsdb
open Lib

theorem decodeVarintLoop_append {s : Bytes} (rest : Bytes) {turns pos shift result : ℕ}
    (h : (decodeVarintLoop s turns pos shift result).1 ≠ kBadVarint) :
    decodeVarintLoop (s ++ rest) turns pos shift result =
      decodeVarintLoop s turns pos shift result := by
  induction turns generalizing pos shift result with
  | zero => simp [decodeVarintLoop] at h
  | succ turns ih =>
    rw [decodeVarintLoop, decodeVarintLoop] at *
    cases hbyte : s[pos]? with
    | none => simp [hbyte] at h
    | some byte =>
      have hpos : pos < s.length := (List.getElem?_eq_some_iff.mp hbyte).1
      have happ : (s ++ rest)[pos]? = some byte := by
        rw [List.getElem?_append_left hpos, hbyte]
      simp only [hbyte, happ] at h ⊢
      split_ifs at h ⊢ with hlast
      · rfl
      · exact ih h

theorem decodeKeyFields_append {input : Bytes} (rest : Bytes) {found : TsKey × ℕ}
    (h : decodeKeyFields input = some found) : decodeKeyFields (input ++ rest) = some found := by
  unfold decodeKeyFields at h ⊢
  by_cases hbad : (decodeVarint input 0).1 = kBadVarint
  · simp [hbad] at h
  · have hlen : decodeVarint (input ++ rest) 0 = decodeVarint input 0 :=
      decodeVarintLoop_append rest hbad
    rw [hlen]
    generalize decodeVarint input 0 = length at h hbad ⊢
    obtain ⟨m_len, pos⟩ := length
    dsimp only at h hbad ⊢
    split_ifs at h with hfit
    have hroom : pos + m_len + 8 ≤ input.length := by omega
    rw [if_neg (by
      refine not_or.mpr ⟨hbad, ?_⟩
      rw [List.length_append]
      omega), ← h, decodeFixed64, decodeFixed64, slice_append_of_le rest (by omega),
      slice_append_of_le rest hroom]

theorem decodeVarint_in_context (v : UInt32) (p s : Bytes) :
    decodeVarint (p ++ (encodeVarint v.toNat ++ s)) p.length =
      (v.toNat, (p ++ encodeVarint v.toNat).length) := by
  have hdrop : (p ++ (encodeVarint v.toNat ++ s)).drop p.length = encodeVarint v.toNat ++ s := by
    simp
  rw [decodeVarint_encode hdrop v.toNat_lt, List.length_append]

theorem encodeVarint_injective {v u : ℕ} (hv : v < 2 ^ 32) (hu : u < 2 ^ 32) {s t : Bytes}
    (h : encodeVarint v ++ s = encodeVarint u ++ t) : v = u ∧ s = t := by
  have hread : decodeVarint (encodeVarint v ++ s) 0 = (v, 0 + (encodeVarint v).length) :=
    decodeVarint_encode rfl hv
  have hread' : decodeVarint (encodeVarint v ++ s) 0 = (u, 0 + (encodeVarint u).length) :=
    decodeVarint_encode h hu
  rw [hread] at hread'
  have hvu : v = u := congrArg Prod.fst hread'
  subst hvu
  exact ⟨rfl, List.append_cancel_left h⟩

/-- The length in front is cut to 32 bits; the length of the whole tells the rest. -/
theorem encodeKey_injective : Function.Injective encodeKey := by
  intro a b h
  have hlen (key : TsKey) : (key.measurement ++ encodeFixed64 key.timestamp.toUInt64.toNat).length =
      key.measurement.length + 8 := by
    rw [List.length_append, encodeFixed64, leBytes_length]
  obtain ⟨_, hrest⟩ := encodeVarint_injective (Nat.mod_lt _ (by norm_num))
    (Nat.mod_lt _ (by norm_num)) h
  have hsame : a.measurement.length = b.measurement.length := by
    have := congrArg List.length hrest
    rw [hlen a, hlen b] at this
    omega
  obtain ⟨hmeasurement, hfixed⟩ := List.append_inj hrest hsame
  have htime : a.timestamp = b.timestamp := by
    have hback (t : Int64) :
        (UInt64.ofNat (decodeFixed64 (encodeFixed64 t.toUInt64.toNat) 0)).toInt64 = t :=
      timestamp_roundtrip (List.append_nil _).symm
    rw [← hback a.timestamp, hfixed, hback]
  cases a
  cases b
  simp_all

theorem decodeKey_encodeKey {key : TsKey} (h : key.measurement.length < 2 ^ 32 - 1) :
    decodeKey (encodeKey key) = some key := by
  have hfields := decodeKeyFields_encode_append key [] h
  rw [List.append_nil] at hfields
  simp [decodeKey, hfields]

theorem decodeKey_of_extension {key : TsKey} (h : key.measurement.length < 2 ^ 32 - 1)
    {rest : Bytes} (hrest : rest ≠ []) : decodeKey (encodeKey key ++ rest) = none := by
  have hpos := List.length_pos_of_ne_nil hrest
  have hend : (encodeKey key).length ≠ (encodeKey key ++ rest).length := by
    rw [List.length_append]
    omega
  rw [decodeKey, decodeKeyFields_encode_append key rest h]
  exact if_neg hend

/-- A part that could be read would be read as a shorter whole. -/
theorem decodeKey_of_prefix {key : TsKey} (h : key.measurement.length < 2 ^ 32 - 1)
    {part : Bytes} (hpart : part <+: encodeKey key) (hne : part ≠ encodeKey key) :
    decodeKey part = none := by
  obtain ⟨rest, hrest⟩ := hpart
  have hwhole := decodeKeyFields_encode_append key [] h
  rw [List.append_nil, ← hrest] at hwhole
  rw [decodeKey]
  cases hfields : decodeKeyFields part with
  | none => rfl
  | some found =>
    obtain ⟨k, pos⟩ := found
    rw [decodeKeyFields_append rest hfields] at hwhole
    simp only [Option.some.injEq, Prod.mk.injEq] at hwhole
    have hend : pos ≠ part.length := by
      intro hpos
      apply hne
      rw [← hrest]
      have hzero : rest.length = 0 := by
        have hsum := hwhole.2
        rw [List.length_append] at hsum
        omega
      rw [List.length_eq_zero_iff.mp hzero, List.append_nil]
    exact if_neg hend

/-- Varints are read back between any two strings; a key is read back from its bytes, and
from nothing shorter or longer. -/
theorem varint_and_key_codecs :
    (∀ (v : UInt32) (p s : Bytes), decodeVarint (p ++ (encodeVarint v.toNat ++ s)) p.length =
      (v.toNat, (p ++ encodeVarint v.toNat).length)) ∧
    (∀ key : TsKey, key.measurement.length < 2 ^ 32 - 1 →
      decodeKey (encodeKey key) = some key ∧
      (∀ part, part <+: encodeKey key → part ≠ encodeKey key → decodeKey part = none) ∧
      ∀ rest, rest ≠ [] → decodeKey (encodeKey key ++ rest) = none) ∧
    Function.Injective encodeKey := by
  refine ⟨decodeVarint_in_context, ?_, encodeKey_injective⟩
  intro key h
  refine ⟨decodeKey_encodeKey h, ?_, ?_⟩
  · intro part hpart hne
    exact decodeKey_of_prefix h hpart hne
  · intro rest hrest
    exact decodeKey_of_extension h hrest

theorem varint_and_key_codecs_of_one_byte :
    decodeKey (encodeKey ⟨[7], 5⟩) = some ⟨[7], 5⟩ ∧
      decodeKey ((encodeKey ⟨[7], 5⟩).take 2) = none ∧
      decodeKey (encodeKey ⟨[7], 5⟩ ++ [0]) = none := by
  obtain ⟨hkey, hparts, hextensions⟩ := varint_and_key_codecs.2.1 ⟨[7], 5⟩ (by decide)
  refine ⟨hkey, ?_, hextensions [0] (by decide)⟩
  apply hparts _ (List.take_prefix 2 _)
  intro h
  have hlen := encodeKey_length ⟨[7], 5⟩
  rw [← h, List.length_take] at hlen
  simp at hlen

end MiniTsdb
