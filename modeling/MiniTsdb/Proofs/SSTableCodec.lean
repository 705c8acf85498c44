import MiniTsdb.Lib.Ascending
import MiniTsdb.Spec.SSTable

/-! The codecs of an SSTable, read back at any offset: varints, keys and entries. -/

namespace MiniTsdb
open Lib

theorem encodeVarint_pos (v : ℕ) : 0 < (encodeVarint v).length := by
  rw [encodeVarint]
  split_ifs <;> simp

/-- Any loop that takes seven bits a turn into `w` bits reads a varint back modulo `2 ^ w`. -/
theorem varintLoop_encode {loop : ℕ → ℕ → ℕ → ℕ → ℕ × ℕ} {s rest : Bytes} {w : ℕ}
    (hloop : ∀ turns pos shift result byte, s[pos]? = some byte →
      loop (turns + 1) pos shift result =
        if byte.val < 128 then ((result + byte.val % 128 * 2 ^ shift) % 2 ^ w, pos + 1)
        else loop turns (pos + 1) (shift + 7) ((result + byte.val % 128 * 2 ^ shift) % 2 ^ w))
    (turns : ℕ) {v pos shift result : ℕ}
    (h : s.drop pos = encodeVarint v ++ rest) (hturns : v < 128 ^ (turns + 1)) :
    loop (turns + 1) pos shift result =
      ((result + v * 2 ^ shift) % 2 ^ w, pos + (encodeVarint v).length) := by
  -- the last byte, in whichever turn it comes
  have hlast (turns shift result : ℕ) {v pos : ℕ} (hv : ¬ v ≥ 128)
      (h : s.drop pos = encodeVarint v ++ rest) : loop (turns + 1) pos shift result =
        ((result + v * 2 ^ shift) % 2 ^ w, pos + (encodeVarint v).length) := by
    have hval : (Fin.ofNat 256 v).val = v := by simp [Fin.ofNat]; omega
    rw [encodeVarint, if_neg hv] at h ⊢
    rw [hloop _ _ _ _ _ (getElem?_of_drop h), hval, if_pos (by omega),
      Nat.mod_eq_of_lt (a := v) (by omega)]
    rfl
  induction turns generalizing v pos shift result with
  | zero =>
    apply hlast 0 shift result _ h
    omega
  | succ turns ih =>
    by_cases hv : v ≥ 128
    · -- a byte with its high bit set, and the rest seven bits further up
      have hval : (Fin.ofNat 256 (v % 128 + 128)).val = v % 128 + 128 := by
        simp [Fin.ofNat]; omega
      have hmod : (v % 128 + 128) % 128 = v % 128 := by omega
      have hpow : 2 ^ (shift + 7) = 2 ^ shift * 128 := by rw [pow_add]; norm_num
      have hsplit : result + v % 128 * 2 ^ shift + v / 128 * 2 ^ (shift + 7) =
          result + v * 2 ^ shift := by
        calc result + v % 128 * 2 ^ shift + v / 128 * 2 ^ (shift + 7)
            = result + (v % 128 + 128 * (v / 128)) * 2 ^ shift := by rw [hpow]; ring
          _ = result + v * 2 ^ shift := by rw [Nat.mod_add_div]
      rw [encodeVarint, if_pos hv] at h ⊢
      rw [List.cons_append] at h
      have htail : s.drop (pos + 1) = encodeVarint (v / 128) ++ rest :=
        drop_add_of_drop (c := [_]) h
      have hdiv : v / 128 < 128 ^ (turns + 1) := by
        rw [Nat.div_lt_iff_lt_mul (by norm_num), ← pow_succ]
        exact hturns
      rw [hloop _ _ _ _ _ (getElem?_of_drop h), hval, if_neg (by omega), hmod, ih htail hdiv,
        Nat.mod_add_mod, hsplit, List.length_cons]
      refine Prod.ext rfl ?_
      dsimp only
      omega
    · exact hlast _ shift result hv h

theorem decodeVarint_encode {s rest : Bytes} {v pos : ℕ} (h : s.drop pos = encodeVarint v ++ rest)
    (hv : v < 2 ^ 32) : decodeVarint s pos = (v, pos + (encodeVarint v).length) := by
  have hloop : decodeVarintLoop s (4 + 1) pos 0 0 =
      ((0 + v * 2 ^ 0) % 2 ^ 32, pos + (encodeVarint v).length) := by
    refine varintLoop_encode (fun turns pos shift result byte hb => ?_) 4 h ?_
    · rw [decodeVarintLoop, hb]
    · exact lt_of_lt_of_le hv (by norm_num)
  rw [decodeVarint, hloop, pow_zero, Nat.mul_one, Nat.zero_add, Nat.mod_eq_of_lt hv]

theorem decodeVarint_ne_bad {v : ℕ} (hv : v < 2 ^ 31) : v ≠ kBadVarint := by
  unfold kBadVarint
  omega

theorem timestamp_roundtrip {s rest : Bytes} {pos : ℕ} {t : Int64}
    (h : s.drop pos = encodeFixed64 t.toUInt64.toNat ++ rest) :
    (UInt64.ofNat (decodeFixed64 s pos)).toInt64 = t := by
  have hlt : t.toUInt64.toNat < 256 ^ 8 := by
    have := t.toUInt64.toNat_lt
    norm_num at *
    omega
  have hslice := slice_of_drop h
  rw [show (encodeFixed64 t.toUInt64.toNat).length = 8 from leBytes_length ..] at hslice
  rw [decodeFixed64, hslice, encodeFixed64, leValue_leBytes_of_lt hlt, UInt64.ofNat_toNat]
  rfl

theorem encodeKey_length (key : TsKey) : key.measurement.length + 8 < (encodeKey key).length := by
  have hpos := encodeVarint_pos (key.measurement.length % 2 ^ 32)
  have h8 : (encodeFixed64 key.timestamp.toUInt64.toNat).length = 8 := leBytes_length ..
  simp only [encodeKey, List.length_append, h8]
  omega

theorem decodeKeyFields_encode_append (key : TsKey) (rest : Bytes)
    (h : key.measurement.length < kBadVarint) :
    decodeKeyFields (encodeKey key ++ rest) = some (key, (encodeKey key).length) := by
  unfold kBadVarint at h
  have hmod : key.measurement.length % 2 ^ 32 = key.measurement.length :=
    Nat.mod_eq_of_lt (by omega)
  have h8 : (encodeFixed64 key.timestamp.toUInt64.toNat).length = 8 := leBytes_length ..
  have h0 : (encodeKey key ++ rest).drop 0 = encodeVarint key.measurement.length ++
      (key.measurement ++ (encodeFixed64 key.timestamp.toUInt64.toNat ++ rest)) := by
    simp only [List.drop_zero, encodeKey, hmod, List.append_assoc]
  have h1 := drop_add_of_drop h0
  have h2 := drop_add_of_drop h1
  have htotal : (encodeKey key).length =
      0 + (encodeVarint key.measurement.length).length + key.measurement.length + 8 := by
    simp only [encodeKey, hmod, List.length_append, h8]
    omega
  have hbad : key.measurement.length ≠ kBadVarint := by
    unfold kBadVarint
    omega
  rw [decodeKeyFields, decodeVarint_encode h0 (by omega)]
  dsimp only
  rw [if_neg (by
    refine not_or.mpr ⟨hbad, ?_⟩
    rw [List.length_append]
    omega), slice_of_drop h1, timestamp_roundtrip h2, ← htotal]

theorem decodeKeyFields_encode {key : TsKey} (h : (encodeKey key).length < 2 ^ 31) :
    decodeKeyFields (encodeKey key) = some (key, (encodeKey key).length) := by
  have hlen := encodeKey_length key
  have hfields := decodeKeyFields_encode_append key [] (by
    unfold kBadVarint
    omega)
  rwa [List.append_nil] at hfields

theorem decodeKey_encode {key : TsKey} (h : (encodeKey key).length < 2 ^ 31) :
    decodeKey (encodeKey key) = some key := by
  rw [decodeKey, decodeKeyFields_encode h]
  exact if_pos rfl

/-- A pair whose key and value fit the length fields. -/
def FitsEntry (e : TsKey × InternalEntry) : Prop :=
  (encodeKey e.1).length < 2 ^ 31 ∧ e.2.value.length < 2 ^ 31

theorem encodeEntry_pos (key : TsKey) (entry : InternalEntry) :
    0 < (encodeEntry key entry).length := by
  have hpos := encodeVarint_pos ((encodeKey key).length % 2 ^ 32)
  simp only [encodeEntry, List.length_append]
  omega

theorem parseEntry_encode {block rest : Bytes} {pos : ℕ} {e : TsKey × InternalEntry}
    (he : FitsEntry e) (h : block.drop pos = encodeEntry e.1 e.2 ++ rest) :
    parseEntry block pos = some (e.1, e.2, pos + (encodeEntry e.1 e.2).length) := by
  obtain ⟨hkey, hvalue⟩ := he
  have hkmod : (encodeKey e.1).length % 2 ^ 32 = (encodeKey e.1).length :=
    Nat.mod_eq_of_lt (by omega)
  have hvmod : e.2.value.length % 2 ^ 32 = e.2.value.length := Nat.mod_eq_of_lt (by omega)
  have h0 : block.drop pos = encodeVarint (encodeKey e.1).length ++ (encodeKey e.1 ++
      (e.2.type.byte :: (encodeVarint e.2.value.length ++ (e.2.value ++ rest)))) := by
    rw [h, encodeEntry, hkmod, hvmod]
    simp only [List.append_assoc, List.cons_append]
  have h1 := drop_add_of_drop h0
  have h2 := drop_add_of_drop h1
  have h3 := drop_add_of_drop (c := [e.2.type.byte]) h2
  have h4 := drop_add_of_drop h3
  have hend := pos_add_le_of_drop h0 (by
    intro hnil
    have := congrArg List.length hnil
    simp only [List.length_append, List.length_cons, List.length_nil] at this
    omega)
  simp only [List.length_append, List.length_cons] at hend
  have htotal : (encodeEntry e.1 e.2).length = (encodeVarint (encodeKey e.1).length).length +
      (encodeKey e.1).length + 1 + (encodeVarint e.2.value.length).length + e.2.value.length := by
    simp only [encodeEntry, hkmod, hvmod, List.length_append, List.length_cons]
    omega
  have htype : entryTypeOf e.2.type.byte = some e.2.type := by cases e.2.type <;> rfl
  rw [List.length_singleton] at h3 h4
  rw [parseEntry, decodeVarint_encode h0 (by omega)]
  dsimp only
  rw [if_neg (by
    refine not_or.mpr ⟨decodeVarint_ne_bad hkey, ?_⟩
    omega), slice_of_drop h1, decodeKey_encode hkey]
  dsimp only
  rw [getElem?_of_drop h2]
  dsimp only
  rw [htype]
  dsimp only
  rw [decodeVarint_encode h3 (by omega)]
  dsimp only
  rw [if_neg (by
    refine not_or.mpr ⟨decodeVarint_ne_bad hvalue, ?_⟩
    omega), slice_of_drop h4, htotal]
  simp only [Nat.add_assoc]

def encodeBlock (entries : List (TsKey × InternalEntry)) : Bytes :=
  (entries.map fun e => encodeEntry e.1 e.2).flatten

theorem length_le_encodeBlock (entries : List (TsKey × InternalEntry)) :
    entries.length ≤ (encodeBlock entries).length := by
  induction entries with
  | nil => exact Nat.zero_le _
  | cons e entries ih =>
    have hpos := encodeEntry_pos e.1 e.2
    simp only [encodeBlock, List.map_cons, List.flatten_cons, List.length_append,
      List.length_cons] at ih ⊢
    omega

theorem encodeBlock_append (xs ys : List (TsKey × InternalEntry)) :
    encodeBlock (xs ++ ys) = encodeBlock xs ++ encodeBlock ys := by
  simp [encodeBlock]

theorem encodeBlock_ne_nil {entries : List (TsKey × InternalEntry)} (h : entries ≠ []) :
    encodeBlock entries ≠ [] := by
  intro he
  have hlen := length_le_encodeBlock entries
  rw [he] at hlen
  have := List.length_pos_of_ne_nil h
  simp only [List.length_nil] at hlen
  omega

theorem not_lt_of_drop_nil {block : Bytes} {pos : ℕ} (h : block.drop pos = encodeBlock []) :
    ¬ pos < block.length := by
  have hlen := congrArg List.length h
  simp only [encodeBlock, List.map_nil, List.flatten_nil, List.length_drop, List.length_nil] at hlen
  omega

theorem lt_of_drop_cons {block : Bytes} {pos : ℕ} {e : TsKey × InternalEntry}
    {entries : List (TsKey × InternalEntry)} (h : block.drop pos = encodeBlock (e :: entries)) :
    pos < block.length ∧ block.drop pos = encodeEntry e.1 e.2 ++ encodeBlock entries := by
  have hdrop : block.drop pos = encodeEntry e.1 e.2 ++ encodeBlock entries := h
  have hlen := congrArg List.length hdrop
  have hpos := encodeEntry_pos e.1 e.2
  rw [List.length_drop, List.length_append] at hlen
  exact ⟨by omega, hdrop⟩

/-- No key of an ascending list is at or before one that all of them are behind. -/
theorem lookup_eq_none_of_lt {entries : List (TsKey × InternalEntry)} {key : TsKey}
    (h : ∀ e ∈ entries, key < e.1) : entries.lookup key = none := by
  induction entries with
  | nil => rfl
  | cons e entries ih =>
    have hne : (key == e.1) = false := by simpa using (h e List.mem_cons_self).ne
    rw [List.lookup_cons, hne]
    exact ih fun e' he' => h e' (List.mem_cons_of_mem e he')

/-- A look-up in a block finds what the list of its entries holds. -/
theorem getFromBlockLoop_encode {block : Bytes} {key : TsKey}
    (entries : List (TsKey × InternalEntry)) {turns pos : ℕ} (hasc : Ascending Prod.fst entries)
    (hfits : ∀ e ∈ entries, FitsEntry e) (h : block.drop pos = encodeBlock entries)
    (hturns : entries.length ≤ turns) :
    getFromBlockLoop block key turns pos = entries.lookup key := by
  induction entries generalizing turns pos with
  | nil =>
    have hend := not_lt_of_drop_nil h
    cases turns with
    | zero => rfl
    | succ turns => rw [getFromBlockLoop, if_neg hend]; rfl
  | cons e entries ih =>
    obtain ⟨hlt, hasc'⟩ := ascending_cons.mp hasc
    obtain ⟨hin, hdrop⟩ := lt_of_drop_cons h
    obtain ⟨turns, rfl⟩ : ∃ t, turns = t + 1 := ⟨turns - 1, by rw [List.length_cons] at hturns; omega⟩
    have hrest := ih hasc' (fun e' he' => hfits e' (List.mem_cons_of_mem e he'))
      (drop_add_of_drop hdrop) (Nat.le_of_succ_le_succ hturns)
    rw [getFromBlockLoop, if_pos hin, parseEntry_encode (hfits e List.mem_cons_self) hdrop]
    dsimp only
    rw [List.lookup_cons]
    rcases lt_trichotomy e.1 key with hk | hk | hk
    · have hne : (key == e.1) = false := by simpa using hk.ne'
      rw [tsKeyComparator_lt_iff.mpr hk, hne]
      exact hrest
    · have heq : (key == e.1) = true := by simpa using hk.symm
      rw [tsKeyComparator_eq_iff.mpr hk, heq]
    · have hne : (key == e.1) = false := by simpa using hk.ne
      rw [tsKeyComparator_gt_iff.mpr hk, hne]
      exact (lookup_eq_none_of_lt fun e' he' => hk.trans (hlt e' he')).symm

theorem getFromBlock_encode {key : TsKey} {entries : List (TsKey × InternalEntry)}
    (hasc : Ascending Prod.fst entries) (hfits : ∀ e ∈ entries, FitsEntry e) :
    getFromBlock (encodeBlock entries) key = entries.lookup key :=
  getFromBlockLoop_encode entries hasc hfits (by rw [List.drop_zero]) (length_le_encodeBlock entries)

/-- The pairs of a list between two keys, as records. -/
def recordsBetween (entries : List (TsKey × InternalEntry)) (first last : TsKey) : List Record :=
  (entries.filter fun e => decide (first ≤ e.1 ∧ e.1 ≤ last)).map fun e => toRecord e.1 e.2

theorem recordsBetween_append (xs ys : List (TsKey × InternalEntry)) (first last : TsKey) :
    recordsBetween (xs ++ ys) first last =
      recordsBetween xs first last ++ recordsBetween ys first last := by
  simp [recordsBetween]

theorem recordsBetween_eq_nil {entries : List (TsKey × InternalEntry)} {first last : TsKey}
    (h : ∀ e ∈ entries, ¬ (first ≤ e.1 ∧ e.1 ≤ last)) : recordsBetween entries first last = [] := by
  rw [recordsBetween, List.map_eq_nil_iff, List.filter_eq_nil_iff]
  intro e he
  simpa using h e he

/-- A scan of a block finds what lies between the keys, and stops only behind `last`. -/
theorem scanBlockLoop_encode {block : Bytes} (first last : TsKey)
    (entries : List (TsKey × InternalEntry)) {turns pos : ℕ} (hasc : Ascending Prod.fst entries)
    (hfits : ∀ e ∈ entries, FitsEntry e) (h : block.drop pos = encodeBlock entries)
    (hturns : entries.length ≤ turns) :
    (scanBlockLoop block first last turns pos).1 = recordsBetween entries first last ∧
      ((scanBlockLoop block first last turns pos).2 = true → ∃ e ∈ entries, last < e.1) := by
  induction entries generalizing turns pos with
  | nil =>
    have hend := not_lt_of_drop_nil h
    cases turns with
    | zero => exact ⟨rfl, fun hstop => by simp [scanBlockLoop] at hstop⟩
    | succ turns =>
      rw [scanBlockLoop, if_neg hend]
      exact ⟨rfl, fun hstop => by simp at hstop⟩
  | cons e entries ih =>
    obtain ⟨hlt, hasc'⟩ := ascending_cons.mp hasc
    obtain ⟨hin, hdrop⟩ := lt_of_drop_cons h
    obtain ⟨turns, rfl⟩ : ∃ t, turns = t + 1 := ⟨turns - 1, by rw [List.length_cons] at hturns; omega⟩
    obtain ⟨hrecords, hstop⟩ := ih hasc'
      (fun e' he' => hfits e' (List.mem_cons_of_mem e he')) (drop_add_of_drop hdrop)
      (Nat.le_of_succ_le_succ hturns)
    have hcons : recordsBetween (e :: entries) first last =
        recordsBetween [e] first last ++ recordsBetween entries first last :=
      recordsBetween_append [e] entries first last
    rw [scanBlockLoop, if_pos hin, parseEntry_encode (hfits e List.mem_cons_self) hdrop]
    dsimp only
    simp only [tsKeyComparator_lt_iff, tsKeyComparator_gt_iff]
    rw [hcons]
    split_ifs with hbefore hbehind
    · have hnone : recordsBetween [e] first last = [] :=
        recordsBetween_eq_nil fun e' he' => by
          rw [List.mem_singleton.mp he']
          exact fun hr => not_lt.mpr hr.1 hbefore
      rw [hnone]
      refine ⟨hrecords, fun hs => ?_⟩
      obtain ⟨e', he', hl⟩ := hstop hs
      exact ⟨e', List.mem_cons_of_mem e he', hl⟩
    · have hnone : recordsBetween (e :: entries) first last = [] :=
        recordsBetween_eq_nil fun e' he' hr => by
          rcases List.mem_cons.mp he' with rfl | he'
          · exact not_lt.mpr hr.2 hbehind
          · exact not_lt.mpr hr.2 (hbehind.trans (hlt e' he'))
      rw [← hcons, hnone]
      exact ⟨rfl, fun _ => ⟨e, List.mem_cons_self, hbehind⟩⟩
    · have hone : recordsBetween [e] first last = [toRecord e.1 e.2] := by
        simp [recordsBetween, not_lt.mp hbefore, not_lt.mp hbehind]
      rw [hone]
      refine ⟨by rw [hrecords]; rfl, fun hs => ?_⟩
      obtain ⟨e', he', hl⟩ := hstop hs
      exact ⟨e', List.mem_cons_of_mem e he', hl⟩

end MiniTsdb
