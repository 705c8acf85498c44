import MiniTsdb.Proofs.BloomGrowth

/-! Filters that were decoded. The keys are not part of the encoded form, so the first growth
after decoding loses the bits of the old ones; and the checks of the header let two kinds of
length through that make the program read behind the data or divide by zero. -/

namespace MiniTsdb
open Lib

namespace BloomFilter

theorem numProbes_range (bits_per_key : ℕ) : 1 ≤ numProbes bits_per_key ∧ numProbes bits_per_key ≤ 30 := by
  unfold numProbes
  dsimp only
  split_ifs <;> omega

theorem built {bits_per_key : ℕ} {keys : List Bytes} {bf : BloomFilter}
    (h : keys.foldlM add (BloomFilter.new bits_per_key) = some bf) :
    (∃ c ≤ 28, bf.bits.length = 2 ^ c) ∧ bf.num_probes = numProbes bits_per_key ∧
      bf.num_keys = keys.length ∧ ∀ key ∈ keys,
        ∀ q ∈ probePositions key bf.num_probes (bf.bits.length * 8), testBit bf.bits q = true := by
  have hlen : (BloomFilter.new bits_per_key).bits.length = 2 ^ 10 := List.length_replicate ..
  have hfits : (BloomFilter.new bits_per_key).sizeAfter keys.length * 8 < 2 ^ 32 := by
    by_contra hlarge
    rw [addAll_fails hlen (by norm_num) (numProbes_range bits_per_key).1 hlarge] at h
    contradiction
  obtain ⟨bits, hall, hbits, hset⟩ := addAll_spec hlen keys hfits
  obtain ⟨c, -, hsize⟩ := sizeAfter_pow hlen keys.length
  obtain rfl : (BloomFilter.new bits_per_key).extended bits keys = bf :=
    Option.some.inj (hall.symm.trans h)
  refine ⟨⟨c, ?_, hbits.trans hsize⟩, rfl, Nat.zero_add _, fun key hkey q hq => ?_⟩
  · rwa [hsize, bits_lt_iff] at hfits
  · rw [extended_bits, hbits] at hq
    exact (hset q).mpr (Or.inr ⟨key, hkey, hq⟩)

/-- A decoded filter keeps its old keys exactly if it does not grow, or if new keys happen to set
all of their bits in the array that it has grown to. -/
theorem decoded_keeps_keys_iff (bits_per_key : ℕ) (keys more : List Bytes) {bf : BloomFilter}
    (hbuilt : keys.foldlM add (BloomFilter.new bits_per_key) = some bf) :
    (∃ dec ext, decode bf.encode = some dec ∧ more.foldlM add dec = some ext ∧
      ∀ key ∈ keys ++ more, ext.mayContain key = some true) ↔
    bf.decoded.sizeAfter more.length * 8 < 2 ^ 32 ∧
      (bf.decoded.sizeAfter more.length = bf.bits.length ∨
        ∀ key ∈ keys, ∀ q ∈ probePositions key bf.num_probes (bf.decoded.sizeAfter more.length * 8),
          ∃ k ∈ more, q ∈ probePositions k bf.num_probes (bf.decoded.sizeAfter more.length * 8)) := by
  obtain ⟨⟨c, hc, hlen⟩, hprobes, -, hold⟩ := built hbuilt
  have hrange := numProbes_range bits_per_key
  have hpow : 2 ^ c ≤ 2 ^ 28 := Nat.pow_le_pow_right (by norm_num) hc
  have hdecode : decode bf.encode = some bf.decoded :=
    decode_encode (by omega) (by rw [hprobes]; omega)
  have hdecoded : bf.decoded.bits.length = 2 ^ c := hlen
  by_cases hfits : bf.decoded.sizeAfter more.length * 8 < 2 ^ 32
  · obtain ⟨bits, hall, hbits, hset⟩ := addAll_spec hdecoded more hfits
    obtain ⟨d, -, hsize⟩ := sizeAfter_pow hdecoded more.length
    have hd : d ≤ 28 := by rwa [hsize, bits_lt_iff] at hfits
    have hfound : ∀ key, (bf.decoded.extended bits more).mayContain key = some true ↔
        ∀ q ∈ probePositions key bf.num_probes (bf.decoded.sizeAfter more.length * 8),
          bf.decoded.MarkedAfter more q := by
      intro key
      rw [mayContain_iff (hbits.trans hsize) hd, extended_bits, hbits]
      exact forall₂_congr fun q _ => hset q
    have hmore : ∀ key ∈ more, (bf.decoded.extended bits more).mayContain key = some true :=
      fun key hkey => (hfound key).mpr fun q hq => Or.inr ⟨key, hkey, hq⟩
    have hkept : (∀ key ∈ keys, (bf.decoded.extended bits more).mayContain key = some true) ↔
        bf.decoded.sizeAfter more.length = bf.bits.length ∨
        ∀ key ∈ keys, ∀ q ∈ probePositions key bf.num_probes (bf.decoded.sizeAfter more.length * 8),
          ∃ k ∈ more, q ∈ probePositions k bf.num_probes (bf.decoded.sizeAfter more.length * 8) := by
      by_cases hgrown : bf.decoded.sizeAfter more.length = bf.bits.length
      · refine iff_of_true (fun key hkey => (hfound key).mpr fun q hq => ?_) (Or.inl hgrown)
        rw [hgrown] at hq
        exact Or.inl ((if_pos hgrown).mpr (hold key hkey q hq))
      · rw [or_iff_right hgrown]
        refine forall₂_congr fun key _ => (hfound key).trans (forall₂_congr fun q _ => ?_)
        -- nothing is left of the array before, and no old key is remembered
        have hnone : ¬ ∃ k ∈ bf.decoded.keys,
            q ∈ probePositions k bf.num_probes (bf.decoded.sizeAfter more.length * 8) := by
          rintro ⟨k, hk, -⟩
          exact absurd hk List.not_mem_nil
        exact (or_congr_left (iff_of_eq (if_neg hgrown))).trans (or_iff_right hnone)
    rw [and_iff_right hfits, ← hkept]
    constructor
    · rintro ⟨dec, ext, hdec, hext, hkeys⟩
      obtain rfl : bf.decoded = dec := Option.some.inj (hdecode.symm.trans hdec)
      obtain rfl : bf.decoded.extended bits more = ext := Option.some.inj (hall.symm.trans hext)
      exact fun key hkey => hkeys key (List.mem_append_left _ hkey)
    · intro hkeys
      refine ⟨_, _, hdecode, hall, fun key hkey => ?_⟩
      exact (List.mem_append.mp hkey).elim (hkeys key) (hmore key)
  · refine iff_of_false ?_ fun h => hfits h.1
    rintro ⟨dec, ext, hdec, hext, -⟩
    obtain rfl : bf.decoded = dec := Option.some.inj (hdecode.symm.trans hdec)
    have hpositive : 0 < bf.decoded.num_probes := by
      change 0 < bf.num_probes
      rw [hprobes]
      omega
    rw [addAll_fails hdecoded hc hpositive hfits] at hext
    contradiction

theorem built_small {keys : List Bytes} (h : keys.length ≤ 819) :
    ∃ bf, keys.foldlM add (BloomFilter.new 10) = some bf ∧ bf.bits.length = 1024 ∧
      bf.num_keys = keys.length ∧ bf.num_probes = 7 := by
  have hlen : (BloomFilter.new 10).bits.length = 2 ^ 10 := List.length_replicate ..
  have hsize : (BloomFilter.new 10).sizeAfter keys.length = 1024 := by
    rw [sizeAfter_eq_self]
    · exact hlen
    · rw [hlen]
      change (max 8192 ((0 + keys.length) * 10) + 7) / 8 ≤ 1024
      omega
  obtain ⟨bits, hall, hbits, -⟩ := addAll_spec hlen keys (by rw [hsize]; norm_num)
  exact ⟨_, hall, hbits.trans hsize, Nat.zero_add _, rfl⟩

/-- 819 keys fill the first array; the next two double it once. -/
theorem sizeAfter_full {bf : BloomFilter} (hlen : bf.bits.length = 1024) (hcount : bf.num_keys = 819) :
    bf.decoded.sizeAfter 1 = 2 ^ 11 ∧ bf.decoded.sizeAfter 2 = 2 ^ 11 := by
  have hfirst : bf.decoded.bits.length = 1024 := hlen
  have hneed : ∀ k, bf.decoded.neededBytes (bf.decoded.num_keys + k + 1) =
      (max 8192 ((819 % 2 ^ 32 + k + 1) * 10) + 7) / 8 := by
    intro k
    rw [← hcount]
    rfl
  have hone : bf.decoded.sizeAfter 1 = 2 ^ 11 := by
    have hfull := hneed 0
    rw [sizeAfter, sizeAfter, hfull, hfirst]
    simp [growSize]
  have hroom := hneed 1
  refine ⟨hone, ?_⟩
  rw [sizeAfter, hone, hroom]
  simp [growSize]

/-- The old key is added once more behind the one that doubles the array. -/
theorem decoded_keeps_keys_iff_cpu : ∃ bf dec ext,
    (List.replicate 819 [97]).foldlM add (BloomFilter.new 10) = some bf ∧
    decode bf.encode = some dec ∧ [[98], [97]].foldlM add dec = some ext ∧
    bf.bits.length = 1024 ∧ dec.sizeAfter 2 = 2048 ∧
    ext.mayContain [97] = some true ∧ ext.mayContain [98] = some true := by
  have hcount : (List.replicate 819 [97] : List Bytes).length = 819 := List.length_replicate ..
  obtain ⟨bf, hbuilt, hlen, hkeys, hprobes⟩ := built_small hcount.le
  have hsize := (sizeAfter_full hlen (hkeys.trans hcount)).2
  have hdecode : decode bf.encode = some bf.decoded :=
    decode_encode (by omega) (by rw [hprobes]; norm_num)
  obtain ⟨dec, ext, hdec, hext, hfound⟩ := (decoded_keeps_keys_iff 10 _ [[98], [97]] hbuilt).mpr
    ⟨lt_of_eq_of_lt (congrArg (· * 8) hsize) (by norm_num), Or.inr fun key hkey q hq =>
      ⟨key, by simp [List.eq_of_mem_replicate hkey], hq⟩⟩
  obtain rfl : bf.decoded = dec := Option.some.inj (hdecode.symm.trans hdec)
  have hold : [97] ∈ List.replicate 819 ([97] : Bytes) := List.mem_replicate.mpr ⟨by norm_num, rfl⟩
  exact ⟨bf, _, ext, hbuilt, hdec, hext, hlen, hsize, hfound _ (List.mem_append_left _ hold),
    hfound _ (List.mem_append_right _ List.mem_cons_self)⟩

/-- 819 times the same key fill the first array; one more key doubles it. -/
theorem old_key_lost : ∃ bf dec ext,
    (List.replicate 819 [97]).foldlM add (BloomFilter.new 10) = some bf ∧
    decode bf.encode = some dec ∧ [[98]].foldlM add dec = some ext ∧
    ext.mayContain [97] = some false := by
  have hkeys : (List.replicate 819 [97] : List Bytes).length = 819 := List.length_replicate ..
  obtain ⟨bf, hbuilt, hlen, hcount, hprobes⟩ := built_small hkeys.le
  have hdecode : decode bf.encode = some bf.decoded :=
    decode_encode (by omega) (by rw [hprobes]; norm_num)
  have hsize := (sizeAfter_full hlen (hcount.trans hkeys)).1
  have hdecoded : bf.decoded.bits.length = 2 ^ 10 := hlen
  obtain ⟨bits, hall, hbits, hset⟩ := addAll_spec hdecoded [[98]]
    (lt_of_eq_of_lt (congrArg (· * 8) hsize) (by norm_num))
  have hbits' : bits.length = 2 ^ 11 := hbits.trans hsize
  refine ⟨bf, _, _, hbuilt, hdecode, hall, ?_⟩
  rw [mayContain_eq hbits' (by norm_num), extended_bits, hbits', Option.some.injEq, List.all_eq_false]
  -- a bit of the old key that is none of the new one
  have hother : ∃ q ∈ probePositions [97] 7 (2 ^ 11 * 8), q ∉ probePositions [98] 7 (2 ^ 11 * 8) := by
    decide
  obtain ⟨q, hq, hnew⟩ := hother
  refine ⟨q, ?_, ?_⟩
  · change q ∈ probePositions [97] bf.num_probes (2 ^ 11 * 8)
    rwa [hprobes]
  · have hgrown : ¬ bits.length = bf.decoded.bits.length := by
      rw [hbits', hdecoded]
      norm_num
    rw [hset, MarkedAfter, ← hbits, if_neg hgrown, hbits']
    rintro (⟨k, hk, -⟩ | ⟨k, hk, hmark⟩)
    · exact absurd hk List.not_mem_nil
    · obtain rfl := List.mem_singleton.mp hk
      change q ∈ probePositions [98] bf.num_probes (2 ^ 11 * 8) at hmark
      rw [hprobes] at hmark
      exact hnew hmark

/-- The `memcpy` calls of `Decode`: where each starts to read, and how many bytes. -/
def decodeReads (data : Bytes) : List (ℕ × ℕ) :=
  if data.length < 8 then []
  else
    let blen := leValue (slice data 4 4)
    let header_size := if data.length ≥ (12 + blen) % 2 ^ 32 then 12 else 8
    [(0, 4), (4, 4)] ++ (if header_size = 12 then [(8, 4)] else []) ++
      if data.length ≥ header_size + blen then [(header_size, blen)] else []

/-- Where the probes of `MayContain` are read: behind the array is no place for one. -/
def ProbesInside (bf : BloomFilter) (key : Bytes) : Prop :=
  bf.bits ≠ [] → ∀ q ∈ probePositions key bf.num_probes (bitCount bf.bits), q / 8 < bf.bits.length

/-- The 32-bit sum of header and length wraps, so that a short header is taken for a long one. -/
def HeaderBehindData (data : Bytes) : Prop :=
  8 ≤ data.length ∧ data.length < 12 ∧ (12 + leValue (slice data 4 4)) % 2 ^ 32 ≤ data.length

/-- The array has a multiple of `2 ^ 32` bits. -/
def BitCountZero (data : Bytes) : Prop :=
  8 ≤ data.length ∧ 0 < decodeInt32 data 0 ∧ leValue (slice data 4 4) ≠ 0 ∧
    leValue (slice data 4 4) % 2 ^ 29 = 0

theorem decodeReads_inside_iff (data : Bytes) :
    (∀ read ∈ decodeReads data, read.1 + read.2 ≤ data.length) ↔ ¬ HeaderBehindData data := by
  unfold decodeReads HeaderBehindData
  by_cases hshort : data.length < 8
  · simp [hshort]
  · rw [if_neg hshort]
    dsimp only
    split_ifs with hlong hwhole hwhole
    all_goals simp
    all_goals omega

theorem decode_eq_none {data : Bytes} (h : HeaderBehindData data) : decode data = none := by
  obtain ⟨hmin, hmax, hwrap⟩ := h
  rw [decode, if_neg (not_lt.mpr hmin)]
  dsimp only
  rw [if_pos hwrap, if_pos ⟨rfl, hmax⟩]

theorem decode_eq_some {data : Bytes} (h : ¬ HeaderBehindData data) :
    ∃ bf, decode data = some bf ∧ (data.length < 8 ∧ bf = BloomFilter.new 10 ∨
      8 ≤ data.length ∧ bf.num_probes = decodeInt32 data 0 ∧
        bf.bits.length = leValue (slice data 4 4)) := by
  by_cases hshort : data.length < 8
  · exact ⟨_, if_pos hshort, Or.inl ⟨hshort, rfl⟩⟩
  · have hmin : 8 ≤ data.length := not_lt.mp hshort
    have hbits : ∀ header blen, (if data.length ≥ header + blen then slice data header blen
        else List.replicate blen 0).length = blen := by
      intro header blen
      split_ifs with hwhole
      · exact slice_length hwhole
      · exact List.length_replicate ..
    rw [decode, if_neg hshort]
    dsimp only
    rw [if_neg]
    · exact ⟨_, rfl, Or.inr ⟨hmin, rfl, hbits _ _⟩⟩
    · rintro ⟨hheader, hmax⟩
      refine h ⟨hmin, hmax, ?_⟩
      by_contra hwrap
      rw [if_neg hwrap] at hheader
      omega

theorem mayContain_isSome_iff (bf : BloomFilter) (key : Bytes) :
    (bf.mayContain key).isSome ↔ bf.bits = [] ∨ ¬ (bitCount bf.bits = 0 ∧ 0 < bf.num_probes) := by
  unfold mayContain
  split_ifs with hempty hzero
  · simp [List.isEmpty_iff.mp hempty]
  · have hne : bf.bits ≠ [] := by simpa using hempty
    simp [hne, hzero]
  · simp [hzero]

/-- Without a division by zero no probe is outside the array. -/
theorem probesInside (bf : BloomFilter) {key : Bytes} (h : ¬ (bitCount bf.bits = 0 ∧ 0 < bf.num_probes)) :
    bf.ProbesInside key := by
  intro _ q hq
  by_cases hprobes : 0 < bf.num_probes
  · exact probe_in_range (by omega) hq
  · have hnone : bf.num_probes.toNat = 0 := by omega
    simp [probePositions, hnone] at hq

/-- Decoding reads inside the data, and the result can be asked for any key, exactly if neither
kind of length is met. -/
theorem decode_safe_iff (data key : Bytes) :
    ((∀ read ∈ decodeReads data, read.1 + read.2 ≤ data.length) ∧
      ∃ bf, decode data = some bf ∧ (bf.mayContain key).isSome ∧ bf.ProbesInside key) ↔
    ¬ HeaderBehindData data ∧ ¬ BitCountZero data := by
  rw [decodeReads_inside_iff]
  refine and_congr_right fun hinside => ?_
  obtain ⟨bf, hdecode, hbf⟩ := decode_eq_some hinside
  have hresult : (∃ bf', decode data = some bf' ∧ (bf'.mayContain key).isSome ∧ bf'.ProbesInside key) ↔
      (bf.mayContain key).isSome ∧ bf.ProbesInside key := by
    simp [hdecode]
  have hsafe : (bf.mayContain key).isSome ∧ bf.ProbesInside key ↔
      bf.bits = [] ∨ ¬ (bitCount bf.bits = 0 ∧ 0 < bf.num_probes) := by
    rw [mayContain_isSome_iff]
    refine and_iff_left_of_imp fun h => ?_
    rcases h with hempty | hcount
    · exact fun hne => absurd hempty hne
    · exact bf.probesInside hcount
  rw [hresult, hsafe]
  rcases hbf with ⟨hshort, rfl⟩ | ⟨hmin, hprobes, hlen⟩
  · refine iff_of_true (Or.inr fun h => ?_) fun h => absurd h.1 (not_le.mpr hshort)
    have hlen : (BloomFilter.new 10).bits.length = 1024 := List.length_replicate ..
    rw [bitCount, hlen] at h
    omega
  · unfold BitCountZero
    rw [bitCount, hprobes, ← hlen, ← List.length_eq_zero_iff]
    omega

/-- With `blen = 2 ^ 32 - 12` the sum is zero, and with `blen = 2 ^ 29` the bit count is. -/
theorem decode_unsafe :
    (8, 4) ∈ decodeReads [7, 0, 0, 0, 244, 255, 255, 255] ∧
    decode [7, 0, 0, 0, 244, 255, 255, 255] = none ∧
    ∃ bf, decode [7, 0, 0, 0, 0, 0, 0, 32] = some bf ∧ ∀ key, bf.mayContain key = none := by
  refine ⟨by decide, decode_eq_none ⟨by decide, by decide, by decide⟩, ?_⟩
  have hinside : ¬ HeaderBehindData [7, 0, 0, 0, 0, 0, 0, 32] := fun h => absurd h.2.2 (by decide)
  obtain ⟨bf, hdecode, hbf⟩ := decode_eq_some hinside
  obtain ⟨hshort, -⟩ | ⟨-, hprobes, hlen⟩ := hbf
  · exact absurd hshort (by decide)
  · have hblen : leValue (slice [7, 0, 0, 0, 0, 0, 0, 32] 4 4) = 2 ^ 29 := by decide
    have hseven : decodeInt32 [7, 0, 0, 0, 0, 0, 0, 32] 0 = 7 := by decide
    rw [hblen] at hlen
    refine ⟨bf, hdecode, fun key => Option.not_isSome_iff_eq_none.mp fun hsome => ?_⟩
    rcases (mayContain_isSome_iff bf key).mp hsome with hempty | hcount
    · rw [hempty, List.length_nil] at hlen
      omega
    · rw [bitCount, hlen, hprobes, hseven] at hcount
      omega

end BloomFilter

end MiniTsdb
