import MiniTsdb.Spec.BloomFilter

/-! No key is lost: every added key keeps its bits through later keys, through every
doubling of the array and through the encoded form, as long as the array has fewer
than `2 ^ 32` bits. With `2 ^ 32` bits the 32-bit bit count is zero. -/

namespace MiniTsdb
open Lib

@[simp] theorem setBit_length (bits : Bytes) (pos : ℕ) : (setBit bits pos).length = bits.length := by
  simp [setBit]

theorem or_bit_lt (b : Byte) (pos : ℕ) : b.val ||| 1 <<< (pos % 8) < 256 := by
  apply Nat.or_lt_two_pow (n := 8)
  · exact b.isLt
  · rw [Nat.one_shiftLeft]
    exact Nat.pow_lt_pow_right (by norm_num) (Nat.mod_lt _ (by norm_num))

theorem getElem?_setBit (bits : Bytes) (pos i : ℕ) :
    (setBit bits pos)[i]? = (bits[i]?).map fun b =>
      if pos / 8 = i then Fin.ofNat 256 (b.val ||| 1 <<< (pos % 8)) else b :=
  List.getElem?_modify ..

theorem testBit_setBit {bits : Bytes} {pos q : ℕ} (h : pos / 8 < bits.length) :
    testBit (setBit bits pos) q = true ↔ testBit bits q = true ∨ q = pos := by
  unfold testBit
  rw [getElem?_setBit]
  by_cases hbyte : pos / 8 = q / 8
  · have hsame : q = pos ↔ pos % 8 = q % 8 := by omega
    rw [hbyte] at h
    rw [List.getElem?_eq_getElem h]
    simp only [Option.map_some, if_pos hbyte, Fin.ofNat]
    rw [Nat.mod_eq_of_lt (or_bit_lt _ pos), Nat.testBit_or, Nat.one_shiftLeft, Nat.testBit_two_pow,
      Bool.or_eq_true, decide_eq_true_eq, hsame]
  · have hne : q ≠ pos := fun he => hbyte (he ▸ rfl)
    cases bits[q / 8]? <;> simp [hbyte, hne]

theorem foldl_setBit_length (ps : List ℕ) (bits : Bytes) :
    (ps.foldl setBit bits).length = bits.length := by
  induction ps generalizing bits with
  | nil => rfl
  | cons p ps ih => rw [List.foldl_cons, ih, setBit_length]

theorem testBit_foldl {ps : List ℕ} {bits : Bytes} (h : ∀ p ∈ ps, p / 8 < bits.length) {q : ℕ} :
    testBit (ps.foldl setBit bits) q = true ↔ testBit bits q = true ∨ q ∈ ps := by
  induction ps generalizing bits with
  | nil => simp
  | cons p ps ih =>
    obtain ⟨hfirst, hrest⟩ := List.forall_mem_cons.mp h
    rw [List.foldl_cons, ih (by simpa using hrest), testBit_setBit hfirst, List.mem_cons, or_assoc]

/-- All bits of the key are set. -/
def HasKey (num_probes : ℤ) (bits key : Bytes) : Prop :=
  ∀ q ∈ probePositions key num_probes (bitCount bits), testBit bits q = true

theorem addHashOnly_eq {num_probes : ℤ} {bits : Bytes} (h : 0 < bitCount bits) (key : Bytes) :
    addHashOnly num_probes bits key =
      some ((probePositions key num_probes (bitCount bits)).foldl setBit bits) :=
  if_neg fun hzero => by omega

theorem probe_in_range {bits key : Bytes} {num_probes : ℤ} (h : 0 < bitCount bits) {q : ℕ}
    (hq : q ∈ probePositions key num_probes (bitCount bits)) : q / 8 < bits.length := by
  obtain ⟨i, -, rfl⟩ := List.mem_map.mp hq
  have hlt := Nat.mod_lt (hash1 key + BitVec.ofNat 32 i * hash2 key).toNat h
  have hle : bitCount bits ≤ bits.length * 8 := Nat.mod_le _ _
  omega

theorem bitCount_congr {bits bits' : Bytes} (h : bits'.length = bits.length) :
    bitCount bits' = bitCount bits := by
  rw [bitCount, bitCount, h]

theorem foldlM_addHashOnly (num_probes : ℤ) (keys : List Bytes) {bits : Bytes}
    (h : 0 < bitCount bits) :
    ∃ bits', keys.foldlM (addHashOnly num_probes) bits = some bits' ∧ bits'.length = bits.length ∧
      ∀ q, testBit bits' q = true ↔ testBit bits q = true ∨
        ∃ key ∈ keys, q ∈ probePositions key num_probes (bitCount bits) := by
  induction keys generalizing bits with
  | nil => exact ⟨bits, rfl, rfl, fun q => by simp⟩
  | cons key keys ih =>
    set bits₁ := (probePositions key num_probes (bitCount bits)).foldl setBit bits with hbits₁
    have hlen₁ : bits₁.length = bits.length := foldl_setBit_length _ _
    have hcount := bitCount_congr hlen₁
    obtain ⟨bits', hfold, hlen, hset⟩ := ih (show 0 < bitCount bits₁ by omega)
    refine ⟨bits', ?_, hlen.trans hlen₁, fun q => ?_⟩
    · rw [List.foldlM_cons, addHashOnly_eq h]
      exact hfold
    · rw [hset, hcount, hbits₁, testBit_foldl fun q hq => probe_in_range h hq]
      simp [or_assoc]

theorem HasKey.of_testBit {num_probes : ℤ} {bits bits' key : Bytes} (h : HasKey num_probes bits key)
    (hlen : bits'.length = bits.length)
    (hset : ∀ q, testBit bits q = true → testBit bits' q = true) : HasKey num_probes bits' key := by
  unfold HasKey
  rw [bitCount_congr hlen]
  exact fun q hq => hset q (h q hq)

theorem growSize_pow {a b needed : ℕ} (hab : a ≤ b) (hb : needed ≤ 2 ^ b) :
    ∃ c, a ≤ c ∧ c ≤ b ∧ needed ≤ 2 ^ c ∧ growSize (2 ^ a) needed = 2 ^ c := by
  obtain ⟨d, rfl⟩ : ∃ d, b = a + d := ⟨b - a, by omega⟩
  induction d generalizing a with
  | zero =>
    refine ⟨a, le_rfl, le_rfl, hb, ?_⟩
    rw [growSize, dif_neg fun h => absurd h.2 (not_lt.mpr hb)]
  | succ d ih =>
    by_cases hlt : 2 ^ a < needed
    · obtain ⟨c, hac, hcb, hneed, hgrow⟩ := ih (a := a + 1) (by omega)
        (by rw [show a + 1 + d = a + (d + 1) by ring]; exact hb)
      refine ⟨c, by omega, by omega, hneed, ?_⟩
      rw [growSize, dif_pos ⟨by positivity, hlt⟩, ← pow_succ, hgrow]
    · refine ⟨a, le_rfl, by omega, not_lt.mp hlt, ?_⟩
      rw [growSize, dif_neg fun h => hlt h.2]

/-- A filter that has all of its keys and fewer than `2 ^ 32` bits. -/
structure BloomFilter.Sound (bf : BloomFilter) : Prop where
  size : ∃ a, 10 ≤ a ∧ a ≤ 28 ∧ bf.bits.length = 2 ^ a
  count : bf.num_keys = bf.keys.length
  found : ∀ key ∈ bf.keys, HasKey bf.num_probes bf.bits key

theorem bitCount_pow {bits : Bytes} {a : ℕ} (ha : a ≤ 28) (h : bits.length = 2 ^ a) :
    bitCount bits = 2 ^ (a + 3) := by
  have hlt : 2 ^ (a + 3) < 2 ^ 32 := Nat.pow_lt_pow_right (by norm_num) (by omega)
  rw [bitCount, h, show 2 ^ a * 8 = 2 ^ (a + 3) by rw [pow_add]; norm_num, Nat.mod_eq_of_lt hlt]

theorem BloomFilter.sound_new (bits_per_key : ℕ) : (BloomFilter.new bits_per_key).Sound :=
  ⟨⟨10, le_rfl, by norm_num, List.length_replicate ..⟩, rfl, fun _ h => absurd h List.not_mem_nil⟩

theorem BloomFilter.ensureCapacity_sound (bf : BloomFilter) {old : List Bytes}
    (hsize : ∃ a, 10 ≤ a ∧ a ≤ 28 ∧ bf.bits.length = 2 ^ a)
    (hold : ∀ key ∈ old, HasKey bf.num_probes bf.bits key) (hsub : old ⊆ bf.keys) {n : ℕ}
    (hfit : bf.neededBytes n ≤ 2 ^ 28) :
    ∃ bits, bf.ensureCapacity n = some { bf with bits := bits } ∧
      (∃ a, 10 ≤ a ∧ a ≤ 28 ∧ bits.length = 2 ^ a) ∧
      ∀ key ∈ old, HasKey bf.num_probes bits key := by
  obtain ⟨a, h10, h28, hlen⟩ := hsize
  unfold BloomFilter.ensureCapacity
  dsimp only
  split_ifs with hroom hempty
  · exact ⟨bf.bits, rfl, ⟨a, h10, h28, hlen⟩, hold⟩
  · rw [List.isEmpty_iff.mp hempty] at hlen
    have : 0 < 2 ^ a := by positivity
    rw [List.length_nil] at hlen
    omega
  · obtain ⟨c, hac, hc, -, hgrow⟩ := growSize_pow h28 hfit
    rw [hlen, hgrow]
    have hrep : (List.replicate (2 ^ c) (0 : Byte)).length = 2 ^ c := List.length_replicate ..
    have hpos : 0 < bitCount (List.replicate (2 ^ c) (0 : Byte)) := by
      rw [bitCount_pow hc hrep]; positivity
    obtain ⟨bits, hfold, hbits, hset⟩ := foldlM_addHashOnly bf.num_probes bf.keys hpos
    rw [hfold]
    refine ⟨bits, rfl, ⟨c, by omega, hc, hbits.trans hrep⟩, fun key hk q hq => ?_⟩
    rw [bitCount_congr hbits] at hq
    exact (hset q).mpr (Or.inr ⟨key, hsub hk, hq⟩)

/-- Adding a key keeps a filter sound while the array may have fewer than `2 ^ 32` bits. -/
theorem BloomFilter.add_sound {bf : BloomFilter} (h : bf.Sound) (key : Bytes)
    (hfit : bf.neededBytes (bf.num_keys + 1) ≤ 2 ^ 28) :
    ∃ bits, bf.add key =
        some { bf with bits := bits, keys := bf.keys ++ [key], num_keys := bf.num_keys + 1 } ∧
      BloomFilter.Sound
        { bf with bits := bits, keys := bf.keys ++ [key], num_keys := bf.num_keys + 1 } := by
  obtain ⟨bits₁, hensure, ⟨a, h10, h28, hlen⟩, hkeys⟩ := BloomFilter.ensureCapacity_sound
    { bf with keys := bf.keys ++ [key], num_keys := bf.num_keys + 1 }
    h.size h.found (List.subset_append_left _ _) hfit
  have hpos : 0 < bitCount bits₁ := by rw [bitCount_pow h28 hlen]; positivity
  obtain ⟨bits, hadd, hbits, hset⟩ := foldlM_addHashOnly bf.num_probes [key] hpos
  have hone : addHashOnly bf.num_probes bits₁ key = some bits := by simpa using hadd
  refine ⟨bits, ?_, ⟨a, h10, h28, hbits.trans hlen⟩, ?_, ?_⟩
  · rw [BloomFilter.add]
    dsimp only
    rw [hensure]
    dsimp only
    rw [hone]
  · simp [h.count]
  · intro k hk
    rcases List.mem_append.mp hk with hk | hk
    · exact (hkeys k hk).of_testBit hbits fun q hq => (hset q).mpr (Or.inl hq)
    · intro q hq
      rw [bitCount_congr hbits] at hq
      exact (hset q).mpr (Or.inr ⟨k, hk, hq⟩)

theorem BloomFilter.mayContain_sound {bf : BloomFilter} (h : bf.Sound) (key : Bytes) :
    ∃ b, bf.mayContain key = some b ∧ (key ∈ bf.keys → b = true) := by
  obtain ⟨a, h10, h28, hlen⟩ := h.size
  have hpos : 0 < bitCount bf.bits := by rw [bitCount_pow h28 hlen]; positivity
  have hne : bf.bits.isEmpty = false := by
    rw [List.isEmpty_eq_false_iff]
    intro he
    have hp : 0 < 2 ^ a := by positivity
    rw [he, List.length_nil] at hlen
    omega
  rw [BloomFilter.mayContain, hne, if_neg (by simp), if_neg (by omega)]
  exact ⟨_, rfl, fun hk => List.all_eq_true.mpr fun q hq => h.found key hk q hq⟩

theorem BloomFilter.neededBytes_mono (bf : BloomFilter) {m n : ℕ} (h : m ≤ n) :
    bf.neededBytes m ≤ bf.neededBytes n := by
  unfold BloomFilter.neededBytes
  have hmul := Nat.mul_le_mul_right bf.bits_per_key h
  omega

theorem BloomFilter.addAll_sound (keys : List Bytes) {bf : BloomFilter} (h : bf.Sound)
    (hfit : bf.neededBytes (bf.num_keys + keys.length) ≤ 2 ^ 28) :
    ∃ bits, keys.foldlM BloomFilter.add bf = some { bf with
        bits := bits, keys := bf.keys ++ keys, num_keys := bf.num_keys + keys.length } ∧
      BloomFilter.Sound { bf with
        bits := bits, keys := bf.keys ++ keys, num_keys := bf.num_keys + keys.length } := by
  induction keys generalizing bf with
  | nil =>
    refine ⟨bf.bits, ?_, ?_⟩
    · simp
    · simpa using h
  | cons key keys ih =>
    have hone : bf.neededBytes (bf.num_keys + 1) ≤ 2 ^ 28 :=
      (bf.neededBytes_mono (by simp)).trans hfit
    obtain ⟨bits₁, hadd, hsound₁⟩ := BloomFilter.add_sound h key hone
    obtain ⟨bits, hall, hsound⟩ := ih hsound₁
      (by simpa [BloomFilter.neededBytes, Nat.add_assoc, Nat.add_comm] using hfit)
    have hcount : bf.num_keys + 1 + keys.length = bf.num_keys + (key :: keys).length := by
      rw [List.length_cons]; omega
    refine ⟨bits, ?_, ?_⟩
    · rw [List.foldlM_cons, hadd]
      simp only [List.append_assoc, List.singleton_append, hcount] at hall
      exact hall
    · simp only [List.append_assoc, List.singleton_append, hcount] at hsound
      exact hsound

/-- From `2 ^ 32` bits on the rehash divides by zero. -/
theorem BloomFilter.add_fails {bf : BloomFilter} {a : ℕ} (ha : a ≤ 28) (hlen : bf.bits.length = 2 ^ a)
    (hprobes : 0 < bf.num_probes) (key : Bytes)
    (hlow : 2 ^ 28 < bf.neededBytes (bf.num_keys + 1)) : bf.add key = none := by
  have hpow : 2 ^ a ≤ 2 ^ 28 := Nat.pow_le_pow_right (by norm_num) ha
  have hapos : 0 < 2 ^ a := by positivity
  obtain ⟨c, -, -, hneed, hgrow⟩ := growSize_pow (le_max_left a _)
    ((Nat.lt_two_pow_self (n := bf.neededBytes (bf.num_keys + 1))).le.trans
      (Nat.pow_le_pow_right (by norm_num) (le_max_right a _)))
  have hc29 : 29 ≤ c := by
    by_contra hne
    have hle : 2 ^ c ≤ 2 ^ 28 := Nat.pow_le_pow_right (by norm_num) (by omega)
    omega
  have hne : bf.bits.isEmpty = false := by
    rw [List.isEmpty_eq_false_iff]
    intro he
    rw [he, List.length_nil] at hlen
    omega
  have hzero : bitCount (List.replicate (2 ^ c) (0 : Byte)) = 0 := by
    obtain ⟨d, rfl⟩ := Nat.exists_eq_add_of_le hc29
    rw [bitCount, List.length_replicate, pow_add]
    omega
  have hhash : ∀ k, addHashOnly bf.num_probes (List.replicate (2 ^ c) (0 : Byte)) k = none :=
    fun k => if_pos ⟨hzero, hprobes⟩
  have hfold : (bf.keys ++ [key]).foldlM (addHashOnly bf.num_probes)
      (List.replicate (2 ^ c) (0 : Byte)) = none := by
    cases hk : bf.keys with
    | nil => rw [List.nil_append, List.foldlM_cons, hhash]; rfl
    | cons k ks => rw [List.cons_append, List.foldlM_cons, hhash]; rfl
  have hensure : BloomFilter.ensureCapacity
      { bf with keys := bf.keys ++ [key], num_keys := bf.num_keys + 1 } (bf.num_keys + 1) = none := by
    have hsame : BloomFilter.neededBytes
        { bf with keys := bf.keys ++ [key], num_keys := bf.num_keys + 1 } (bf.num_keys + 1) =
        bf.neededBytes (bf.num_keys + 1) := rfl
    unfold BloomFilter.ensureCapacity
    dsimp only
    rw [hsame, if_neg (by omega), hne, if_neg (by simp), hlen, hgrow, hfold]
  rw [BloomFilter.add]
  dsimp only
  rw [hensure]

/-- The most keys a filter with ten bits a key takes. -/
def kMaxBloomKeys : ℕ := 214748364

/-- Up to there, a new filter takes all keys and finds each of them. -/
theorem BloomFilter.addAll_new {keys : List Bytes} (h : keys.length ≤ kMaxBloomKeys) :
    ∃ bf, keys.foldlM BloomFilter.add (BloomFilter.new 10) = some bf ∧ bf.Sound ∧
      bf.keys = keys ∧ bf.num_probes = (BloomFilter.new 10).num_probes := by
  unfold kMaxBloomKeys at h
  obtain ⟨bits, hall, hsound⟩ := BloomFilter.addAll_sound keys (BloomFilter.sound_new 10) (by
    change (max 8192 ((0 + keys.length) * 10) + 7) / 8 ≤ _
    omega)
  exact ⟨_, hall, hsound, rfl, rfl⟩

theorem BloomFilter.addAll_new_iff (keys : List Bytes) :
    (keys.foldlM BloomFilter.add (BloomFilter.new 10)).isSome ↔ keys.length ≤ kMaxBloomKeys := by
  refine ⟨fun hsome => ?_, fun hle => ?_⟩
  · by_contra hlong
    unfold kMaxBloomKeys at hlong
    obtain ⟨key, rest, hdrop⟩ : ∃ key rest, keys.drop 214748364 = key :: rest :=
      List.exists_cons_of_ne_nil (by
        intro he
        have := congrArg List.length he
        rw [List.length_drop, List.length_nil] at this
        omega)
    have hlen : (keys.take 214748364).length = 214748364 := by
      rw [List.length_take]
      omega
    obtain ⟨bits, hall, hsound⟩ := BloomFilter.addAll_sound (keys.take 214748364)
      (BloomFilter.sound_new 10) (by
        change (max 8192 ((0 + (keys.take 214748364).length) * 10) + 7) / 8 ≤ _
        rw [hlen]; norm_num)
    obtain ⟨a, -, h28, hsize⟩ := hsound.size
    have hfail := BloomFilter.add_fails h28 hsize
      (show 0 < (BloomFilter.new 10).num_probes by decide) key (by
        change _ < (max 8192 ((0 + (keys.take 214748364).length + 1) * 10) + 7) / 8
        rw [hlen]; norm_num)
    rw [← List.take_append_drop 214748364 keys, hdrop, List.foldlM_append, hall] at hsome
    simp only [Option.bind_eq_bind, Option.bind_some, List.foldlM_cons, hfail, Option.bind_none] at hsome
    contradiction
  · obtain ⟨bf, hall, -⟩ := BloomFilter.addAll_new hle
    rw [hall]
    rfl

theorem decodeInt32_encode {i : ℤ} (h : 0 ≤ i ∧ i < 2 ^ 31) (rest : Bytes) :
    decodeInt32 (encodeInt32 i ++ rest) 0 = i := by
  have hlen : (encodeInt32 i).length = 4 := leBytes_length ..
  have hval : leValue (slice (encodeInt32 i ++ rest) 0 4) = i.toNat := by
    rw [slice_append_left hlen.symm, encodeInt32, Int.emod_eq_of_lt h.1 (by omega)]
    exact leValue_leBytes_of_lt (by norm_num; omega)
  rw [decodeInt32, hval, if_pos (by omega)]
  omega

/-- What is decoded from a filter's encoded form: its bits, probes and key count, without the keys. -/
def BloomFilter.decoded (bf : BloomFilter) : BloomFilter :=
  { BloomFilter.new 10 with
    num_probes := bf.num_probes
    num_keys := bf.num_keys % 2 ^ 32
    bits := bf.bits }

theorem BloomFilter.decode_encode {bf : BloomFilter} (hsize : bf.bits.length < 2 ^ 32 - 12)
    (hprobes : 0 ≤ bf.num_probes ∧ bf.num_probes < 2 ^ 31) :
    BloomFilter.decode bf.encode = some bf.decoded := by
  have h4 : ∀ n, (leBytes 4 n).length = 4 := leBytes_length 4
  have hint : (encodeInt32 bf.num_probes).length = 4 := h4 _
  have hlen : bf.encode.length = 12 + bf.bits.length := by
    simp only [BloomFilter.encode, List.length_append, hint, h4]
    omega
  have hblen : leValue (slice bf.encode 4 4) = bf.bits.length := by
    rw [BloomFilter.encode, slice_append_of_eq hint.symm (h4 _).symm]
    exact leValue_leBytes_of_lt (by norm_num; omega)
  have hkeys : leValue (slice bf.encode 8 4) = bf.num_keys % 2 ^ 32 := by
    have hassoc : bf.encode = (encodeInt32 bf.num_probes ++ leBytes 4 bf.bits.length) ++
        (leBytes 4 bf.num_keys ++ bf.bits) := by
      simp [BloomFilter.encode]
    rw [hassoc, slice_append_of_eq (by simp only [List.length_append, hint, h4]) (h4 _).symm]
    exact leValue_leBytes ..
  have hbits : slice bf.encode 12 bf.bits.length = bf.bits := by
    have hassoc : bf.encode = (encodeInt32 bf.num_probes ++ (leBytes 4 bf.bits.length ++
        leBytes 4 bf.num_keys)) ++ (bf.bits ++ []) := by
      simp [BloomFilter.encode]
    rw [hassoc]
    exact slice_append_of_eq (by simp only [List.length_append, hint, h4]) rfl
  have hheader : (if bf.encode.length ≥ (12 + bf.bits.length) % 2 ^ 32 then 12 else 8) = 12 := by
    rw [if_pos]
    rw [hlen, Nat.mod_eq_of_lt (by omega)]
  have hnum : decodeInt32 bf.encode 0 = bf.num_probes := decodeInt32_encode hprobes _
  rw [BloomFilter.decode, if_neg (by omega)]
  simp only [hblen, hheader, hbits, hnum, hkeys, if_true]
  rw [if_neg (by omega), if_pos (by omega)]
  rfl

end MiniTsdb
