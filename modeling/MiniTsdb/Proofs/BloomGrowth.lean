import MiniTsdb.Proofs.Bloom

/-! The bloom filter's array, bit by bit. Adding keys sets their bits, and keeps those that
were set before until the array grows; then it has the bits of the remembered keys only. -/

namespace MiniTsdb
open Lib

namespace BloomFilter
variable {bf : BloomFilter} {a : ℕ}

/-- The array's bytes after so many further keys. -/
def sizeAfter (bf : BloomFilter) : ℕ → ℕ
  | 0 => bf.bits.length
  | n + 1 => growSize (bf.sizeAfter n) (bf.neededBytes (bf.num_keys + n + 1))

theorem growSize_le {size needed : ℕ} (h : needed ≤ size) : growSize size needed = size := by
  rw [growSize, dif_neg fun hgrow => absurd hgrow.2 (not_lt.mpr h)]

theorem growSize_two_pow (a needed : ℕ) :
    ∃ c, a ≤ c ∧ needed ≤ 2 ^ c ∧ growSize (2 ^ a) needed = 2 ^ c := by
  have hroom : needed ≤ 2 ^ max a needed :=
    Nat.lt_two_pow_self.le.trans (Nat.pow_le_pow_right (by norm_num) (le_max_right a needed))
  obtain ⟨c, hac, -, hneed, hgrow⟩ := growSize_pow (le_max_left a needed) hroom
  exact ⟨c, hac, hneed, hgrow⟩

/-- An array whose size is a power of two keeps such a size. -/
theorem sizeAfter_pow (h : bf.bits.length = 2 ^ a) (n : ℕ) : ∃ c, a ≤ c ∧ bf.sizeAfter n = 2 ^ c := by
  induction n with
  | zero => exact ⟨a, le_rfl, h⟩
  | succ n ih =>
    obtain ⟨c, hac, hsize⟩ := ih
    obtain ⟨d, hcd, -, hgrow⟩ := growSize_two_pow c (bf.neededBytes (bf.num_keys + n + 1))
    exact ⟨d, hac.trans hcd, by rw [sizeAfter, hsize, hgrow]⟩

theorem sizeAfter_eq_self {n : ℕ} (h : bf.neededBytes (bf.num_keys + n) ≤ bf.bits.length) :
    bf.sizeAfter n = bf.bits.length := by
  induction n with
  | zero => rfl
  | succ n ih =>
    have hless := (bf.neededBytes_mono (Nat.le_succ (bf.num_keys + n))).trans h
    rw [sizeAfter, ih hless]
    exact growSize_le h

theorem bits_lt_iff {c : ℕ} : 2 ^ c * 8 < 2 ^ 32 ↔ c ≤ 28 := by
  rw [show 2 ^ c * 8 = 2 ^ (c + 3) by rw [pow_add]; norm_num, Nat.pow_lt_pow_iff_right (by norm_num)]
  omega

/-- The filter with these bits once further keys have been added. -/
def extended (bf : BloomFilter) (bits : Bytes) (more : List Bytes) : BloomFilter :=
  { bf with bits := bits, keys := bf.keys ++ more, num_keys := bf.num_keys + more.length }

section
variable (bits : Bytes) (more : List Bytes)

@[simp] theorem extended_bits : (bf.extended bits more).bits = bits := rfl

@[simp] theorem extended_keys : (bf.extended bits more).keys = bf.keys ++ more := rfl

@[simp] theorem extended_num_probes : (bf.extended bits more).num_probes = bf.num_probes := rfl

end

/-- The bits of one more key, in an array that has grown from `2 ^ a` to `2 ^ c` bytes for it. -/
theorem add_spec (hlen : bf.bits.length = 2 ^ a) {c : ℕ} (hc : c ≤ 28) (key : Bytes)
    (hneed : bf.neededBytes (bf.num_keys + 1) ≤ 2 ^ c)
    (hgrow : growSize (2 ^ a) (bf.neededBytes (bf.num_keys + 1)) = 2 ^ c) :
    ∃ bits, bf.add key = some (bf.extended bits [key]) ∧ bits.length = 2 ^ c ∧ ∀ q, testBit bits q = true ↔
        (if c = a then testBit bf.bits q = true
          else ∃ k ∈ bf.keys, q ∈ probePositions k bf.num_probes (2 ^ (c + 3))) ∨
        q ∈ probePositions key bf.num_probes (2 ^ (c + 3)) := by
  set bf₁ : BloomFilter := { bf with keys := bf.keys ++ [key], num_keys := bf.num_keys + 1 } with hbf₁
  -- the array before the key itself is added
  obtain ⟨bits₁, hensure, hlen₁, hset₁⟩ : ∃ bits, bf₁.ensureCapacity (bf.num_keys + 1) =
      some { bf₁ with bits := bits } ∧ bits.length = 2 ^ c ∧ ∀ q, testBit bits q = true ↔
        if c = a then testBit bf.bits q = true
          else ∃ k ∈ bf.keys ++ [key], q ∈ probePositions k bf.num_probes (2 ^ (c + 3)) := by
    have hsame : bf₁.neededBytes (bf.num_keys + 1) = bf.neededBytes (bf.num_keys + 1) := rfl
    unfold ensureCapacity
    dsimp only
    rw [hsame, hlen]
    by_cases hca : c = a
    · rw [if_pos (hca ▸ hneed)]
      exact ⟨bf.bits, rfl, hca ▸ hlen, fun q => by simp [hca]⟩
    · have hmore : ¬ bf.neededBytes (bf.num_keys + 1) ≤ 2 ^ a := by
        intro hle
        rw [growSize_le hle] at hgrow
        exact hca (Nat.pow_right_injective le_rfl hgrow).symm
      have hne : bf.bits.isEmpty = false := by
        have hpos : 0 < 2 ^ a := by positivity
        rw [List.isEmpty_eq_false_iff, ← List.length_pos_iff]
        omega
      have hrep : (List.replicate (2 ^ c) (0 : Byte)).length = 2 ^ c := List.length_replicate ..
      have hcount := bitCount_pow hc hrep
      obtain ⟨bits, hfold, hbits, hset⟩ := foldlM_addHashOnly bf.num_probes (bf.keys ++ [key])
        (show 0 < bitCount (List.replicate (2 ^ c) 0) by rw [hcount]; positivity)
      have hzero : ∀ q, testBit (List.replicate (2 ^ c) (0 : Byte)) q = false := by
        intro q
        unfold testBit
        by_cases hq : q / 8 < 2 ^ c <;> simp [hq]
      rw [if_neg hmore, hne, if_neg (by simp), hgrow, hfold]
      refine ⟨bits, rfl, hbits.trans hrep, fun q => ?_⟩
      rw [hset, hcount, hzero, if_neg hca]
      simp
  have hcount := bitCount_pow hc hlen₁
  obtain ⟨bits, hadd, hbits, hset⟩ := foldlM_addHashOnly bf.num_probes [key]
    (show 0 < bitCount bits₁ by rw [hcount]; positivity)
  have hone : addHashOnly bf.num_probes bits₁ key = some bits := by simpa using hadd
  refine ⟨bits, ?_, hbits.trans hlen₁, fun q => ?_⟩
  · rw [add]
    dsimp only
    rw [hensure]
    dsimp only
    rw [hone]
    rfl
  · rw [hset, hcount, hset₁]
    by_cases hca : c = a
    · simp [hca]
    · simp [hca, or_and_right, exists_or]

def MarkedAfter (bf : BloomFilter) (more : List Bytes) (q : ℕ) : Prop :=
  (if bf.sizeAfter more.length = bf.bits.length then testBit bf.bits q = true
    else ∃ k ∈ bf.keys, q ∈ probePositions k bf.num_probes (bf.sizeAfter more.length * 8)) ∨
  ∃ k ∈ more, q ∈ probePositions k bf.num_probes (bf.sizeAfter more.length * 8)

theorem addAll_spec (hlen : bf.bits.length = 2 ^ a) (more : List Bytes)
    (hfits : bf.sizeAfter more.length * 8 < 2 ^ 32) :
    ∃ bits, more.foldlM add bf = some (bf.extended bits more) ∧ bits.length = bf.sizeAfter more.length ∧
      ∀ q, testBit bits q = true ↔ bf.MarkedAfter more q := by
  induction more using List.reverseRecOn with
  | nil => exact ⟨bf.bits, by simp [extended], rfl, fun q => by simp [MarkedAfter, sizeAfter]⟩
  | append_singleton more key ih =>
    obtain ⟨c, hac, hsize⟩ := sizeAfter_pow hlen more.length
    obtain ⟨d, hcd, hneed, hgrow⟩ := growSize_two_pow c (bf.neededBytes (bf.num_keys + more.length + 1))
    have hsize' : bf.sizeAfter (more ++ [key]).length = 2 ^ d := by
      rw [List.length_append, List.length_singleton, sizeAfter, hsize, hgrow]
    rw [hsize', bits_lt_iff] at hfits
    obtain ⟨bits, hall, hbits, hset⟩ := ih (by rw [hsize, bits_lt_iff]; omega)
    have hgrown : (bf.extended bits more).bits.length = 2 ^ c := hbits.trans hsize
    obtain ⟨bits', hadd, hbits', hset'⟩ := add_spec hgrown hfits key hneed hgrow
    refine ⟨bits', ?_, hbits'.trans hsize'.symm, fun q => ?_⟩
    · rw [List.foldlM_append, hall]
      simpa [extended, List.append_assoc, Nat.add_assoc] using hadd
    · rw [hset', MarkedAfter, hsize', hlen, show 2 ^ (d + 3) = 2 ^ d * 8 by rw [pow_add]; norm_num]
      dsimp only [extended_bits, extended_keys, extended_num_probes]
      by_cases hdc : d = c
      · rw [if_pos hdc, hset, MarkedAfter, hsize, hlen, hdc]
        simp [or_and_right, exists_or, or_assoc]
      · have hda : ¬ 2 ^ d = 2 ^ a := by
          intro he
          have hda := Nat.pow_right_injective le_rfl he
          omega
        rw [if_neg hdc, if_neg hda]
        simp only [List.mem_append, List.mem_singleton, or_and_right, exists_or, exists_eq_left, or_assoc]

/-- The first key for which the array would have `2 ^ 32` bits or more ends the program. -/
theorem addAll_fails (hlen : bf.bits.length = 2 ^ a) (ha : a ≤ 28) (hprobes : 0 < bf.num_probes)
    {more : List Bytes} (hlarge : ¬ bf.sizeAfter more.length * 8 < 2 ^ 32) :
    more.foldlM add bf = none := by
  induction more using List.reverseRecOn with
  | nil =>
    rw [List.length_nil, sizeAfter, hlen, bits_lt_iff] at hlarge
    contradiction
  | append_singleton more key ih =>
    rw [List.foldlM_append]
    by_cases hfits : bf.sizeAfter more.length * 8 < 2 ^ 32
    · obtain ⟨c, hac, hsize⟩ := sizeAfter_pow hlen more.length
      obtain ⟨bits, hall, hbits, -⟩ := addAll_spec hlen more hfits
      have hc : c ≤ 28 := by rwa [hsize, bits_lt_iff] at hfits
      have hneed : 2 ^ 28 < bf.neededBytes (bf.num_keys + more.length + 1) := by
        by_contra hsmall
        obtain ⟨d, -, hd, -, hgrow⟩ := growSize_pow hc (not_lt.mp hsmall)
        rw [List.length_append, List.length_singleton, sizeAfter, hsize, hgrow, bits_lt_iff] at hlarge
        exact hlarge hd
      have hgrown : (bf.extended bits more).bits.length = 2 ^ c := hbits.trans hsize
      have hfail := add_fails hc hgrown hprobes key hneed
      rw [hall]
      simp [hfail]
    · rw [ih hfits]
      rfl

theorem mayContain_eq {c : ℕ} (hlen : bf.bits.length = 2 ^ c) (hc : c ≤ 28) (key : Bytes) :
    bf.mayContain key =
      some ((probePositions key bf.num_probes (bf.bits.length * 8)).all (testBit bf.bits)) := by
  have hcount := bitCount_pow hc hlen
  have hpos : 0 < 2 ^ (c + 3) := by positivity
  have hne : bf.bits.isEmpty = false := by
    rw [List.isEmpty_eq_false_iff, ← List.length_pos_iff, hlen]
    positivity
  rw [mayContain, hne, if_neg (by simp), if_neg (by omega), hcount, hlen,
    show 2 ^ c * 8 = 2 ^ (c + 3) by rw [pow_add]; norm_num]

theorem mayContain_iff {c : ℕ} (hlen : bf.bits.length = 2 ^ c) (hc : c ≤ 28) (key : Bytes) :
    bf.mayContain key = some true ↔
      ∀ q ∈ probePositions key bf.num_probes (bf.bits.length * 8), testBit bf.bits q = true := by
  rw [mayContain_eq hlen hc, Option.some.injEq, List.all_eq_true]

/-- A filter with fewer than `2 ^ 32` bits has no false negative, however often it has grown. -/
theorem no_false_negative (bits_per_key : ℕ) (keys : List Bytes)
    (hfits : (BloomFilter.new bits_per_key).sizeAfter keys.length * 8 < 2 ^ 32) :
    ∃ bf, keys.foldlM add (BloomFilter.new bits_per_key) = some bf ∧
      bf.bits.length = (BloomFilter.new bits_per_key).sizeAfter keys.length ∧
      ∀ key ∈ keys, bf.mayContain key = some true := by
  have hlen : (BloomFilter.new bits_per_key).bits.length = 2 ^ 10 := List.length_replicate ..
  obtain ⟨bits, hall, hbits, hset⟩ := addAll_spec hlen keys hfits
  obtain ⟨c, -, hsize⟩ := sizeAfter_pow hlen keys.length
  have hc : c ≤ 28 := by rwa [hsize, bits_lt_iff] at hfits
  refine ⟨_, hall, hbits, fun key hkey => (mayContain_iff (hbits.trans hsize) hc key).mpr ?_⟩
  intro q hq
  rw [extended_bits, hbits] at hq
  exact (hset q).mpr (Or.inr ⟨key, hkey, hq⟩)

theorem no_false_negative_grown :
    ∃ bf, [[99], [100]].foldlM add (BloomFilter.new 9000) = some bf ∧ bf.bits.length = 4096 ∧
      bf.mayContain [99] = some true ∧ bf.mayContain [100] = some true := by
  have hsize : (BloomFilter.new 9000).sizeAfter 2 = 4096 := by
    have hfirst : growSize 1024 1125 = 2048 := by simp [growSize]
    have hsecond : growSize 2048 2250 = 4096 := by simp [growSize]
    have hlen : (BloomFilter.new 9000).bits.length = 1024 := List.length_replicate ..
    rw [sizeAfter, sizeAfter, sizeAfter, hlen]
    exact (congrArg (growSize · 2250) hfirst).trans hsecond
  obtain ⟨bf, hall, hlen, hfound⟩ := no_false_negative 9000 [[99], [100]]
    (lt_of_eq_of_lt (congrArg (· * 8) hsize) (by norm_num))
  exact ⟨bf, hall, hlen.trans hsize, hfound _ (by simp), hfound _ (by simp)⟩

end BloomFilter

end MiniTsdb
