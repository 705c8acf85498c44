import MiniTsdb.Lib.Bytes

/-! The bloom filter (`bloomfilter.h`, `bloomfilter.cpp`). `none` stands for undefined
behaviour: a remainder by a bit count of zero, or a read behind the data. -/

namespace MiniTsdb
open Lib

structure BloomFilter where
  bits : Bytes
  keys : List Bytes
  bits_per_key : ℕ
  num_probes : ℤ
  num_keys : ℕ
  deriving DecidableEq, Repr

/-- `ceil(log(2.0) * bits_per_key)`, kept between 1 and 30. -/
def numProbes (bits_per_key : ℕ) : ℤ :=
  let probes := (bits_per_key * 693147181 + 999999999) / 1000000000
  if probes < 1 then 1 else if probes > 30 then 30 else probes

def BloomFilter.new (bits_per_key : ℕ) : BloomFilter :=
  ⟨List.replicate 1024 0, [], bits_per_key, numProbes bits_per_key, 0⟩

def hash1Byte (h : BitVec 32) (c : Byte) : BitVec 32 :=
  (h ^^^ BitVec.ofNat 32 c.val) * 16777619#32

def hash1 (key : Bytes) : BitVec 32 := key.foldl hash1Byte 2166136261#32

def hash2Byte (h : BitVec 32) (c : Byte) : BitVec 32 :=
  h ^^^ (BitVec.ofNat 32 c.val + 0x9e3779b9#32 + (h <<< 6) + (h >>> 2))

def hash2 (key : Bytes) : BitVec 32 := key.foldl hash2Byte 0x12345678#32 ||| 1#32

/-- `static_cast<uint32_t>(bits_.size() * 8)`. -/
def bitCount (bits : Bytes) : ℕ := bits.length * 8 % 2 ^ 32

def probePositions (key : Bytes) (num_probes : ℤ) (bit_count : ℕ) : List ℕ :=
  (List.range num_probes.toNat).map fun i =>
    (hash1 key + BitVec.ofNat 32 i * hash2 key).toNat % bit_count

def setBit (bits : Bytes) (pos : ℕ) : Bytes :=
  bits.modify (pos / 8) fun b => Fin.ofNat 256 (b.val ||| 1 <<< (pos % 8))

def testBit (bits : Bytes) (pos : ℕ) : Bool :=
  match bits[pos / 8]? with
  | some b => b.val.testBit (pos % 8)
  | none => false

def addHashOnly (num_probes : ℤ) (bits key : Bytes) : Option Bytes :=
  if bitCount bits = 0 ∧ 0 < num_probes then none
  else some ((probePositions key num_probes (bitCount bits)).foldl setBit bits)

def growSize (size needed : ℕ) : ℕ :=
  if _h : 0 < size ∧ size < needed then growSize (size * 2) needed else size
termination_by needed - size

def BloomFilter.neededBytes (bf : BloomFilter) (key_count : ℕ) : ℕ :=
  (max (1024 * 8) (key_count * bf.bits_per_key) + 7) / 8

def BloomFilter.ensureCapacity (bf : BloomFilter) (key_count : ℕ) : Option BloomFilter :=
  let needed_bytes := bf.neededBytes key_count
  if needed_bytes ≤ bf.bits.length then some bf
  else
    let new_size := growSize (if bf.bits.isEmpty then 1024 else bf.bits.length) needed_bytes
    match bf.keys.foldlM (addHashOnly bf.num_probes) (List.replicate new_size 0) with
    | none => none
    | some bits => some { bf with bits := bits }

def BloomFilter.add (bf : BloomFilter) (key : Bytes) : Option BloomFilter :=
  let bf := { bf with keys := bf.keys ++ [key], num_keys := bf.num_keys + 1 }
  match bf.ensureCapacity bf.num_keys with
  | none => none
  | some bf =>
    match addHashOnly bf.num_probes bf.bits key with
    | none => none
    | some bits => some { bf with bits := bits }

def BloomFilter.mayContain (bf : BloomFilter) (key : Bytes) : Option Bool :=
  if bf.bits.isEmpty then some false
  else if bitCount bf.bits = 0 ∧ 0 < bf.num_probes then none
  else some ((probePositions key bf.num_probes (bitCount bf.bits)).all (testBit bf.bits))

def encodeInt32 (i : ℤ) : Bytes := leBytes 4 (i % 2 ^ 32).toNat

def decodeInt32 (s : Bytes) (pos : ℕ) : ℤ :=
  let v := leValue (slice s pos 4)
  if v < 2 ^ 31 then v else v - 2 ^ 32

def BloomFilter.encode (bf : BloomFilter) : Bytes :=
  encodeInt32 bf.num_probes ++ (leBytes 4 bf.bits.length ++ (leBytes 4 bf.num_keys ++ bf.bits))

def BloomFilter.decode (data : Bytes) : Option BloomFilter :=
  if data.length < 8 then some (.new 10)
  else
    let blen := leValue (slice data 4 4)
    -- `12 + blen` is a 32-bit sum
    let header_size := if data.length ≥ (12 + blen) % 2 ^ 32 then 12 else 8
    if header_size = 12 ∧ data.length < 12 then none
    else some
      { BloomFilter.new 10 with
        num_probes := decodeInt32 data 0
        num_keys := if header_size = 12 then leValue (slice data 8 4) else 0
        bits := if data.length ≥ header_size + blen then slice data header_size blen
          else List.replicate blen 0 }

end MiniTsdb
