import MiniTsdb.Lib.Bytes

/-! The varint codec of `compression.cpp`: seven bits a byte, low bits first. -/

namespace MiniTsdb
open Lib

def encodeVarint (value : ℕ) : Bytes :=
  if value ≥ 128 then Fin.ofNat 256 (value % 128 + 128) :: encodeVarint (value / 128)
  else [Fin.ofNat 256 value]
termination_by value

def kBadVarint : ℕ := 0xFFFFFFFF

/-- The loop of `DecodeVarint`: `turns` bytes may still be read, the next seven bits go to
`shift`. The shifted bits and `result` do not overlap, so `|=` is an addition in 32 bits. -/
def decodeVarintLoop (s : Bytes) : ℕ → ℕ → ℕ → ℕ → ℕ × ℕ
  | 0, pos, _, _ => (kBadVarint, pos)
  | turns + 1, pos, shift, result =>
    match s[pos]? with
    | none => (kBadVarint, pos)
    | some byte =>
      let result := (result + byte.val % 128 * 2 ^ shift) % 2 ^ 32
      if byte.val < 128 then (result, pos + 1)
      else decodeVarintLoop s turns (pos + 1) (shift + 7) result

def decodeVarint (s : Bytes) (pos : ℕ) : ℕ × ℕ := decodeVarintLoop s 5 pos 0 0

end MiniTsdb
