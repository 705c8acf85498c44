import MiniTsdb.Lib.Bytes

/-! `Crc32` (`crc32.cpp`): the table is regenerated on each call, one entry per
byte value, and the register is complemented on entry and on exit. -/

namespace MiniTsdb
open Lib

def crcBit (c : BitVec 32) : BitVec 32 :=
  if c &&& 1#32 ≠ 0#32 then 0xEDB88320#32 ^^^ (c >>> 1) else c >>> 1

def crcTable (i : BitVec 32) : BitVec 32 := crcBit^[8] i

def crcByte (r : BitVec 32) (b : Byte) : BitVec 32 :=
  crcTable ((r ^^^ BitVec.ofNat 32 b.val) &&& 0xFF#32) ^^^ (r >>> 8)

def crc32 (data : Bytes) (crc : BitVec 32) : BitVec 32 :=
  data.foldl crcByte (crc ^^^ 0xFFFFFFFF#32) ^^^ 0xFFFFFFFF#32

theorem crc32_toNat_lt (data : Bytes) (crc : BitVec 32) : (crc32 data crc).toNat < 256 ^ 4 :=
  (crc32 data crc).isLt

end MiniTsdb
