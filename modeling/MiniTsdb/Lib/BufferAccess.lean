import MiniTsdb.Lib.Bytes
import MiniTsdb.Lib.SizeT

/-! Parsing with every access checked: a read outside of the buffer has no result, and a loop
that its turns do not end has none. -/

namespace Lib

/-- Why a parser has no result. -/
inductive ParseFault
  | outside
  | unfinished
  deriving DecidableEq, Repr

/-- `s[pos]`. -/
def byteAt (s : Bytes) (pos : ℕ) : Except ParseFault Byte :=
  match s[pos]? with
  | none => .error .outside
  | some b => .ok b

def bytesAt (s : Bytes) (pos n : ℕ) : Except ParseFault Bytes :=
  if pos + n ≤ s.length then .ok (slice s pos n) else .error .outside

def fixedAt (n : ℕ) (s : Bytes) (pos : ℕ) : Except ParseFault ℕ :=
  match bytesAt s pos n with
  | .error f => .error f
  | .ok bytes => .ok (leValue bytes)

theorem byteAt_of_getElem? {s : Bytes} {pos : ℕ} {b : Byte} (h : s[pos]? = some b) :
    byteAt s pos = .ok b := by
  rw [byteAt, h]

theorem bytesAt_of_le {s : Bytes} {pos n : ℕ} (h : pos + n ≤ s.length) :
    bytesAt s pos n = .ok (slice s pos n) := if_pos h

theorem fixedAt_of_le {n : ℕ} {s : Bytes} {pos : ℕ} (h : pos + n ≤ s.length) :
    fixedAt n s pos = .ok (leValue (slice s pos n)) := by
  rw [fixedAt, bytesAt_of_le h]

end Lib
