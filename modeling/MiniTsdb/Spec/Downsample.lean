import MiniTsdb.Lib.Checked
import MiniTsdb.Spec.Utils

/-! `Downsample` (`tsdb_engine.cpp`). Its additions of `int64` values are undefined behaviour
where they overflow. Doubles are a parameter: the result depends on them through what the
standard library does with them. -/

namespace MiniTsdb
open Lib

inductive Agg
  | kAvg
  | kMax
  | kMin
  | kLast
  deriving DecidableEq, Repr

/-- `std::stod`, which throws where it has no result, the operations of the aggregators, and
`snprintf` with `%.6f` into 64 bytes. -/
structure Doubles (D : Type) where
  stod : Bytes → Option D
  zero : D
  add : D → D → D
  divSize : D → ℕ → D
  less : D → D → Bool
  print : D → Bytes

/-- How a call ends without a result: in an overflow, or in an exception of `stod`. -/
inductive DownsampleError
  | overflow
  | invalidNumber
  deriving DecidableEq, Repr

structure DownsampleCall where
  measurement : Bytes
  t_start : Int64
  t_end : Int64
  interval_ns : Int64
  agg : Agg
  deriving DecidableEq, Repr

section
variable {D : Type} (doubles : Doubles D)

def maxElement (values : List D) : D :=
  match values with
  | [] => doubles.zero
  | first :: rest => rest.foldl (fun largest v => if doubles.less largest v then v else largest) first

def minElement (values : List D) : D :=
  match values with
  | [] => doubles.zero
  | first :: rest => rest.foldl (fun smallest v => if doubles.less v smallest then v else smallest) first

/-- The value of the record that a bucket with these values adds. -/
def aggregate (agg : Agg) (values : List D) (last_value : Bytes) : Bytes :=
  match agg with
  | .kLast => last_value
  | .kAvg => doubles.print (doubles.divSize (values.foldl doubles.add doubles.zero) values.length)
  | .kMax => doubles.print (maxElement doubles values)
  | .kMin => doubles.print (minElement doubles values)

def collectLoop (bucket_end : Int64) (values : List D) (last_value : Bytes) :
    List Record → Except DownsampleError (List D × Bytes)
  | [] => .ok (values, last_value)
  | r :: raw =>
    if r.timestamp < bucket_end then
      match doubles.stod r.value with
      | none => .error .invalidNumber
      | some v => collectLoop bucket_end (values ++ [v]) r.value raw
    else .ok (values, last_value)

/-- The state of the bucket loop; `rest` is `raw` from `begin` on. -/
structure BucketLoop where
  bucket_start : Int64
  rest : List Record
  out : List Record
  deriving DecidableEq, Repr

def BucketLoop.turn (call : DownsampleCall) (s : BucketLoop) : Except DownsampleError BucketLoop :=
  match addInt64 s.bucket_start call.interval_ns with
  | none => .error .overflow
  | some bucket_end =>
    let rest := s.rest.dropWhile fun r => r.timestamp < s.bucket_start
    match collectLoop doubles bucket_end [] [] rest with
    | .error error => .error error
    | .ok (values, last_value) =>
      let out := if values.isEmpty then s.out
        else s.out ++ [⟨call.measurement, s.bucket_start, aggregate doubles call.agg values last_value, false⟩]
      match addInt64 s.bucket_start call.interval_ns with
      | none => .error .overflow
      | some next_start => .ok ⟨next_start, rest, out⟩

/-- The bucket loop; no result within so many turns is `none`. -/
def bucketLoop (call : DownsampleCall) : ℕ → BucketLoop → Option (Except DownsampleError (List Record))
  | 0, _ => none
  | turns + 1, s =>
    if s.bucket_start ≤ call.t_end then
      match s.turn doubles call with
      | .error error => some (.error error)
      | .ok s => bucketLoop call turns s
    else some (.ok s.out)

/-- `Downsample` where `RangeQuery` returns `raw`. -/
def downsample (call : DownsampleCall) (raw : List Record) (turns : ℕ) :
    Option (Except DownsampleError (List Record)) :=
  if call.interval_ns ≤ 0 ∨ call.t_end < call.t_start then some (.ok [])
  else if raw.isEmpty then some (.ok [])
  else bucketLoop doubles call turns ⟨call.t_start, raw, []⟩

end

end MiniTsdb
