import MiniTsdb.Lib.Checked
import MiniTsdb.Spec.Compaction

/-! `IsExpiredByRule` with signed overflow as undefined behaviour. `isExpiredByRule` wraps
there. -/

namespace MiniTsdb
open Lib

def TtlRule.threshold (rule : TtlRule) : Option Int64 :=
  match mulInt64 rule.ttl_seconds 1000000000 with
  | none => none
  | some age => subInt64 rule.latest_timestamp age

def checkedIsExpiredByRule (rule : TtlRule) (timestamp : Int64) : Option Bool :=
  if rule.ttl_seconds ≤ 0 ∨ rule.latest_timestamp = Int64.minValue then some false
  else match rule.threshold with
    | none => none
    | some threshold => some (timestamp < threshold)

end MiniTsdb
