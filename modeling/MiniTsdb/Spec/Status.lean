import MiniTsdb.Lib.Bytes

/-! `Status` (`status.h`): a code and a message. -/

namespace MiniTsdb
open Lib

inductive Status
  | ok
  | notFound (msg : String)
  | corruption (msg : String)
  | ioError (msg : String)
  | invalidArgument (msg : String)
  deriving DecidableEq, Repr

def Status.isOk : Status → Bool
  | ok => true
  | _ => false

end MiniTsdb
