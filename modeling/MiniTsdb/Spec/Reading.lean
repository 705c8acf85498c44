import MiniTsdb.Spec.Faults

/-! Readers next to the engine: views that are captured, held over any steps of the other
threads, and released. -/

namespace MiniTsdb
open Lib

def ReadView.names (view : ReadView) : List Bytes :=
  (List.finRange kMaxLevel).flatMap fun l => (view.levels l).map fun ref => ref.reader.file_name

structure Reading where
  engine : Engine
  views : List ReadView

/-- The files whose readers a view holds. -/
def Reading.held (r : Reading) : List Bytes := r.views.flatMap ReadView.names

/-- The files that an action, where it deletes, finds in use. -/
def FaultAction.held : FaultAction → Option (List Bytes)
  | .engine (.skip _ held) => some held
  | .engine (.commit _ held) => some held
  | .engine (.cleanup held) => some held
  | .engine (.shutdown held) => some held
  | _ => none

inductive ReadingAction
  | engine (a : FaultAction)
  | capture
  | release (i : ℕ)

/-- `use_count` counts the views, and whoever else holds a reader. -/
def Reading.step (r : Reading) : ReadingAction → Option Reading
  | .engine a =>
    if a.isCrash then none
    else if a.held.all fun held => r.held.all held.contains then
      (r.engine.faultStep a).map fun engine => { r with engine := engine }
    else none
  | .capture =>
    if r.engine.flush.locks then none
    else some { r with views := r.engine.captureReadView :: r.views }
  | .release i => some { r with views := r.views.eraseIdx i }

end MiniTsdb
