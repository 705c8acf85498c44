import MiniTsdb.Spec.Engine

/-! Who starts compactions: `compaction_pending_`, the compaction thread and its condition
variable, `MaybeScheduleCompaction`, and the calls of `Compact` (`tsdb_engine.cpp`). -/

namespace MiniTsdb
open Lib

def Store.l0NonCompactingFileCount (s : Store) : ℕ :=
  ((s.vmgr.current.level_files 0).filter fun f => !s.compacting_files.contains f.file_number).length

def Store.shouldScheduleCompaction (s : Store) : Bool :=
  if s.compaction_in_progress then false
  else if s.l0NonCompactingFileCount ≥ kL0CompactionTrigger then true
  else ([1, 2, 3, 4, 5] : List (Fin kMaxLevel)).any fun level =>
    let total_size := ((s.vmgr.current.level_files level).map FileMeta.file_size).sum
    total_size > kLevelSizeBase * 2 ^ level.val

/-- The compaction thread: on its way to the predicate of its wait, behind a predicate that
was false with `mu_` still held, asleep, in `RunCompactionWork`, at its end. -/
inductive Compactor
  | awake
  | checked
  | asleep
  | working
  | exited
  deriving DecidableEq, Repr

def Compactor.notify : Compactor → Compactor
  | asleep => awake
  | c => c

/-- `scheduling` says that the flush thread is between the end of a flush and its
`MaybeScheduleCompaction`. The last fields are history: no flush and no compaction has ended
yet, and `Close` has notified the compaction thread behind its predicate. -/
structure Scheduled where
  engine : Engine
  compaction_pending : Bool
  compactor : Compactor
  scheduling : Bool
  fresh : Bool
  missed : Bool

namespace Scheduled

def start (e : Engine) : Scheduled := ⟨e, false, .awake, false, true, false⟩

/-- Whether `mu_` is held between two actions. -/
def locked (s : Scheduled) : Bool := s.engine.flush.locks || s.compactor == .checked

def running (s : Scheduled) : Bool := s.engine.closing.running

def schedule (s : Scheduled) : Scheduled :=
  { s with compaction_pending := true, compactor := s.compactor.notify }

def maybeScheduleCompaction (s : Scheduled) : Scheduled :=
  if s.engine.store.shouldScheduleCompaction || (s.engine.store.compaction_in_progress &&
      s.engine.store.l0NonCompactingFileCount ≥ kL0CompactionTrigger) then s.schedule
  else s

/-- The end of `RunCompactionWork`, in whichever thread. -/
def finishWork (s : Scheduled) : Scheduled :=
  let s := { s with
    compactor := if s.compactor = .working then .awake else s.compactor
    fresh := false }
  if s.running && (s.compaction_pending || s.engine.store.shouldScheduleCompaction) then s.schedule
  else s

/-- One turn of `CompactionThread`, up to its wait or its work. -/
def check (s : Scheduled) : Option Scheduled :=
  if s.compactor = .awake ∧ s.locked = false then
    if !s.running then some { s with compactor := .exited }
    else if !s.compaction_pending then some { s with compactor := .checked }
    else match s.engine.step (.pick false) with
      | none => some { s with compaction_pending := false }
      | some e => some { s with engine := e, compaction_pending := false, compactor := .working }
  else none

def compact (s : Scheduled) (force : Bool) (held : List Bytes) : Option Scheduled :=
  if s.locked || (s.engine.store.compaction_in_progress && s.running) then none
  else if s.engine.store.compaction_in_progress then some s
  else match s.engine.step (.pick force) with
    | none => (s.engine.step (.skip force held)).map fun e => { s with engine := e }
    | some e => some { s with engine := e, compaction_pending := false }

end Scheduled

/-- The actions of the flush thread that a pending `MaybeScheduleCompaction` holds up. -/
def EngineAction.flushThread : EngineAction → Bool
  | takeImm | exitFlush => true
  | _ => false

/-- The picks, which are up to `check` and `compact` here, and the crash. -/
def EngineAction.scheduled : EngineAction → Bool
  | pick _ | skip _ _ | crash => true
  | _ => false

/-- Whether an action has to wait: for `mu_`, for the flush thread itself, or for the end of
the compaction thread, which cleans up behind its own work. -/
def Scheduled.blocks (s : Scheduled) : EngineAction → Bool
  | .commit cleanup_obsolete _ => s.locked || (s.compactor == .working && !cleanup_obsolete)
  | .shutdown _ => s.compactor != .exited
  | a => (s.compactor == .checked && !a.unlocked) || (s.scheduling && a.flushThread)

/-- What an action of the engine means to the threads. `stop` notifies without `mu_`. -/
def Scheduled.after (s : Scheduled) (e : Engine) : EngineAction → Scheduled
  | .finishFlush => { s with engine := e, scheduling := true, fresh := false }
  | .stop => { s with
      engine := e
      compactor := s.compactor.notify
      missed := s.missed || s.compactor == .checked }
  | .commit _ _ => Scheduled.finishWork { s with engine := e }
  | _ => { s with engine := e }

inductive ScheduledAction
  | engine (a : EngineAction)
  | maybeSchedule
  | check
  | sleep
  | wake
  | compact (force : Bool) (held : List Bytes)

def Scheduled.step (s : Scheduled) : ScheduledAction → Option Scheduled
  | .engine a =>
    if a.scheduled || s.blocks a then none
    else (s.engine.step a).map fun e => s.after e a
  | .maybeSchedule =>
    if s.scheduling && !s.locked then some { s.maybeScheduleCompaction with scheduling := false }
    else none
  | .check => s.check
  | .sleep => if s.compactor = .checked then some { s with compactor := .asleep } else none
  | .wake => if s.compactor = .asleep then some { s with compactor := .awake } else none
  | .compact force held => s.compact force held

end MiniTsdb
