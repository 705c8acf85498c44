import MiniTsdb.Spec.RangeQuery

/-! `Get` and `RangeQuery` in flight. A read takes its view under `mu_` and looks into the
memtable of the view later, under the lock of the memtable alone. Writers fill that memtable
until it is rotated, so a look may also fall between two operations of a batch. All else that
a read looks at does not change any more. -/

namespace MiniTsdb
open Lib

/-- The memtables an engine has had, in order; the last one is `mem_`. -/
def Engine.memTables (e : Engine) : List MemTable := e.rotated ++ [e.mem]

/-- What went to the memtables, the oldest first. -/
def Engine.history (e : Engine) : List Operation := (e.applied.map Prod.snd).reverse

def Engine.applyPasses (e : Engine) (id : ℕ) : List Operation → List Engine
  | [] => []
  | op :: ops =>
    let e := e.applyOp id op
    e :: match e.makeRoomForWrite with
      | none => []
      | some e => e.applyPasses id ops

def Engine.enterPasses (e : Engine) (ops : List Operation) : List Engine :=
  let id := e.next_call
  match Engine.makeRoomForWrite { e with next_call := id + 1 } with
  | none => []
  | some e => Engine.applyPasses { e with wal := e.wal.appendAll ops } id ops

def Engine.resumePasses (e : Engine) (id : ℕ) : List Engine :=
  match e.calls.find? fun c => c.id == id with
  | none => []
  | some c =>
    match e.wakeUp with
    | none => []
    | some e =>
      let e := { e with calls := e.calls.filter fun c => c.id != id }
      if c.logged then e.applyPasses id c.ops
      else Engine.applyPasses { e with wal := e.wal.appendAll c.ops } id c.ops

/-- The states that an action passes behind each operation it applies. -/
def Engine.passes (e : Engine) : EngineAction → List Engine
  | .put measurement timestamp value => e.enterPasses [.put measurement timestamp value]
  | .delete measurement timestamp => e.enterPasses [.delete measurement timestamp]
  | .write batch => if batch.isEmpty then [] else e.enterPasses batch
  | .resume id => e.resumePasses id
  | _ => []

/-- A read with its view. `object` says which memtable of the engine is the one of the view,
`seen` what it held when the read looked into it. `begun` is history: how many operations had
been applied when the view was taken. -/
structure OpenRead where
  view : ReadView
  object : ℕ
  begun : ℕ
  seen : Option MemTable

def OpenRead.look (r : OpenRead) (e : Engine) : OpenRead :=
  match r.seen with
  | some _ => r
  | none => { r with seen := e.memTables[r.object]? }

def OpenRead.shown (r : OpenRead) : Option ReadView :=
  r.seen.map fun mem => { r.view with mem := mem }

def OpenRead.get (r : OpenRead) (key : TsKey) : Option (Option Bytes) :=
  r.shown.map fun view => view.get key

structure InFlight where
  engine : Engine
  reads : List OpenRead

/-- A step of the engine, with the reads that look into their memtable while it passes a
state; a read that takes its view, looks, or returns. -/
inductive InFlightAction
  | engine (a : EngineAction) (during : List (ℕ × ℕ))
  | capture
  | look (i : ℕ)
  | finish (i : ℕ)

def lookDuring (passes : List Engine) (reads : List OpenRead) (d : ℕ × ℕ) : List OpenRead :=
  match passes[d.2]? with
  | none => reads
  | some e => reads.modify d.1 fun r => r.look e

/-- The reads end with the process. -/
def InFlight.step (s : InFlight) : InFlightAction → Option InFlight
  | .engine a during =>
    if a.isCrash then none
    else (s.engine.step a).map fun engine =>
      ⟨engine, during.foldl (lookDuring (s.engine.passes a)) s.reads⟩
  | .capture =>
    if s.engine.flush.locks then none
    else some { s with reads := s.reads ++
      [⟨s.engine.captureReadView, s.engine.rotated.length, s.engine.history.length, none⟩] }
  | .look i => some { s with reads := s.reads.modify i fun r => r.look s.engine }
  | .finish i => some { s with reads := s.reads.eraseIdx i }

end MiniTsdb
