import MiniTsdb.Spec.MemTable
import MiniTsdb.Spec.Store

/-! `TsdbEngine` as a machine. An action is what one thread does between two points where
it takes, releases or waits for `mu_`, or outside any lock; the commit of a flush is two
actions, with the lock kept between them. Every file operation succeeds. -/

namespace MiniTsdb
open Lib

/-- A call of `Put`, `Delete` or `Write` that waits in `MakeRoomForWriteUnlocked`: before
it logged its operations, or after some of them went to the memtable. -/
structure Call where
  id : ℕ
  logged : Bool
  ops : List Operation
  deriving DecidableEq, Repr

/-- The flush thread: idle, with a memtable taken, with its file finished, or with the file
in the version and the lock still held. -/
inductive FlushThread
  | idle
  | taken (to_flush : MemTable)
  | built (to_flush : MemTable)
  | logged (to_flush : MemTable)
  deriving DecidableEq

/-- How far `Close` has come: not called, in its `Flush`, past it, waiting for the threads
with `running_` off, done. -/
inductive CloseStage
  | opened
  | flushing
  | flushed
  | joining
  | done
  deriving DecidableEq, Repr

/-- The last fields are history, which no operation reads: the number of the next call, every
operation that went to the memtable, newest first, with its call, the memtables that became
`imm_`, those the flush thread took, and those whose file was committed, with its number. -/
structure Engine where
  memtable_limit : Int64
  wal : WAL
  mem : MemTable
  imm : Option MemTable
  flush : FlushThread
  ttl_map : TtlMap
  store : Store
  closing : CloseStage
  flush_exited : Bool
  calls : List Call
  next_call : ℕ
  applied : List (ℕ × Operation)
  rotated : List MemTable
  taken : List MemTable
  flushes : List (MemTable × ℕ)

def CloseStage.running : CloseStage → Bool
  | joining => false
  | done => false
  | _ => true

def FlushThread.inProgress : FlushThread → Bool
  | idle => false
  | _ => true

/-- Whether `mu_` is held between two actions. -/
def FlushThread.locks : FlushThread → Bool
  | logged _ => true
  | _ => false

structure ReadView where
  mem : MemTable
  imm : Option MemTable
  levels : Fin kMaxLevel → List ReaderRef
  ttl_map : TtlMap

def Engine.captureReadView (e : Engine) : ReadView :=
  ⟨e.mem, e.imm, e.store.captureLevels, e.ttl_map⟩

def InternalEntry.read (entry : InternalEntry) : Option Bytes :=
  if entry.isDeletion then none else some entry.value

def ReadView.get (view : ReadView) (key : TsKey) : Option Bytes :=
  if isExpiredInMap view.ttl_map key.measurement key.timestamp then none
  else match view.mem.getEntry key with
    | some entry => entry.read
    | none => match view.imm.bind fun imm => imm.getEntry key with
      | some entry => entry.read
      | none => match getFromSSTables view.levels key with
        | some entry => entry.read
        | none => none

def Engine.get (e : Engine) (key : TsKey) : Option Bytes := e.captureReadView.get key

def updateLatestTimestamp (ttl_map : TtlMap) (measurement : Bytes) (timestamp : Int64) : TtlMap :=
  let ttl := (ttl_map measurement).getD .default
  Function.update ttl_map measurement
    (some (if ttl.latest_timestamp < timestamp then { ttl with latest_timestamp := timestamp } else ttl))

def setTTL (ttl_map : TtlMap) (measurement : Bytes) (ttl_seconds : Int64) : TtlMap :=
  let ttl := (ttl_map measurement).getD .default
  Function.update ttl_map measurement (some { ttl with ttl_seconds := ttl_seconds })

def Engine.shouldStopWrites (e : Engine) : Bool :=
  e.store.compaction_in_progress && (e.store.vmgr.current.level_files 0).length ≥ kL0StopTrigger

/-- `imm_ = std::move(mem_)`, and a new `mem_`. -/
def Engine.rotate (e : Engine) : Engine :=
  { e with mem := .new, imm := some e.mem, rotated := e.rotated ++ [e.mem] }

/-- One turn of the loop of `MakeRoomForWriteUnlocked`; `none` where it waits. -/
def Engine.makeRoomForWrite (e : Engine) : Option Engine :=
  if e.shouldStopWrites then none
  else if e.mem.mem_usage < e.memtable_limit.toUInt64.toNat then some e
  else if e.imm.isNone && !e.flush.inProgress then some e.rotate
  else if e.closing.running then none
  else some e

/-- The same loop behind a wait, which ends it once `running_` is off. -/
def Engine.wakeUp (e : Engine) : Option Engine :=
  if e.closing.running then e.makeRoomForWrite else some e

def Engine.applyOp (e : Engine) (id : ℕ) (op : Operation) : Engine :=
  { e with
    mem := e.mem.apply op
    ttl_map := updateLatestTimestamp e.ttl_map op.measurement op.timestamp
    applied := (id, op) :: e.applied }

/-- Each operation, and room after it; the call returns at the end. -/
def Engine.applyOps (e : Engine) (id : ℕ) : List Operation → Engine
  | [] => e
  | op :: ops =>
    let e := e.applyOp id op
    match e.makeRoomForWrite with
    | none => { e with calls := ⟨id, true, ops⟩ :: e.calls }
    | some e => e.applyOps id ops

/-- What follows the first `MakeRoomForWriteUnlocked`. -/
def Engine.logAndApplyOps (e : Engine) (id : ℕ) (ops : List Operation) : Engine :=
  { e with wal := e.wal.appendAll ops }.applyOps id ops

def Engine.enter (e : Engine) (ops : List Operation) : Engine :=
  let id := e.next_call
  let e := { e with next_call := id + 1 }
  match e.makeRoomForWrite with
  | none => { e with calls := ⟨id, false, ops⟩ :: e.calls }
  | some e => e.logAndApplyOps id ops

def Engine.put (e : Engine) (measurement : Bytes) (timestamp : Int64) (value : Bytes) : Engine :=
  e.enter [.put measurement timestamp value]

def Engine.delete (e : Engine) (measurement : Bytes) (timestamp : Int64) : Engine :=
  e.enter [.delete measurement timestamp]

def Engine.write (e : Engine) (batch : List Operation) : Engine :=
  if batch.isEmpty then e else e.enter batch

def Engine.resume (e : Engine) (id : ℕ) : Option Engine :=
  match e.calls.find? fun c => c.id == id with
  | none => none
  | some c =>
    e.wakeUp.map fun e =>
      let e := { e with calls := e.calls.filter fun c => c.id != id }
      if c.logged then e.applyOps id c.ops else e.logAndApplyOps id c.ops

/-- `Flush` where it does not wait. -/
def Engine.flushMem (e : Engine) : Option Engine :=
  if !e.mem.isEmpty && (e.imm.isNone && !e.flush.inProgress) then some e.rotate else none

def Engine.takeImm (e : Engine) : Option Engine :=
  match e.imm, e.flush, e.flush_exited with
  | some to_flush, .idle, false =>
    some { e with imm := none, flush := .taken to_flush, taken := e.taken ++ [to_flush] }
  | _, _, _ => none

def Engine.buildSST (e : Engine) : Option Engine :=
  match e.flush with
  | .taken to_flush => (e.store.buildFlush to_flush.iterateEntries).map fun store =>
      { e with store := store, flush := .built to_flush }
  | _ => none

def Engine.logFlush (e : Engine) : Option Engine :=
  match e.flush with
  | .built to_flush => e.store.commitFlush.map fun store =>
      { e with
        store := store
        flush := .logged to_flush
        flushes := e.flushes ++ e.store.built.toList.map fun b => (to_flush, b.1) }
  | _ => none

def Engine.finishFlush (e : Engine) : Option Engine :=
  match e.flush with
  | .logged _ => some { e with wal := e.wal.rotate, flush := .idle }
  | _ => none

def Engine.exitFlush (e : Engine) : Option Engine :=
  if !e.closing.running && (e.imm.isNone && !e.flush.inProgress) then
    some { e with flush_exited := true }
  else none

/-- The first call of `Close` goes on to its `Flush`, any other returns. -/
def Engine.close (e : Engine) : Engine :=
  if e.closing = .opened then { e with closing := .flushing } else e

def Engine.closeFlushed (e : Engine) : Option Engine :=
  if e.closing = .flushing ∧ e.mem.isEmpty ∧ e.imm.isNone ∧ !e.flush.inProgress then
    some { e with closing := .flushed }
  else none

def Engine.stop (e : Engine) : Option Engine :=
  if e.closing = .flushed then some { e with closing := .joining } else none

def Engine.shutdown (e : Engine) (held : List Bytes) : Option Engine :=
  if e.closing = .joining ∧ e.flush_exited then
    (e.store.step (.shutdown held)).map fun store => { e with store := store, closing := .done }
  else none

def sstScanFirst : TsKey := ⟨[], Int64.minValue⟩
def sstScanLast : TsKey := ⟨[255], Int64.maxValue⟩

def Store.makeSSTReader (s : Store) (fname : Bytes) : List Record :=
  match openTable s.vmgr.db_dir s.dir fname with
  | none => []
  | some t => t.rangeScanEntries sstScanFirst sstScanLast

def Engine.storeStep (e : Engine) (a : StoreAction) : Option Engine :=
  (e.store.step a).map fun store => { e with store := store }

def replayHandler (s : MemTable × TtlMap) (entry : WalEntry) : MemTable × TtlMap :=
  (match entry.type with
    | .kDeletion => s.1.delete entry.measurement entry.timestamp
    | .kValue => s.1.put entry.measurement entry.timestamp entry.value,
    updateLatestTimestamp s.2 entry.measurement entry.timestamp)

/-- The constructor from `LoadExistingSSTables` on. -/
def Engine.open (st : Startup) (wal : WAL) (memtable_limit : Int64) (target_file_size : ℕ) : Engine :=
  let (entries, wal) := wal.replayEntries
  let (mem, ttl_map) := entries.foldl replayHandler (.new, fun _ => none)
  { memtable_limit := memtable_limit
    wal := wal
    mem := mem
    imm := none
    flush := .idle
    ttl_map := ttl_map
    store := st.store target_file_size
    closing := .opened
    flush_exited := false
    calls := []
    next_call := 0
    applied := []
    rotated := []
    taken := []
    flushes := [] }

def Engine.start (db_dir : Bytes) (memtable_limit : Int64) (target_file_size : ℕ) : Engine :=
  .open (startup db_dir (fun _ => none) []) ⟨[]⟩ memtable_limit target_file_size

def Engine.inside (e : Engine) (id : ℕ) : Bool := e.calls.any fun c => c.id == id

/-- The process dies and the directory is opened again. In the history only the calls that
returned and the flushes that were committed stay. -/
def Engine.crash (e : Engine) : Engine :=
  { Engine.open (startup e.store.vmgr.db_dir e.store.files e.store.dir) e.wal e.memtable_limit
      e.store.target_file_size with
    next_call := e.next_call
    applied := e.applied.filter fun a => !e.inside a.1
    rotated := e.flushes.map Prod.fst
    taken := e.flushes.map Prod.fst
    flushes := e.flushes }

inductive EngineAction
  | put (measurement : Bytes) (timestamp : Int64) (value : Bytes)
  | delete (measurement : Bytes) (timestamp : Int64)
  | write (batch : List Operation)
  | resume (id : ℕ)
  | flush
  | takeImm
  | buildSST
  | logFlush
  | finishFlush
  | pick (force : Bool)
  | skip (force : Bool) (held : List Bytes)
  | readInputs
  | writeOutput
  | commit (cleanup_obsolete : Bool) (held : List Bytes)
  | cleanup (held : List Bytes)
  | setTTL (measurement : Bytes) (ttl_seconds : Int64)
  | exitFlush
  | close
  | closeFlushed
  | stop
  | shutdown (held : List Bytes)
  | crash

/-- The actions that do not take `mu_`. -/
def EngineAction.unlocked : EngineAction → Bool
  | finishFlush | readInputs | writeOutput | close | stop | crash => true
  | _ => false

def EngineAction.isCrash : EngineAction → Bool
  | crash => true
  | _ => false

/-- Once `Close` is done, the process can only end. -/
def Engine.step (e : Engine) (a : EngineAction) : Option Engine :=
  if e.flush.locks && !a.unlocked then none
  else if e.closing = .done && !a.isCrash then none
  else match a with
    | .put measurement timestamp value => some (e.put measurement timestamp value)
    | .delete measurement timestamp => some (e.delete measurement timestamp)
    | .write batch => some (e.write batch)
    | .resume id => e.resume id
    | .flush => e.flushMem
    | .takeImm => e.takeImm
    | .buildSST => e.buildSST
    | .logFlush => e.logFlush
    | .finishFlush => e.finishFlush
    | .pick force => e.storeStep (.pick force e.ttl_map)
    | .skip force held => e.storeStep (.skip force e.ttl_map held)
    | .readInputs => e.storeStep (.read e.store.makeSSTReader)
    | .writeOutput => e.storeStep .output
    | .commit cleanup_obsolete held => e.storeStep (.commit cleanup_obsolete held)
    | .cleanup held => e.storeStep (.cleanup held)
    | .setTTL measurement ttl_seconds =>
      some { e with ttl_map := setTTL e.ttl_map measurement ttl_seconds }
    | .exitFlush => e.exitFlush
    | .close => some e.close
    | .closeFlushed => e.closeFlushed
    | .stop => e.stop
    | .shutdown held => e.shutdown held
    | .crash => some e.crash

end MiniTsdb
