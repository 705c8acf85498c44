import MiniTsdb.Proofs.CleanClose
import MiniTsdb.Proofs.Rotation

/-! The memtables stay small: while the engine runs, a call waits for room before it fills
`mem_` any further, and only one memtable is on its way to disk. -/

namespace MiniTsdb
open Lib

def Operation.usage : Operation → ℕ
  | .put measurement _ value => measurement.length + value.length + 8 + 64
  | .delete measurement _ => measurement.length + 8 + 64

/-- The bytes of all memtables: `mem_`, `imm_` and the one of the flush thread. -/
def Engine.memory (e : Engine) : ℕ :=
  e.mem.mem_usage + ((e.imm.map MemTable.mem_usage).getD 0 + (e.flush.memtable.map MemTable.mem_usage).getD 0)

def Engine.limitBytes (e : Engine) : ℕ := e.memtable_limit.toUInt64.toNat

/-- No memtable is above the limit by more than one operation, unless the engine has been
opened with such a memtable. -/
structure Bounded (limit size cap : ℕ) (e : Engine) : Prop where
  limit : e.limitBytes = limit
  mem : e.mem.mem_usage ≤ cap
  held : ∀ m, e.imm = some m ∨ e.flush.memtable = some m → m.mem_usage ≤ cap
  calls : ∀ c ∈ e.calls, ∀ op ∈ c.ops, op.usage ≤ size

variable {limit size cap : ℕ} {e e' : Engine}

theorem apply_usage (m : MemTable) (op : Operation) : (m.apply op).mem_usage = m.mem_usage + op.usage := by
  cases op <;> rfl

theorem Bounded.rotate (h : Bounded limit size cap e) (hidle : e.flush = .idle) :
    Bounded limit size cap e.rotate := by
  refine ⟨h.limit, Nat.zero_le _, fun m hm => ?_, h.calls⟩
  rcases hm with himm | hflush
  · rw [← Option.some.inj himm]
    exact h.mem
  · change e.flush.memtable = some m at hflush
    rw [hidle] at hflush
    contradiction

theorem Bounded.room (h : Bounded limit size cap e) (hrunning : e.closing.running = true)
    (hr : e.makeRoomForWrite = some e') :
    Bounded limit size cap e' ∧ e'.closing = e.closing ∧ e'.calls = e.calls ∧ e'.mem.mem_usage ≤ limit := by
  unfold Engine.makeRoomForWrite at hr
  split_ifs at hr with hstop husage hfree
  · obtain rfl := Option.some.inj hr
    exact ⟨h, rfl, rfl, h.limit ▸ husage.le⟩
  · obtain rfl := Option.some.inj hr
    have hidle := inProgress_eq_false.mp (by simpa using (Bool.and_eq_true_iff.mp hfree).2)
    exact ⟨h.rotate hidle, rfl, rfl, Nat.zero_le _⟩

theorem Bounded.applyOps (h : Bounded limit size cap e) (hcap : limit + size ≤ cap)
    (hrunning : e.closing.running = true) (hroom : e.mem.mem_usage ≤ limit) (id : ℕ) {ops : List Operation}
    (hops : ∀ op ∈ ops, op.usage ≤ size) : Bounded limit size cap (e.applyOps id ops) := by
  induction ops generalizing e with
  | nil => exact h
  | cons op ops ih =>
    have hsmall := hops op List.mem_cons_self
    have hrest : ∀ op ∈ ops, op.usage ≤ size := fun op hop => hops op (List.mem_cons_of_mem _ hop)
    have happlied : Bounded limit size cap (e.applyOp id op) := by
      refine ⟨h.limit, ?_, h.held, h.calls⟩
      show (e.mem.apply op).mem_usage ≤ cap
      rw [apply_usage]
      omega
    rw [Engine.applyOps]
    cases hr : (e.applyOp id op).makeRoomForWrite with
    | none =>
      refine ⟨happlied.limit, happlied.mem, happlied.held, fun c hc => ?_⟩
      rcases List.mem_cons.mp hc with rfl | hc
      · exact hrest
      · exact h.calls c hc
    | some e₁ =>
      obtain ⟨hnext, hclosing, -, hless⟩ := happlied.room hrunning hr
      exact ih hnext (hclosing ▸ hrunning) hless hrest

theorem Bounded.enter (h : Bounded limit size cap e) (hcap : limit + size ≤ cap)
    (hrunning : e.closing.running = true) {ops : List Operation} (hops : ∀ op ∈ ops, op.usage ≤ size) :
    Bounded limit size cap (e.enter ops) := by
  have hnumber : Bounded limit size cap { e with next_call := e.next_call + 1 } :=
    ⟨h.limit, h.mem, h.held, h.calls⟩
  rw [Engine.enter]
  dsimp only
  cases hr : Engine.makeRoomForWrite { e with next_call := e.next_call + 1 } with
  | none =>
    refine ⟨h.limit, h.mem, h.held, fun c hc => ?_⟩
    rcases List.mem_cons.mp hc with rfl | hc
    · exact hops
    · exact h.calls c hc
  | some e₁ =>
    obtain ⟨hnext, hclosing, -, hless⟩ := hnumber.room hrunning hr
    have hlogged : Bounded limit size cap { e₁ with wal := e₁.wal.appendAll ops } :=
      ⟨hnext.limit, hnext.mem, hnext.held, hnext.calls⟩
    exact hlogged.applyOps hcap (hclosing ▸ hrunning) hless e.next_call hops

theorem Bounded.resume (h : Bounded limit size cap e) (hcap : limit + size ≤ cap)
    (hrunning : e.closing.running = true) {id : ℕ} (hr : e.resume id = some e') :
    Bounded limit size cap e' := by
  unfold Engine.resume at hr
  split at hr
  · contradiction
  · rename_i c hc
    obtain ⟨e₁, hwake, rfl⟩ := Option.map_eq_some_iff.mp hr
    rw [Engine.wakeUp, if_pos hrunning] at hwake
    obtain ⟨hnext, hclosing, hcalls, hless⟩ := h.room hrunning hwake
    have hops := h.calls c (List.mem_of_find?_eq_some hc)
    have hothers : ∀ d ∈ e₁.calls.filter fun d => d.id != id, ∀ op ∈ d.ops, op.usage ≤ size :=
      fun d hd => hnext.calls d (List.mem_of_mem_filter hd)
    dsimp only
    split_ifs
    · have hleft : Bounded limit size cap { e₁ with calls := e₁.calls.filter fun d => d.id != id } :=
        ⟨hnext.limit, hnext.mem, hnext.held, hothers⟩
      exact hleft.applyOps hcap (hclosing ▸ hrunning) hless id hops
    · have hleft : Bounded limit size cap { e₁ with
          wal := e₁.wal.appendAll c.ops, calls := e₁.calls.filter fun d => d.id != id } :=
        ⟨hnext.limit, hnext.mem, hnext.held, hothers⟩
      exact hleft.applyOps hcap (hclosing ▸ hrunning) hless id hops

theorem Bounded.moved (h : Bounded limit size cap e) (hlimit : e'.memtable_limit = e.memtable_limit)
    (hmem : e'.mem = e.mem) (hcalls : e'.calls = e.calls)
    (hheld : ∀ m, e'.imm = some m ∨ e'.flush.memtable = some m → e.imm = some m ∨ e.flush.memtable = some m) :
    Bounded limit size cap e' := by
  refine ⟨?_, hmem ▸ h.mem, fun m hm => h.held m (hheld m hm), hcalls ▸ h.calls⟩
  rw [Engine.limitBytes, hlimit]
  exact h.limit

/-- `running_` never comes back on. -/
theorem running_before {a : EngineAction} (hs : e.step a = some e') (hcrash : a ≠ .crash)
    (hrunning : e'.closing.running = true) : e.closing.running = true := by
  generalize hnext : e'.closing = next at hrunning
  have hstage := stage_step hs hcrash
  rw [hnext] at hstage
  cases hstage with
  | same => exact hrunning
  | close h => rw [h]; rfl
  | closeFlushed h => rw [h]; rfl
  | stop => contradiction
  | shutdown => contradiction

theorem bounded_step {a : EngineAction} (h : Bounded limit size cap e) (hcap : limit + size ≤ cap)
    (hcrash : a ≠ .crash) (hops : ∀ ops, a.operations = some ops → ∀ op ∈ ops, op.usage ≤ size)
    (hs : e.step a = some e') (hrunning : e.closing.running = true) : Bounded limit size cap e' := by
  cases step_kind hs with
  | noop => exact h
  | enter hsome => exact h.enter hcap hrunning (hops _ hsome)
  | resume hr => exact h.resume hcap hrunning hr
  | rotate hr =>
    obtain ⟨rfl, -, hidle⟩ := flushMem_eq hr
    exact h.rotate hidle
  | takeImm ht =>
    obtain ⟨m, himm, -, rfl⟩ := takeImm_eq ht
    refine h.moved rfl rfl rfl fun m' hm => Or.inl ?_
    rcases hm with hnone | hsome
    · contradiction
    · exact himm.trans hsome
  | buildSST hb =>
    obtain ⟨m, s, hflush, -, rfl⟩ := buildSST_eq hb
    exact h.moved rfl rfl rfl fun m' hm => hm.imp_right fun hsome => by rw [hflush]; exact hsome
  | logFlush hl =>
    obtain ⟨m, s, hflush, -, rfl⟩ := logFlush_eq hl
    exact h.moved rfl rfl rfl fun m' hm => hm.imp_right fun hsome => by rw [hflush]; exact hsome
  | finishFlush hf =>
    obtain ⟨m, -, rfl⟩ := finishFlush_eq hf
    exact h.moved rfl rfl rfl fun m' hm => hm.imp_right fun hsome => by contradiction
  | store => exact h.moved rfl rfl rfl fun _ hm => hm
  | commit => exact h.moved rfl rfl rfl fun _ hm => hm
  | setTTL => exact h.moved rfl rfl rfl fun _ hm => hm
  | closing _ hc =>
    rw [closing_eq hc]
    exact h.moved rfl rfl rfl fun _ hm => hm
  | shutdown _ hd =>
    obtain ⟨s, -, rfl⟩ := shutdown_spec hd
    exact h.moved rfl rfl rfl fun _ hm => hm
  | crash => exact absurd rfl hcrash

/-- No crash, and no operation above a size. -/
def FaultAction.Small (size : ℕ) : FaultAction → Prop
  | .engine a => a.isCrash = false ∧ ∀ ops ∈ a.operations, ∀ op ∈ ops, op.usage ≤ size
  | _ => True

instance (size : ℕ) : (a : FaultAction) → Decidable (a.Small size)
  | .engine _ => inferInstanceAs (Decidable (_ ∧ _))
  | .finishError | .openError _ | .logFlushError _ | .runError | .commitError _ =>
    inferInstanceAs (Decidable True)

theorem bounded_fault {a : FaultAction} (h : e.closing.running = true → Bounded limit size cap e)
    (hcap : limit + size ≤ cap) (hsmall : a.Small size) (hs : e.faultStep a = some e') :
    e'.closing.running = true → Bounded limit size cap e' := by
  intro hrunning
  cases fault_kind hs with
  | @engine b _ hs =>
    have hcrash : b ≠ EngineAction.crash := by
      rintro rfl
      exact absurd hsmall.1 (by decide)
    have hbefore := running_before hs hcrash hrunning
    exact bounded_step (h hbefore) hcap hcrash hsmall.2 hs hbefore
  | finishError => exact (h hrunning).moved rfl rfl rfl fun _ hm => hm.imp_right fun _ => by contradiction
  | openError => exact (h hrunning).moved rfl rfl rfl fun _ hm => hm.imp_right fun _ => by contradiction
  | logFlushError => exact (h hrunning).moved rfl rfl rfl fun _ hm => hm.imp_right fun _ => by contradiction
  | runError => exact (h hrunning).moved rfl rfl rfl fun _ hm => hm
  | commitError => exact (h hrunning).moved rfl rfl rfl fun _ hm => hm

theorem memory_le (h : Bounded limit size cap e) (hex : e.Exclusive) : e.memory ≤ 2 * cap := by
  have hmem := h.mem
  have himm : ∀ m, e.imm = some m → m.mem_usage ≤ cap := fun m hm => h.held m (Or.inl hm)
  have hflush : ∀ m, e.flush.memtable = some m → m.mem_usage ≤ cap := fun m hm => h.held m (Or.inr hm)
  unfold Engine.memory
  rcases hex with hnone | hidle
  · rw [hnone]
    cases hheld : e.flush.memtable with
    | none => simp only [Option.map_none, Option.getD_none]; omega
    | some m =>
      have hm := hflush m hheld
      simp only [Option.map_none, Option.map_some, Option.getD_none, Option.getD_some]
      omega
  · rw [hidle]
    cases hheld : e.imm with
    | none => simp only [FlushThread.memtable, Option.map_none, Option.getD_none]; omega
    | some m =>
      have hm := himm m hheld
      simp only [FlushThread.memtable, Option.map_none, Option.map_some, Option.getD_none, Option.getD_some]
      omega

/-- While the engine runs, all memtables together take at most twice the limit and one operation,
or twice what was in the log when it was opened, whatever waits, fails or is in progress. -/
theorem memory_bounded (st : Startup) (wal : WAL) (limit : Int64) (target size : ℕ)
    (h : Reach Engine.faultStep (fun _ a => a.Small size) (Engine.open st wal limit target) e)
    (hrunning : e.closing.running = true) :
    e.memory ≤ 2 * max (limit.toUInt64.toNat + size) (Engine.open st wal limit target).mem.mem_usage := by
  have hboth : (e.closing.running = true → Bounded limit.toUInt64.toNat size
      (max (limit.toUInt64.toNat + size) (Engine.open st wal limit target).mem.mem_usage) e) ∧ e.Exclusive := by
    refine h.invariant (I := fun e => (e.closing.running = true → Bounded limit.toUInt64.toNat size
      (max (limit.toUInt64.toNat + size) (Engine.open st wal limit target).mem.mem_usage) e) ∧ e.Exclusive)
      ⟨fun _ => ⟨rfl, le_max_right _ _, fun m hm => ?_, fun c hc => ?_⟩, Or.inl rfl⟩ ?_
    · rcases hm with hm | hm <;> contradiction
    · contradiction
    · exact fun e a e' hi hsmall hs =>
        ⟨bounded_fault hi.1 (le_max_left _ _) hsmall hs, exclusive_fault hi.2 hs⟩
  exact memory_le (hboth.1 hrunning) hboth.2

/-- `mem_` is full again while the flush of the memtable before it fails. -/
def fullAgain : List FaultAction :=
  [.engine (.put (ascii "cpu") 1 (ascii "v")), .engine (.put (ascii "cpu") 2 (ascii "v")), .engine .takeImm,
    .engine (.put (ascii "cpu") 3 (ascii "v")), .engine (.put (ascii "cpu") 4 (ascii "v")), .engine .buildSST,
    .openError true, .engine (.resume 3), .engine .takeImm, .engine (.put (ascii "cpu") 5 (ascii "v")),
    .engine (.put (ascii "cpu") 6 (ascii "v"))]

theorem memory_bounded_fullAgain : ∃ e,
    Reach Engine.faultStep (fun _ a => a.Small 76) (Engine.start (ascii "db") 100 0) e ∧
      e.calls.length = 1 ∧ e.memory = 304 ∧ e.memory ≤ 352 := by
  have hrun : ((fullAgain.foldlM (guarded Engine.faultStep fun _ a => a.Small 76)
      (Engine.start (ascii "db") 100 0)).map fun e => (e.calls.length, e.memory, e.closing)) =
      some (1, 304, .opened) := by decide +kernel
  obtain ⟨e, he, hstate⟩ := Option.map_eq_some_iff.mp hrun
  obtain ⟨hcalls, hmemory, hclosing⟩ := by simpa only [Prod.mk.injEq] using hstate
  have hreach : Reach Engine.faultStep (fun _ a => a.Small 76) (Engine.start (ascii "db") 100 0) e :=
    reach_of_foldlM he
  have hrunning : e.closing.running = true := by rw [hclosing]; rfl
  have hbound := memory_bounded (startup (ascii "db") (fun _ => none) []) ⟨[]⟩ 100 0 76 hreach hrunning
  have hcap : 2 * max ((100 : Int64).toUInt64.toNat + 76)
      (Engine.open (startup (ascii "db") (fun _ => none) []) ⟨[]⟩ 100 0).mem.mem_usage = 352 := by decide +kernel
  exact ⟨e, hreach, hcalls, hmemory, hcap ▸ hbound⟩

end MiniTsdb
