import MiniTsdb.Proofs.EngineSteps
import MiniTsdb.Proofs.WalCut

/-! The last write of a key, and the version of it that a view reaches. -/

namespace MiniTsdb
open Lib

/-- The newest operation on a key that went to the memtable. -/
def Engine.lastApplied (e : Engine) (key : TsKey) : Option InternalEntry :=
  (e.applied.find? fun a => a.2.key = key).map fun a => a.2.entry

/-- The newest one whose call has returned. -/
def Engine.lastCompleted (e : Engine) (key : TsKey) : Option InternalEntry :=
  (e.applied.find? fun a => a.2.key = key && !e.inside a.1).map fun a => a.2.entry

/-- No call that is still running has written the key. -/
def Engine.Settled (e : Engine) (key : TsKey) : Prop :=
  ∀ a ∈ e.applied, a.2.key = key → e.inside a.1 = false

theorem lastCompleted_eq {e : Engine} {key : TsKey} (h : e.Settled key) :
    e.lastCompleted key = e.lastApplied key := by
  have hfilter : ∀ applied : List (ℕ × Operation),
      (∀ a ∈ applied, a.2.key = key → e.inside a.1 = false) →
      (applied.find? fun a => a.2.key = key && !e.inside a.1) =
        applied.find? fun a => a.2.key = key := by
    intro applied hsettled
    induction applied with
    | nil => rfl
    | cons a applied ih =>
      rw [List.find?_cons, List.find?_cons, ih fun b hb => hsettled b (List.mem_cons_of_mem a hb)]
      by_cases hk : a.2.key = key
      · simp [hk, hsettled a List.mem_cons_self hk]
      · simp [hk]
  rw [Engine.lastCompleted, Engine.lastApplied, hfilter e.applied h]

theorem lastApplied_applyOp (e : Engine) (id : ℕ) (op : Operation) (key : TsKey) :
    (e.applyOp id op).lastApplied key = if key = op.key then some op.entry else e.lastApplied key := by
  rw [Engine.lastApplied, Engine.applyOp, List.find?_cons]
  by_cases hk : op.key = key
  · simp [hk]
  · simp [hk, Ne.symm hk, Engine.lastApplied]

/-- The memtable that is neither in a view nor on disk. -/
def FlushThread.hidden : FlushThread → Option MemTable
  | taken m => some m
  | built m => some m
  | _ => none

/-- The versions of a key that a view reaches, newest first. -/
def Engine.viewed (e : Engine) (key : TsKey) : List InternalEntry :=
  (e.mem.getEntry key).toList ++ ((e.imm.bind fun m => m.getEntry key).toList ++ e.store.met key)

theorem get_eq {e : Engine} (h : EngineInv e) (key : TsKey) :
    e.get key = if isExpiredInMap e.ttl_map key.measurement key.timestamp then none
      else (e.viewed key).head?.bind InternalEntry.read := by
  rw [Engine.get, ReadView.get, Engine.captureReadView, Engine.viewed,
    getFromSSTables_eq h.store.live]
  split_ifs
  · rfl
  · cases e.mem.getEntry key with
    | some entry => rfl
    | none =>
      cases e.imm.bind fun m => m.getEntry key with
      | some entry => rfl
      | none =>
        simp only [Option.toList_none, List.nil_append]
        cases (e.store.met key).head? <;> rfl

/-- The hidden memtable has nothing to add for a key. -/
def Engine.Shown (e : Engine) (key : TsKey) : Prop :=
  ∀ m, e.flush.hidden = some m → m.getEntry key = none ∨ e.mem.getEntry key ≠ none

theorem shown_of_idle {e : Engine} (h : e.flush = .idle) (key : TsKey) : e.Shown key := by
  intro m hm
  rw [h] at hm
  contradiction

theorem head?_viewed {e : Engine} (h : EngineInv e) (hfree : e.flush.locks = false) {key : TsKey}
    (hshown : e.Shown key) : (e.viewed key).head? = (e.sources key).head? := by
  rw [Engine.viewed, Engine.sources, Engine.memVersions]
  have himm := h.imm
  have hcase : ∀ m, e.flush.memtable = some m → m.getEntry key = none ∨ e.mem.getEntry key ≠ none →
      e.imm = none → ((e.mem.getEntry key).toList ++ ((e.imm.bind fun m => m.getEntry key).toList ++
        e.store.met key)).head? = ((e.mem.getEntry key).toList ++
          ((e.imm.bind fun m => m.getEntry key).toList ++
            (e.flush.memtable.bind fun m => m.getEntry key).toList) ++ e.store.met key).head? := by
    intro m hm hlacks hnone
    rw [hm, hnone]
    rcases hlacks with hlacks | hhas
    · simp [hlacks]
    · obtain ⟨entry, hentry⟩ := Option.ne_none_iff_exists'.mp hhas
      simp [hentry]
  cases hf : e.flush with
  | idle => simp [FlushThread.memtable]
  | taken m =>
    rw [← hf]
    exact hcase m (by rw [hf]; rfl) (hshown m (by rw [hf]; rfl)) (himm (by simp [hf]))
  | built m =>
    rw [← hf]
    exact hcase m (by rw [hf]; rfl) (hshown m (by rw [hf]; rfl)) (himm (by simp [hf]))
  | logged m =>
    rw [hf] at hfree
    contradiction

/-- A step in which the newest version of a key is lost. -/
def Engine.Drops (e : Engine) (key : TsKey) : EngineAction → Prop
  | .finishFlush => ∃ m, e.flush = .logged m ∧ ¬ TsKey.default ≤ key ∧ m.getEntry key ≠ none ∧
      e.mem.getEntry key = none
  | .commit _ _ => ∃ run, e.store.compaction = some run ∧ run.keeps sstScanned key = false ∧
      e.store.inputVersions run.work.job key ≠ [] ∧
      e.memVersions key ++ e.store.newer run.work.job key = []
  | _ => False

/-- A step in which an older version takes the place of the newest one. -/
def Engine.Uncovers (e : Engine) (key : TsKey) : EngineAction → Prop
  | .commit _ _ => ∃ run, e.store.compaction = some run ∧ run.keeps sstScanned key = false ∧
      e.store.inputVersions run.work.job key ≠ [] ∧
      e.memVersions key ++ e.store.newer run.work.job key = [] ∧
      e.store.deeper run.work.job key ≠ []
  | _ => False

/-- A commit changes the newest version only where it finds it in its inputs and leaves it
out. -/
theorem sources_commit {e : Engine} {s : Store} {cleanup_obsolete : Bool} {held : List Bytes}
    (h : EngineInv e) (hs : e.store.step (.commit cleanup_obsolete held) = some s) (key : TsKey) :
    (Engine.sources { e with store := s } key).head? = (e.sources key).head? ∨
      e.Drops key (.commit cleanup_obsolete held) ∧
        (Engine.sources { e with store := s } key = [] ∨
          e.Uncovers key (.commit cleanup_obsolete held)) := by
  obtain ⟨-, -, run, hrun, hmet⟩ := met_step h.store hs
  obtain ⟨hbefore, hafter⟩ := hmet key
  set first := e.memVersions key ++ e.store.newer run.work.job key with hfirst
  set inputs := e.store.inputVersions run.work.job key with hinputs
  set deeper := e.store.deeper run.work.job key with hdeeper
  have hold : e.sources key = first ++ (inputs ++ deeper) := by
    rw [Engine.sources, hbefore, hfirst, List.append_assoc]
  have hnew : Engine.sources { e with store := s } key =
      first ++ (leftOver (run.keeps sstScanned) key inputs ++ deeper) := by
    rw [hfirst, List.append_assoc, ← hafter]
    rfl
  rw [hold, hnew, leftOver]
  cases hf : first with
  | cons entry rest => exact Or.inl rfl
  | nil =>
    cases hi : inputs with
    | nil => exact Or.inl (by simp)
    | cons entry rest =>
      cases hkeep : run.keeps sstScanned key with
      | true => exact Or.inl rfl
      | false =>
        have hne : e.store.inputVersions run.work.job key ≠ [] := by simp [← hinputs, hi]
        refine Or.inr ⟨⟨run, hrun, hkeep, hne, hfirst ▸ hf⟩, ?_⟩
        cases hd : deeper with
        | nil => exact Or.inl rfl
        | cons entry' rest' =>
          exact Or.inr ⟨run, hrun, hkeep, hne, hfirst ▸ hf, by simp [← hdeeper, hd]⟩

/-- The end of a flush loses a key that the flush has left out of its file. -/
theorem sources_finish {e e' : Engine} (h : EngineInv e) (hs : e.finishFlush = some e') (key : TsKey) :
    (e'.sources key).head? = (e.sources key).head? ∨
      e.Drops key .finishFlush ∧ (e'.sources key = [] ∨ e.Uncovers key .finishFlush) := by
  obtain ⟨m, hflush, hmem', hmem, hmet, hhead⟩ := sources_finishFlush h hs key
  rw [Engine.sources, Engine.sources, hmem', hmem, hmet]
  cases hfound : e.mem.getEntry key with
  | some entry => exact Or.inl rfl
  | none =>
    cases hm : m.getEntry key with
    | none => exact Or.inl rfl
    | some entry =>
      by_cases hle : TsKey.default ≤ key
      · exact Or.inl (by simp [hhead hle entry hm])
      · refine Or.inr ⟨⟨m, hflush, hle, by simp [hm], hfound⟩, Or.inl ?_⟩
        rw [h.low key hle]
        rfl

/-- What a step that is no write does to the newest version of a key. -/
theorem sources_step {e e' : Engine} {a : EngineAction} (h : EngineInv e) (hs : e.step a = some e')
    (hops : a.operations = none) (hresume : ∀ id, a ≠ .resume id) (hcrash : a ≠ .crash) (key : TsKey) :
    e'.applied = e.applied ∧ ((e'.sources key).head? = (e.sources key).head? ∨
      e.Drops key a ∧ (e'.sources key = [] ∨ e.Uncovers key a)) := by
  cases step_kind hs with
  | noop => exact ⟨rfl, Or.inl rfl⟩
  | enter hsome =>
    rw [hops] at hsome
    contradiction
  | resume _ => exact absurd rfl (hresume _)
  | rotate hr =>
    obtain ⟨rfl, himm, -⟩ := flushMem_eq hr
    refine ⟨rfl, Or.inl ?_⟩
    rw [Engine.sources, memVersions_rotate himm]
    rfl
  | takeImm ht =>
    have hmem := memVersions_takeImm ht key
    obtain ⟨m, -, -, rfl⟩ := takeImm_eq ht
    refine ⟨rfl, Or.inl ?_⟩
    rw [Engine.sources, hmem]
    rfl
  | buildSST hb =>
    have hsources := (sources_buildSST h hb key).2
    obtain ⟨m, s, -, -, rfl⟩ := buildSST_eq hb
    exact ⟨rfl, Or.inl (by rw [hsources])⟩
  | logFlush hl =>
    have hsources := (sources_logFlush h hl key).2
    obtain ⟨m, s, -, -, rfl, -⟩ := logFlush_spec h hl
    refine ⟨rfl, Or.inl ?_⟩
    rcases hsources with hsame | ⟨-, hhead⟩
    · rw [hsame]
    · exact hhead
  | finishFlush hf =>
    have hsources := sources_finish h hf key
    obtain ⟨m, -, rfl⟩ := finishFlush_eq hf
    exact ⟨rfl, hsources⟩
  | store hb hstep =>
    refine ⟨rfl, Or.inl ?_⟩
    rw [Engine.sources, Engine.sources, storeAction_met hb (met_step h.store hstep)]
    rfl
  | commit hfree hstep => exact ⟨rfl, sources_commit h hstep key⟩
  | setTTL => exact ⟨rfl, Or.inl rfl⟩
  | closing _ hc =>
    rw [closing_eq hc]
    exact ⟨rfl, Or.inl rfl⟩
  | shutdown _ hd =>
    obtain ⟨s, hstep, rfl⟩ := shutdown_spec hd
    refine ⟨rfl, Or.inl ?_⟩
    rw [Engine.sources, Engine.sources, (met_step h.store hstep).2.2 key]
    rfl
  | crash => exact absurd rfl hcrash

/-- A rule about the newest version of a key: it holds once the version is the last write,
and a step that is no write keeps it. -/
theorem newest_step {Q : Engine → Prop} {e e' : Engine} {a : EngineAction} (key : TsKey)
    (hcalls : CallRule Q) (h : EngineInv e) (hq : Q e) (hs : e.step a = some e') (hcrash : a ≠ .crash)
    (hstep : e'.applied = e.applied → ((e'.sources key).head? = (e.sources key).head? ∨
      e.Drops key a ∧ (e'.sources key = [] ∨ e.Uncovers key a)) → Q e') : Q e' := by
  by_cases hresume : ∃ id, a = .resume id
  · obtain ⟨id, rfl⟩ := hresume
    exact hcalls.resume hq (step_resume hs)
  · cases hops : a.operations with
    | none =>
      obtain ⟨happlied, hsources⟩ := sources_step h hs hops (fun id he => hresume ⟨id, he⟩) hcrash key
      exact hstep happlied hsources
    | some ops =>
      cases step_kind hs with
      | noop => exact hq
      | enter hsome => exact hcalls.enter hq _
      | store hb =>
        cases a <;> contradiction
      | closing hc =>
        rw [closes_operations hc] at hops
        contradiction
      | _ => contradiction

theorem start_open (db_dir : Bytes) (limit : Int64) (target : ℕ) :
    Engine.start db_dir limit target =
      { memtable_limit := limit, wal := ⟨[]⟩, mem := .new, imm := none, flush := .idle
        ttl_map := fun _ => none, store := Store.start db_dir target, closing := .opened
        flush_exited := false, calls := [], next_call := 0, applied := [], rotated := []
        taken := [], flushes := [] } := by
  have hlog : (WAL.mk []).replayEntries = ([], ⟨[]⟩) := replayEntries_log [] (by simp)
  rw [Engine.start, Engine.open, hlog]
  rfl

theorem engineInv_start (db_dir : Bytes) (limit : Int64) (target : ℕ) :
    EngineInv (Engine.start db_dir limit target) := by
  rw [start_open]
  refine ⟨storeInv_start db_dir target, rfl, fun _ => rfl, fun key _ => met_start db_dir target key⟩

theorem sources_start (db_dir : Bytes) (limit : Int64) (target : ℕ) (key : TsKey) :
    (Engine.start db_dir limit target).sources key = [] := by
  rw [start_open, Engine.sources, met_start]
  rfl

theorem lastApplied_start (db_dir : Bytes) (limit : Int64) (target : ℕ) (key : TsKey) :
    (Engine.start db_dir limit target).lastApplied key = none := by
  rw [start_open]
  rfl

end MiniTsdb
