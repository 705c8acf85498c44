import MiniTsdb.Lib.Progress
import MiniTsdb.Proofs.CompactionRest
import MiniTsdb.Proofs.CompactionRun
import MiniTsdb.Proofs.CloseJoin
import MiniTsdb.Proofs.EngineDisk
import MiniTsdb.Proofs.EngineLog

/-! No deadlock and no livelock. Without new writes the threads and the waiting calls run out
of work, and until everything is at rest one of them can go on. -/

namespace MiniTsdb
open Lib

/-- The compactions to come, as few as the budget of `AtMost` allows. -/
noncomputable def Store.due (s : Store) : ℕ := sInf {n | s.AtMost true n}

/-- What the running compaction has still to write: no bound before it has read its inputs. -/
def Store.unwritten (s : Store) : ℕ∞ :=
  match s.compaction with
  | none => 0
  | some run => match run.rest with
    | none => ⊤
    | some rest => rest.length + 1

noncomputable def Store.work (s : Store) : ℕ ×ₗ ℕ∞ := toLex (s.due, s.unwritten)

/-- The steps of the flush thread that its memtable has before it. -/
def FlushThread.left : FlushThread → ℕ
  | idle => 0
  | taken _ => 3
  | built _ => 2
  | logged _ => 1

def Engine.unflushed (e : Engine) : ℕ :=
  (if e.mem.isEmpty then 0 else 5) + (if e.imm.isNone then 0 else 4) + e.flush.left

/-- What the waiting calls have still to do: each operation, and to return. -/
def Engine.waiting (e : Engine) : ℕ := (e.calls.map fun c => c.ops.length + 1).sum

noncomputable def Engine.work (e : Engine) : ℕ ×ₗ ℕ ×ₗ ℕ ×ₗ ℕ∞ :=
  toLex (e.waiting, toLex (e.unflushed, e.store.work))

section
variable {s s' : Store} {n : ℕ}

theorem atMost_due (s : Store) : s.AtMost true s.due :=
  Nat.sInf_mem (s := {n | s.AtMost true n}) ⟨maxRank true, atMost_max true s le_rfl⟩

theorem due_le (h : s.AtMost true n) : s.due ≤ n := Nat.sInf_le h

theorem storeWork_lt (hdue : s'.due ≤ s.due) (h : s'.unwritten < s.unwritten) : s'.work < s.work :=
  Prod.Lex.toLex_strictMono (Prod.mk_lt_mk_of_le_of_lt hdue h)

theorem storeWork_le (hdue : s'.due ≤ s.due) (h : s'.unwritten = s.unwritten) : s'.work ≤ s.work :=
  Prod.Lex.toLex_mono (Prod.mk_le_mk.mpr ⟨hdue, h.le⟩)

def StoreAction.compacts : StoreAction → Bool
  | .pick _ _ | .read _ | .output | .commit _ _ => true
  | _ => false

variable {scanned : TsKey → Bool}

theorem storeWork_step {a : StoreAction} (h : StoreInv scanned s) (hj : Jobs s)
    (hflush : a ≠ .commitFlush) (hs : s.step a = some s') :
    s'.work ≤ s.work ∧ (a.compacts = true → s'.work < s.work) := by
  obtain ⟨m, hm, hnext⟩ := atMost_step h hj (atMost_due s) (fun _ _ => rfl) hs
  have hdue := due_le hnext
  have hfewer : s'.due + (if a.picks then 1 else 0) ≤ s.due := by
    have hnone : a.flushes = false := by cases a <;> first | rfl | contradiction
    rw [hnone] at hm
    simp only [Bool.false_eq_true, if_false, Nat.add_zero] at hm
    omega
  have hle : s'.due ≤ s.due := le_of_add_le_left hfewer
  have hkeeps : s'.unwritten = s.unwritten → a.compacts = false →
      s'.work ≤ s.work ∧ (a.compacts = true → s'.work < s.work) := fun hsame hno =>
    ⟨storeWork_le hle hsame, fun hyes => by simp [hno] at hyes⟩
  have hdrops : s'.work < s.work → s'.work ≤ s.work ∧ (a.compacts = true → s'.work < s.work) :=
    fun hlt => ⟨hlt.le, fun _ => hlt⟩
  cases store_kind hs with
  | build => exact hkeeps rfl rfl
  | commitFlush => contradiction
  | pick => exact hdrops (Prod.Lex.toLex_lt_toLex.mpr (Or.inl hfewer))
  | @skip _ _ held =>
    have hc := cleaned_tryDelete s held
    exact hkeeps (by rw [Store.unwritten, Store.unwritten, hc.compaction]) rfl
  | refused hrun _ hlevel => exact absurd (hj.level _ hrun) (not_lt.mpr hlevel)
  | read hrun hrest =>
    apply hdrops
    apply storeWork_lt hle
    simp only [Store.unwritten, Store.afterRead, hrun, hrest]
    exact ENat.natCast_lt_top _
  | @output run records t hrun hrest hne ht =>
    apply hdrops
    apply storeWork_lt hle
    have hless := takeChunk_snd_lt (targetBytes s.target_file_size) 0 hne
    simp only [Store.unwritten, Store.afterOutput, hrun, hrest]
    exact_mod_cast Nat.succ_lt_succ hless
  | @commit run cleanup_obsolete held _ hrun hc =>
    obtain ⟨hrest, -, -⟩ := commitCompaction_eq h hrun hc
    obtain ⟨hjobs, hidle⟩ := jobs_commit hj hrun hc
    have hdone := (hjobs.idle hidle).1
    apply hdrops
    apply storeWork_lt hle
    simp [Store.unwritten, hrun, hrest, hdone]
  | @cleanup held =>
    have hc := cleaned s held
    exact hkeeps (by rw [Store.unwritten, Store.unwritten, hc.compaction]) rfl
  | @shutdown held =>
    have hc := cleaned s held
    refine hkeeps ?_ rfl
    show (s.cleanupObsoleteFiles held).unwritten = _
    rw [Store.unwritten, Store.unwritten, hc.compaction]

end

section
variable {e e' : Engine}

theorem waiting_applyOps (e : Engine) (id : ℕ) (ops : List Operation) :
    (e.applyOps id ops).waiting ≤ e.waiting + ops.length := by
  induction ops generalizing e with
  | nil => simp [Engine.applyOps]
  | cons op ops ih =>
    rw [Engine.applyOps]
    cases hr : (e.applyOp id op).makeRoomForWrite with
    | none => simp [Engine.waiting, Engine.applyOp, Nat.add_comm]
    | some e₁ =>
      have hcalls : e₁.waiting = e.waiting := by
        rw [Engine.waiting, (room_calls (makeRoom_cases hr)).1]
        rfl
      have hrest := ih e₁
      simp only [List.length_cons]
      omega

theorem waiting_resume {id : ℕ} (h : e.resume id = some e') : e'.waiting < e.waiting := by
  unfold Engine.resume at h
  split at h
  · contradiction
  · rename_i c hc
    obtain ⟨e₁, hwake, rfl⟩ := Option.map_eq_some_iff.mp h
    have hcalls := (room_calls (wakeUp_cases hwake)).1
    have hmem := List.mem_of_find?_eq_some hc
    have hid : (c.id != id) = false := by simpa using List.find?_some hc
    have hothers : ((e.calls.filter fun c => c.id != id).map fun c => c.ops.length + 1).sum +
        (c.ops.length + 1) ≤ e.waiting := by
      obtain ⟨before, after, hsplit⟩ := List.append_of_mem hmem
      have hsub : ((before.filter fun c => c.id != id) ++ after.filter fun c => c.id != id).Sublist
          (before ++ after) := List.filter_sublist.append List.filter_sublist
      have hle := (hsub.map fun c => c.ops.length + 1).sum_le_sum (by simp)
      rw [Engine.waiting, hsplit, List.filter_append, List.filter_cons_of_neg (by simp [hid])]
      simp only [List.map_append, List.sum_append, List.map_cons, List.sum_cons] at hle ⊢
      omega
    have hleft : ∀ f : Engine, f.calls = e.calls.filter (fun c => c.id != id) →
        (f.applyOps id c.ops).waiting < e.waiting := by
      intro f hf
      have hrest := waiting_applyOps f id c.ops
      have hwaiting : f.waiting = ((e.calls.filter fun c => c.id != id).map fun c => c.ops.length + 1).sum := by
        rw [Engine.waiting, hf]
      omega
    dsimp only
    split_ifs
    · exact hleft _ (congrArg (List.filter fun c => c.id != id) hcalls)
    · exact hleft _ (congrArg (List.filter fun c => c.id != id) hcalls)

/-- The steps that get work done: those of the background threads, those of waiting calls, and
what `Flush` and `Compact` ask for. -/
def EngineAction.works : EngineAction → Bool
  | .resume _ | .flush | .takeImm | .buildSST | .logFlush | .finishFlush => true
  | .pick _ | .readInputs | .writeOutput | .commit _ _ => true
  | _ => false

theorem flushMem_mem (h : e.flushMem = some e') : e.mem.isEmpty = false := by
  unfold Engine.flushMem at h
  split_ifs at h with hfree
  simpa using (Bool.and_eq_true_iff.mp hfree).1

theorem work_lt_of_waiting (h : e'.waiting < e.waiting) : e'.work < e.work :=
  Prod.Lex.toLex_lt_toLex.mpr (Or.inl h)

theorem work_lt_of_unflushed (hcalls : e'.waiting = e.waiting) (h : e'.unflushed < e.unflushed) :
    e'.work < e.work :=
  Prod.Lex.toLex_lt_toLex.mpr (Or.inr ⟨hcalls, Prod.Lex.toLex_lt_toLex.mpr (Or.inl h)⟩)

theorem work_lt_of_store {s : Store} (h : s.work < e.store.work) : { e with store := s }.work < e.work :=
  Prod.Lex.toLex_lt_toLex.mpr (Or.inr ⟨rfl, Prod.Lex.toLex_lt_toLex.mpr (Or.inr ⟨rfl, h⟩)⟩)

theorem work_le_of_store {s : Store} (h : s.work ≤ e.store.work) : { e with store := s }.work ≤ e.work :=
  Prod.Lex.toLex_mono (Prod.mk_le_mk.mpr ⟨le_rfl, Prod.Lex.toLex_mono (Prod.mk_le_mk.mpr ⟨le_rfl, h⟩)⟩)

/-- No step but a new write adds work, and each of those above takes some off. -/
theorem work_step {a : EngineAction} (h : EngineInv e) (hj : Jobs e.store) (hops : a.operations = none)
    (hcrash : a ≠ .crash) (hs : e.step a = some e') :
    e'.work ≤ e.work ∧ (a.works = true → e'.work < e.work) := by
  have hdrops : e'.work < e.work → e'.work ≤ e.work ∧ (a.works = true → e'.work < e.work) :=
    fun hlt => ⟨hlt.le, fun _ => hlt⟩
  have hkeeps : e'.work ≤ e.work → a.works = false →
      e'.work ≤ e.work ∧ (a.works = true → e'.work < e.work) := fun hle hno =>
    ⟨hle, fun hyes => by simp [hno] at hyes⟩
  cases step_kind hs with
  | noop => contradiction
  | enter hsome =>
    rw [hops] at hsome
    contradiction
  | resume hr => exact hdrops (work_lt_of_waiting (waiting_resume hr))
  | rotate hr =>
    have hmem := flushMem_mem hr
    obtain ⟨rfl, himm, hidle⟩ := flushMem_eq hr
    apply hdrops
    refine work_lt_of_unflushed rfl ?_
    have hnew : MemTable.new.isEmpty = true := rfl
    simp [Engine.unflushed, Engine.rotate, himm, hidle, hmem, hnew, FlushThread.left]
  | takeImm ht =>
    obtain ⟨m, himm, hidle, rfl⟩ := takeImm_eq ht
    apply hdrops
    refine work_lt_of_unflushed rfl ?_
    simp [Engine.unflushed, himm, hidle, FlushThread.left]
  | buildSST hb =>
    obtain ⟨m, s, hflush, -, rfl⟩ := buildSST_eq hb
    apply hdrops
    refine work_lt_of_unflushed rfl ?_
    simp [Engine.unflushed, hflush, FlushThread.left]
  | logFlush hl =>
    obtain ⟨m, s, hflush, -, rfl⟩ := logFlush_eq hl
    apply hdrops
    refine work_lt_of_unflushed rfl ?_
    simp [Engine.unflushed, hflush, FlushThread.left]
  | finishFlush hf =>
    obtain ⟨m, hflush, rfl⟩ := finishFlush_eq hf
    apply hdrops
    refine work_lt_of_unflushed rfl ?_
    simp [Engine.unflushed, hflush, FlushThread.left]
  | @store _ b s hb hstep =>
    have hno : b ≠ .commitFlush := by
      rintro rfl
      cases a <;> cases hb
    obtain ⟨hle, hlt⟩ := storeWork_step h.store hj hno hstep
    refine ⟨work_le_of_store hle, fun hworks => work_lt_of_store (hlt ?_)⟩
    cases a <;> first | contradiction | (cases hb; rfl)
  | commit _ hstep =>
    obtain ⟨hle, hlt⟩ := storeWork_step h.store hj (by simp) hstep
    exact hdrops (work_lt_of_store (hlt rfl))
  | setTTL => exact hkeeps le_rfl rfl
  | closing hcloses hc =>
    refine hkeeps ?_ (by cases a <;> first | rfl | contradiction)
    rw [closing_eq hc]
    exact le_rfl
  | shutdown _ hd =>
    obtain ⟨s, hstep, rfl⟩ := shutdown_spec hd
    exact hkeeps (work_le_of_store (storeWork_step h.store hj (by simp) hstep).1) rfl
  | crash => exact absurd rfl hcrash

/-- The flush thread ends only once `running_` is off. -/
def Engine.Attended (e : Engine) : Prop := e.closing.running = true → e.flush_exited = false

theorem attended_step {a : EngineAction} (h : e.Attended) (hs : e.step a = some e') (hcrash : a ≠ .crash) :
    e'.Attended := by
  have hsame : e'.flush = e.flush ∧ e'.closing = e.closing ∧ e'.flush_exited = e.flush_exited →
      e'.Attended := fun heq hrunning => heq.2.2.trans (h (heq.2.1 ▸ hrunning))
  cases step_kind hs with
  | noop => exact h
  | enter hops => exact hsame ((callRule_closing e).enter ⟨rfl, rfl, rfl⟩ _)
  | resume hr => exact hsame ((callRule_closing e).resume ⟨rfl, rfl, rfl⟩ hr)
  | rotate hr =>
    obtain ⟨rfl, -, -⟩ := flushMem_eq hr
    exact h
  | takeImm ht =>
    obtain ⟨m, -, -, rfl⟩ := takeImm_eq ht
    exact h
  | buildSST hb =>
    obtain ⟨m, s, -, -, rfl⟩ := buildSST_eq hb
    exact h
  | logFlush hl =>
    obtain ⟨m, s, -, -, rfl⟩ := logFlush_eq hl
    exact h
  | finishFlush hf =>
    obtain ⟨m, -, rfl⟩ := finishFlush_eq hf
    exact h
  | store => exact h
  | commit => exact h
  | setTTL => exact h
  | closing hcloses _ =>
    unfold Engine.step at hs
    split_ifs at hs
    cases a with
    | exitFlush =>
      simp only [Engine.exitFlush] at hs
      split_ifs at hs with hexit
      rw [← Option.some.inj hs]
      intro hrunning
      have hoff : e.closing.running = false := by simpa using (Bool.and_eq_true_iff.mp hexit).1
      exact absurd hrunning (by simp [hoff])
    | close =>
      rw [← Option.some.inj hs, Engine.close]
      split_ifs with hopened
      · intro
        exact h (by rw [hopened]; rfl)
      · exact h
    | closeFlushed =>
      simp only [Engine.closeFlushed] at hs
      split_ifs at hs with hflushing
      rw [← Option.some.inj hs]
      intro
      exact h (by rw [hflushing.1]; rfl)
    | stop =>
      simp only [Engine.stop] at hs
      split_ifs at hs
      rw [← Option.some.inj hs]
      intro hrunning
      contradiction
    | _ => contradiction
  | shutdown _ hd =>
    unfold Engine.shutdown at hd
    split_ifs at hd
    obtain ⟨s, -, rfl⟩ := Option.map_eq_some_iff.mp hd
    intro hrunning
    contradiction
  | crash => exact absurd rfl hcrash

/-- The tables that the threads are about to build have room in their Bloom filters. -/
structure Engine.TablesFit (e : Engine) : Prop where
  flush : ∀ m, e.flush = .taken m → m.iterateEntries.length ≤ kMaxBloomKeys
  output : ∀ run records, e.store.compaction = some run → run.rest = some records →
    (takeChunk (targetBytes e.store.target_file_size) 0 records).1.length ≤ kMaxBloomKeys

/-- Nothing waits: no call, no memtable unless the flush thread has ended, no flush, no
compaction, and no level that asks for one. -/
structure Engine.AtRest (e : Engine) : Prop where
  flush : e.flush = .idle
  imm : e.imm = none ∨ e.flush_exited = true
  compaction : e.store.compaction = none
  limits : e.store.WithinLimits
  calls : e.calls = []

/-- What only a call of `Flush` or `Compact` asks for. -/
def EngineAction.requested : EngineAction → Bool
  | .flush | .pick true => true
  | _ => false

/-- Some thread or waiting call can go on by itself. -/
def Engine.GoesOn (e : Engine) : Prop :=
  ∃ a, a.works = true ∧ a.requested = false ∧ (e.step a).isSome = true

section
variable (hopen : e.closing ≠ .done)
include hopen

theorem goesOn_flush (h : FlushInv e) (hfit : e.TablesFit) (hbusy : e.flush ≠ .idle) : e.GoesOn := by
  unfold FlushInv at h
  cases hflush : e.flush with
  | idle => contradiction
  | taken m =>
    rw [hflush] at h
    obtain ⟨t, ht⟩ := Option.isSome_iff_exists.mp ((finishTable_isSome_iff _).mpr (hfit.flush m hflush))
    refine ⟨.buildSST, rfl, rfl, ?_⟩
    simp [Engine.step, Engine.buildSST, hflush, Store.buildFlush, h, ht, hopen, FlushThread.locks]
  | built m =>
    rw [hflush] at h
    obtain ⟨n, t, hbuilt, -⟩ := h
    refine ⟨.logFlush, rfl, rfl, ?_⟩
    simp [Engine.step, Engine.logFlush, hflush, Store.commitFlush, hbuilt, hopen, FlushThread.locks]
  | logged m =>
    refine ⟨.finishFlush, rfl, rfl, ?_⟩
    simp [Engine.step, Engine.finishFlush, hflush, hopen, EngineAction.unlocked]

variable (hidle : e.flush = .idle)
include hidle

theorem goesOn_store {a : EngineAction} {b : StoreAction} {s : Store} (hworks : a.works = true)
    (hrequested : a.requested = false)
    (ha : e.storeAction a = some b ∨ ∃ cleanup_obsolete held, a = .commit cleanup_obsolete held ∧
      b = .commit cleanup_obsolete held)
    (hs : e.store.step b = some s) : e.GoesOn := by
  refine ⟨a, hworks, hrequested, ?_⟩
  have hlocks : e.flush.locks = false := by rw [hidle]; rfl
  rcases ha with ha | ⟨cleanup_obsolete, held, rfl, rfl⟩
  · cases a <;> cases ha <;> simp [Engine.step, hlocks, hopen, Engine.storeStep, hs]
  · simp [Engine.step, hlocks, hopen, Engine.storeStep, hs]

/-- A compaction that has not ended reads, writes its next table, or commits. -/
theorem goesOn_compaction (hfit : e.TablesFit) {run : CompactionRun}
    (hrun : e.store.compaction = some run) : e.GoesOn := by
  cases hrest : run.rest with
  | none =>
    obtain ⟨s, hs⟩ : ∃ s, e.store.step (.read e.store.makeSSTReader) = some s := by
      simp only [Store.step, hrun, Option.bind_some, Store.readInputs, hrest]
      split
      · exact ⟨_, rfl⟩
      · exact ⟨_, rfl⟩
    exact goesOn_store hopen hidle (a := .readInputs) rfl rfl (Or.inl rfl) hs
  | some records =>
    cases records with
    | nil =>
      obtain ⟨s, hs⟩ : ∃ s, e.store.step (.commit true []) = some s := by
        simp only [Store.step, hrun, Option.bind_some, Store.commitCompaction, hrest]
        split_ifs
        · exact ⟨_, rfl⟩
        · exact ⟨_, rfl⟩
      exact goesOn_store hopen hidle (a := .commit true []) rfl rfl (Or.inr ⟨true, [], rfl, rfl⟩) hs
    | cons r records =>
      have hlength := hfit.output run _ hrun hrest
      obtain ⟨t, ht⟩ := Option.isSome_iff_exists.mp ((finishTable_isSome_iff
        ((takeChunk (targetBytes e.store.target_file_size) 0 (r :: records)).1.map Record.pair)).mpr
          (by rwa [List.length_map]))
      obtain ⟨s, hs⟩ : ∃ s, e.store.step .output = some s := by
        simp only [Store.step, hrun, Option.bind_some, Store.writeOutput, hrest, ht]
        exact ⟨_, rfl⟩
      exact goesOn_store hopen hidle (a := .writeOutput) rfl rfl (Or.inl rfl) hs

theorem goesOn_pick (hj : Jobs e.store) (hnone : e.store.compaction = none) :
    e.store.WithinLimits ∨ e.GoesOn := by
  have hprogress : e.store.compaction_in_progress = false := by rw [hj.in_progress, hnone]; rfl
  cases hdue : e.store.shouldScheduleCompaction with
  | false => exact Or.inl (within_of_not_due hj hprogress hdue)
  | true =>
    rw [← pick_isSome _ e.ttl_map] at hdue
    obtain ⟨work, hwork⟩ := Option.isSome_iff_exists.mp hdue
    have hs : e.store.step (.pick false e.ttl_map) = some (e.store.afterPick work) := by
      simp only [Store.step, Store.startCompaction, hwork]
      rfl
    exact Or.inr (goesOn_store hopen hidle (a := .pick false) rfl rfl (Or.inl rfl) hs)

theorem goesOn_imm {m : MemTable} (himm : e.imm = some m) (hthere : e.flush_exited = false) : e.GoesOn := by
  refine ⟨.takeImm, rfl, rfl, ?_⟩
  simp [Engine.step, Engine.takeImm, himm, hidle, hthere, hopen, FlushThread.locks]

/-- A waiting call goes on once there is room, or `running_` is off. -/
theorem goesOn_call (hj : Jobs e.store) (hattended : e.Attended) (hnone : e.store.compaction = none)
    (himm : e.imm = none ∨ e.flush_exited = true) {c : Call} (hc : c ∈ e.calls) : e.GoesOn := by
  have hprogress : e.store.compaction_in_progress = false := by rw [hj.in_progress, hnone]; rfl
  obtain ⟨e₁, hwake⟩ : ∃ e₁, e.wakeUp = some e₁ := by
    unfold Engine.wakeUp Engine.makeRoomForWrite
    by_cases hrunning : e.closing.running = true
    · have hempty : e.imm = none := himm.resolve_right (by simp [hattended hrunning])
      simp only [hrunning, if_true, Engine.shouldStopWrites, hprogress, Bool.false_and,
        Bool.false_eq_true, if_false, hempty, hidle]
      split_ifs
      · exact ⟨_, rfl⟩
      · exact ⟨_, rfl⟩
      · contradiction
    · exact ⟨e, by rw [if_neg hrunning]⟩
  obtain ⟨c', hfind⟩ : ∃ c', e.calls.find? (fun d => d.id == c.id) = some c' :=
    Option.isSome_iff_exists.mp (List.find?_isSome.mpr ⟨c, hc, by simp⟩)
  refine ⟨.resume c.id, rfl, rfl, ?_⟩
  simp [Engine.step, Engine.resume, hfind, hwake, hidle, hopen, FlushThread.locks]

end

/-- Unless everything is at rest, somebody can go on. -/
theorem atRest_or_goesOn (h : EngineInv e) (hj : Jobs e.store) (hattended : e.Attended)
    (hopen : e.closing ≠ .done) (hfit : e.TablesFit) : e.AtRest ∨ e.GoesOn := by
  by_cases hidle : e.flush = .idle
  swap
  · exact Or.inr (goesOn_flush hopen h.flush hfit hidle)
  cases hrun : e.store.compaction with
  | some run => exact Or.inr (goesOn_compaction hopen hidle hfit hrun)
  | none =>
    rcases goesOn_pick hopen hidle hj hrun with hlimits | hgoes
    swap
    · exact Or.inr hgoes
    have himm : (e.imm = none ∨ e.flush_exited = true) ∨ e.GoesOn := by
      cases hheld : e.imm with
      | none => exact Or.inl (Or.inl rfl)
      | some m =>
        cases hexited : e.flush_exited with
        | true => exact Or.inl (Or.inr rfl)
        | false => exact Or.inr (goesOn_imm hopen hidle hheld hexited)
    rcases himm with himm | hgoes
    swap
    · exact Or.inr hgoes
    cases hcalls : e.calls with
    | nil => exact Or.inl ⟨hidle, himm, hrun, hlimits, hcalls⟩
    | cons c calls =>
      exact Or.inr (goesOn_call hopen hidle hj hattended hrun himm (hcalls ▸ List.mem_cons_self))

/-- What is neither a new write nor a crash. -/
def EngineAction.AddsNothing (a : EngineAction) : Prop := a.operations = none ∧ a ≠ .crash

structure Attending (e : Engine) : Prop where
  inv : EngineInv e
  jobs : Jobs e.store
  attended : e.Attended

theorem attending_step {a : EngineAction} (h : Attending e) (hs : e.step a = some e') (hcrash : a ≠ .crash) :
    Attending e' :=
  ⟨engineInv_step h.inv hs hcrash, jobs_engineStep h.jobs hs hcrash, attended_step h.attended hs hcrash⟩

theorem attending_run {db_dir : Bytes} {limit : Int64} {target : ℕ}
    (h : Reach Engine.step Engine.ReadsBack (Engine.start db_dir limit target) e) : Attending e := by
  have hrest : Jobs e.store ∧ e.Attended := by
    refine h.invariant (I := fun e => Jobs e.store ∧ e.Attended)
      ⟨jobs_open db_dir _ _ _ limit target, fun _ => rfl⟩ ?_
    rintro e a e' ⟨hjobs, hattended⟩ - hs
    by_cases hcrash : a = .crash
    · subst hcrash
      rw [step_crash hs]
      exact ⟨jobs_open _ _ _ e.wal e.memtable_limit _, fun _ => rfl⟩
    · exact ⟨jobs_engineStep hjobs hs hcrash, attended_step hattended hs hcrash⟩
  exact ⟨(engineDisk_run h).1, hrest.1, hrest.2⟩

/-- The second write has filled a memtable while the first one is about to be flushed. -/
def waitingForFlush : List EngineAction :=
  [.put (ascii "cpu") 1 (ascii "v"), .takeImm, .put (ascii "cpu") 2 (ascii "w")]

end

end MiniTsdb
