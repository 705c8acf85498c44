import MiniTsdb.Lib.Runs
import MiniTsdb.Proofs.CallEffect
import MiniTsdb.Proofs.EngineDisk
import MiniTsdb.Proofs.EngineViews

/-! A batch against the same operations one by one. A thread issues calls, each after the one
before has returned, while the other threads flush, compact and clean up as they like. What has
been applied and what is still to come are together the operations of its calls, so two runs
that have returned from all of them agree on the last write of every key and on the clocks. -/

namespace MiniTsdb
open Lib

/-- The engine, the calls still to be issued, and the number of the last one. -/
structure Issuer where
  engine : Engine
  todo : List EngineAction
  last : Option ℕ

/-- What the other threads do: no write, no TTL, no crash. -/
def EngineAction.others : EngineAction → Bool
  | .put _ _ _ | .delete _ _ | .write _ | .resume _ | .setTTL _ _ | .crash => false
  | _ => true

inductive IssuerAction
  | call
  | resume
  | other (a : EngineAction)

namespace Issuer

def waiting (s : Issuer) : Bool := s.last.any s.engine.inside

def step (s : Issuer) : IssuerAction → Option Issuer
  | .call =>
    match s.todo with
    | [] => none
    | a :: todo =>
      if s.waiting || a.operations.isNone then none
      else (s.engine.step a).map fun e => ⟨e, todo, some s.engine.next_call⟩
  | .resume =>
    match s.last with
    | none => none
    | some id => (s.engine.step (.resume id)).map fun e => { s with engine := e }
  | .other a => if a.others then (s.engine.step a).map fun e => { s with engine := e } else none

def Returned (s : Issuer) : Prop := s.todo = [] ∧ s.waiting = false

/-- A step of another thread that loses none of the keys. -/
def Keeps (keys : Set TsKey) (s : Issuer) : IssuerAction → Prop
  | .other a => ∀ key ∈ keys, ¬ s.engine.Drops key a
  | _ => True

end Issuer

def Operation.call : Operation → EngineAction
  | .put measurement timestamp value => .put measurement timestamp value
  | .delete measurement timestamp => .delete measurement timestamp

/-- From one engine, the calls are issued and return while the other threads keep the keys. -/
def Issues (keys : Set TsKey) (e : Engine) (calls : List EngineAction) (e' : Engine) : Prop :=
  ∃ s : Issuer, Reach Issuer.step (Issuer.Keeps keys) ⟨e, calls, none⟩ s ∧ s.Returned ∧ s.engine = e'

/-- The operations that a waiting call has not applied. -/
def Engine.left (e : Engine) (id : ℕ) : List Operation :=
  match e.calls.find? fun c => c.id == id with
  | some c => c.ops
  | none => []

theorem left_of_not_inside {e : Engine} {id : ℕ} (h : e.inside id = false) : e.left id = [] := by
  have hnone : (e.calls.find? fun c => c.id == id) = none := by
    rw [List.find?_eq_none]
    exact fun c hc => by simpa using List.any_eq_false.mp h c hc
  rw [Engine.left, hnone]

theorem left_of_calls {e : Engine} {id : ℕ} {logged : Bool} {ops : List Operation} {calls : List Call}
    (h : e.calls = ⟨id, logged, ops⟩ :: calls) : e.left id = ops := by
  simp [Engine.left, h]

/-- The numbers of waiting calls are below the next one. -/
def Engine.Fresh (e : Engine) : Prop := ∀ c ∈ e.calls, c.id < e.next_call

theorem inside_next_call {e : Engine} (h : e.Fresh) : e.inside e.next_call = false := by
  rw [Engine.inside, List.any_eq_false]
  exact fun c hc => by simpa using (h c hc).ne

/-- Operations that were applied since `e₀`, the oldest first: they have moved the clocks, and are
the newest versions of their keys. -/
structure Wrote (keys : Set TsKey) (e₀ : Engine) (done : List Operation) (e : Engine) : Prop where
  clocks : e.ttl_map = clocksAfter e₀.ttl_map done.reverse
  newest : ∀ key ∈ keys, (e.sources key).head? = (lastIn done key).or (e₀.sources key).head?

variable {keys : Set TsKey} {e₀ e e' : Engine} {done : List Operation}

theorem Wrote.refl (keys : Set TsKey) (e : Engine) : Wrote keys e [] e :=
  ⟨rfl, fun _ _ => rfl⟩

theorem Wrote.frame (h : Wrote keys e₀ done e) (wal : WAL) (calls : List Call) (n : ℕ) :
    Wrote keys e₀ done { e with wal := wal, calls := calls, next_call := n } := ⟨h.clocks, h.newest⟩

theorem Wrote.room (h : Wrote keys e₀ done e)
    (hr : e' = e ∨ e' = e.rotate ∧ e.imm = none ∧ e.flush = .idle) : Wrote keys e₀ done e' := by
  rcases hr with rfl | ⟨rfl, himm, -⟩
  · exact h
  · refine ⟨h.clocks, fun key hkey => ?_⟩
    rw [← h.newest key hkey, Engine.sources, memVersions_rotate himm]
    rfl

theorem Wrote.applyOp (h : Wrote keys e₀ done e) (id : ℕ) (op : Operation) :
    Wrote keys e₀ (done ++ [op]) (e.applyOp id op) := by
  refine ⟨?_, fun key hkey => ?_⟩
  · rw [Engine.applyOp, h.clocks, List.reverse_append]
    rfl
  · obtain ⟨hsame, hother⟩ := head?_sources_applyOp e id op key
    rw [lastIn_append, lastIn_singleton]
    split_ifs with hk
    · rw [hsame hk]
      rfl
    · rw [hother hk, h.newest key hkey]
      rfl

/-- The loop of a call applies its operations up to the one behind which it waits. -/
theorem wrote_applyOps (h : Wrote keys e₀ done e) {id : ℕ} (hid : ∀ c ∈ e.calls, c.id ≠ id)
    (ops : List Operation) : ∃ done', Wrote keys e₀ done' (e.applyOps id ops) ∧
      done' ++ (e.applyOps id ops).left id = done ++ ops := by
  refine applyOps_induct (P := fun e rest => ∃ done', Wrote keys e₀ done' e ∧
      done' ++ rest = done ++ ops ∧ ∀ c ∈ e.calls, c.id ≠ id)
    (Q := fun e => ∃ done', Wrote keys e₀ done' e ∧ done' ++ e.left id = done ++ ops)
    ?_ ?_ ?_ ?_ ⟨done, h, rfl, hid⟩
  · intro e op rest hstate
    obtain ⟨done', hwrote, hsum, hcalls⟩ := hstate
    exact ⟨done' ++ [op], hwrote.applyOp id op, by simpa using hsum, hcalls⟩
  · rintro e e' rest ⟨done', hwrote, hsum, hcalls⟩ hr
    have hroom := makeRoom_cases hr
    refine ⟨done', hwrote.room hroom, hsum, ?_⟩
    rcases hroom with rfl | ⟨rfl, -, -⟩ <;> exact hcalls
  · intro e rest hstate
    obtain ⟨done', hwrote, hsum, -⟩ := hstate
    refine ⟨done', hwrote.frame e.wal _ e.next_call, ?_⟩
    rw [left_of_calls rfl]
    exact hsum
  · intro e hstate
    obtain ⟨done', hwrote, hsum, hcalls⟩ := hstate
    refine ⟨done', hwrote, ?_⟩
    rw [left_of_not_inside]
    · exact hsum
    · rw [Engine.inside, List.any_eq_false]
      exact fun c hc => by simpa using hcalls c hc

theorem wrote_enter (h : Wrote keys e₀ done e) (hfresh : e.Fresh) (ops : List Operation) :
    ∃ done', Wrote keys e₀ done' (e.enter ops) ∧ done' ++ (e.enter ops).left e.next_call = done ++ ops := by
  have hid : ∀ c ∈ e.calls, c.id ≠ e.next_call := fun c hc => (hfresh c hc).ne
  rw [Engine.enter]
  dsimp only
  cases hr : Engine.makeRoomForWrite { e with next_call := e.next_call + 1 } with
  | none =>
    exact ⟨done, h.frame e.wal _ _, congrArg (done ++ ·) (left_of_calls rfl)⟩
  | some e₁ =>
    have hroom := makeRoom_cases hr
    have hwrote := (h.frame e.wal e.calls (e.next_call + 1)).room hroom
    have hcalls : ∀ c ∈ e₁.calls, c.id ≠ e.next_call := by
      rcases hroom with rfl | ⟨rfl, -, -⟩ <;> exact hid
    exact wrote_applyOps (hwrote.frame (e₁.wal.appendAll ops) e₁.calls e₁.next_call) hcalls ops

theorem wrote_resume (h : Wrote keys e₀ done e) {id : ℕ} (hs : e.resume id = some e') :
    ∃ done', Wrote keys e₀ done' e' ∧ done' ++ e'.left id = done ++ e.left id := by
  unfold Engine.resume at hs
  split at hs
  · contradiction
  · rename_i c hc
    obtain ⟨e₁, hr, rfl⟩ := Option.map_eq_some_iff.mp hs
    have hleft : e.left id = c.ops := by rw [Engine.left, hc]
    have hwrote := h.room (wakeUp_cases hr)
    have hcalls : ∀ c' ∈ e₁.calls.filter (fun c' => c'.id != id), c'.id ≠ id := fun c' hc' => by
      simpa using (List.mem_filter.mp hc').2
    rw [hleft]
    dsimp only
    split_ifs
    · exact wrote_applyOps (hwrote.frame e₁.wal _ e₁.next_call) hcalls c.ops
    · exact wrote_applyOps (hwrote.frame _ _ e₁.next_call) hcalls c.ops

theorem fresh_applyOps {id : ℕ} (h : e.Fresh) (hid : id < e.next_call) (ops : List Operation) :
    (e.applyOps id ops).Fresh := by
  refine applyOps_induct (P := fun e _ => e.Fresh ∧ id < e.next_call) ?_ ?_ ?_ ?_ ⟨h, hid⟩
  · exact fun e op rest h => h
  · rintro e e' rest ⟨hfresh, hid⟩ hr
    rcases makeRoom_cases hr with rfl | ⟨rfl, -, -⟩ <;> exact ⟨hfresh, hid⟩
  · intro e rest hstate
    obtain ⟨hfresh, hid⟩ := hstate
    exact List.forall_mem_cons.mpr ⟨hid, hfresh⟩
  · exact fun e h => h.1

theorem fresh_enter (h : e.Fresh) (ops : List Operation) : (e.enter ops).Fresh := by
  have hnumber : ∀ c ∈ e.calls, c.id < e.next_call + 1 := fun c hc => Nat.lt_succ_of_lt (h c hc)
  rw [Engine.enter]
  dsimp only
  cases hr : Engine.makeRoomForWrite { e with next_call := e.next_call + 1 } with
  | none => exact List.forall_mem_cons.mpr ⟨Nat.lt_succ_self _, hnumber⟩
  | some e₁ =>
    have hroom : e₁.Fresh ∧ e.next_call < e₁.next_call := by
      rcases makeRoom_cases hr with rfl | ⟨rfl, -, -⟩ <;> exact ⟨hnumber, Nat.lt_succ_self _⟩
    exact fresh_applyOps (e := { e₁ with wal := e₁.wal.appendAll ops }) hroom.1 hroom.2 ops

theorem fresh_resume (h : e.Fresh) {id : ℕ} (hs : e.resume id = some e') : e'.Fresh := by
  unfold Engine.resume at hs
  split at hs
  · contradiction
  · rename_i c hc
    obtain ⟨e₁, hr, rfl⟩ := Option.map_eq_some_iff.mp hs
    have hid : id < e.next_call := by
      have hlt := h c (List.mem_of_find?_eq_some hc)
      have heq : c.id = id := by simpa using List.find?_some hc
      rwa [heq] at hlt
    have hroom : e₁.Fresh ∧ id < e₁.next_call := by
      rcases wakeUp_cases hr with rfl | ⟨rfl, -, -⟩ <;> exact ⟨h, hid⟩
    have hfilter : ∀ c' ∈ e₁.calls.filter (fun c' => c'.id != id), c'.id < e₁.next_call :=
      fun c' hc' => hroom.1 c' (List.mem_of_mem_filter hc')
    dsimp only
    split_ifs
    · exact fresh_applyOps (e := { e₁ with calls := e₁.calls.filter fun c' => c'.id != id })
        hfilter hroom.2 c.ops
    · exact fresh_applyOps (e := { e₁ with
        calls := e₁.calls.filter fun c' => c'.id != id, wal := e₁.wal.appendAll c.ops })
        hfilter hroom.2 c.ops

theorem others_frame {a : EngineAction} (ha : a.others = true) (hs : e.step a = some e') :
    e'.calls = e.calls ∧ e'.next_call = e.next_call ∧ e'.ttl_map = e.ttl_map := by
  cases step_kind hs with
  | noop => contradiction
  | enter hops => cases a <;> contradiction
  | resume hr => contradiction
  | rotate hr =>
    obtain ⟨rfl, -, -⟩ := flushMem_eq hr
    exact ⟨rfl, rfl, rfl⟩
  | takeImm ht =>
    obtain ⟨m, -, -, rfl⟩ := takeImm_eq ht
    exact ⟨rfl, rfl, rfl⟩
  | buildSST hb =>
    obtain ⟨m, s, -, -, rfl⟩ := buildSST_eq hb
    exact ⟨rfl, rfl, rfl⟩
  | logFlush hl =>
    obtain ⟨m, s, -, -, rfl⟩ := logFlush_eq hl
    exact ⟨rfl, rfl, rfl⟩
  | finishFlush hf =>
    obtain ⟨m, -, rfl⟩ := finishFlush_eq hf
    exact ⟨rfl, rfl, rfl⟩
  | store hb hstep => exact ⟨rfl, rfl, rfl⟩
  | commit hfree hstep => exact ⟨rfl, rfl, rfl⟩
  | setTTL => contradiction
  | closing _ hc =>
    rw [closing_eq hc]
    exact ⟨rfl, rfl, rfl⟩
  | shutdown _ hd =>
    obtain ⟨s, -, rfl⟩ := shutdown_spec hd
    exact ⟨rfl, rfl, rfl⟩
  | crash => contradiction

theorem wrote_others (h : Wrote keys e₀ done e) (hinv : EngineInv e) {a : EngineAction}
    (ha : a.others = true) (hkeeps : ∀ key ∈ keys, ¬ e.Drops key a) (hs : e.step a = some e') :
    Wrote keys e₀ done e' := by
  have hops : a.operations = none := by cases a <;> first | rfl | contradiction
  have hresume : ∀ id, a ≠ .resume id := by
    rintro id rfl
    contradiction
  have hcrash : a ≠ .crash := by
    rintro rfl
    contradiction
  refine ⟨(others_frame ha hs).2.2.trans h.clocks, fun key hkey => ?_⟩
  rcases (sources_step hinv hs hops hresume hcrash key).2 with hsame | ⟨hdrops, -⟩
  · exact hsame.trans (h.newest key hkey)
  · exact absurd hdrops (hkeeps key hkey)

/-- What every run keeps, through restarts. -/
structure Engine.Valid (e : Engine) : Prop where
  inv : EngineInv e
  fresh : e.Fresh

theorem valid_start (db_dir : Bytes) (limit : Int64) (target : ℕ) :
    (Engine.start db_dir limit target).Valid := by
  refine ⟨engineInv_start db_dir limit target, ?_⟩
  rw [start_open]
  exact fun c hc => absurd hc List.not_mem_nil

theorem valid_step {a : EngineAction} (h : e.Valid) (hcrash : a ≠ .crash) (hs : e.step a = some e') :
    e'.Valid := by
  refine ⟨engineInv_step h.inv hs hcrash, ?_⟩
  by_cases hothers : a.others = true
  · obtain ⟨hcalls, hnext, -⟩ := others_frame hothers hs
    intro c hc
    rw [hcalls] at hc
    rw [hnext]
    exact h.fresh c hc
  · cases step_kind hs with
    | noop => exact h.fresh
    | enter hops => exact fresh_enter h.fresh _
    | resume hr => exact fresh_resume h.fresh hr
    | setTTL => exact h.fresh
    | crash => exact absurd rfl hcrash
    | store hb => cases a <;> contradiction
    | closing hc => cases a <;> contradiction
    | _ => exact absurd rfl hothers

def operationsOf (calls : List EngineAction) : List Operation :=
  calls.flatMap fun a => a.operations.getD []

/-- The operations of the last call that are still to be applied. -/
def Issuer.left (s : Issuer) : List Operation := (s.last.map s.engine.left).getD []

/-- What has been applied and what is to come are the operations of the calls. -/
structure IssuerInv (keys : Set TsKey) (e₀ : Engine) (total : List Operation) (s : Issuer) : Prop where
  valid : s.engine.Valid
  wrote : ∃ done, Wrote keys e₀ done s.engine ∧ done ++ (s.left ++ operationsOf s.todo) = total

theorem Issuer.left_of_not_waiting {s : Issuer} (h : s.waiting = false) : s.left = [] := by
  unfold Issuer.left
  cases hlast : s.last with
  | none => rfl
  | some id =>
    rw [Issuer.waiting, hlast] at h
    exact left_of_not_inside h

theorem issuerInv_call {total : List Operation} {s s' : Issuer} (h : IssuerInv keys e₀ total s)
    (hs : s.step .call = some s') : IssuerInv keys e₀ total s' := by
  obtain ⟨done, hwrote, hsum⟩ := h.wrote
  unfold Issuer.step at hs
  cases htodo : s.todo with
  | nil => simp [htodo] at hs
  | cons a todo =>
    simp only [htodo] at hs
    split_ifs at hs with hwait
    obtain ⟨e', hstep, rfl⟩ := Option.map_eq_some_iff.mp hs
    obtain ⟨hfree, hsome⟩ := Bool.or_eq_false_iff.mp (Bool.eq_false_iff.mpr hwait)
    rw [Issuer.left_of_not_waiting hfree, List.nil_append, htodo] at hsum
    have hcrash : a ≠ .crash := by
      rintro rfl
      contradiction
    refine ⟨valid_step h.valid hcrash hstep, ?_⟩
    have hentered : ∀ ops, a.operations = some ops → ∀ e', (∃ done', Wrote keys e₀ done' e' ∧
        done' ++ e'.left s.engine.next_call = done ++ ops) →
        ∃ done', Wrote keys e₀ done' e' ∧
          done' ++ (e'.left s.engine.next_call ++ operationsOf todo) = total := by
      intro ops hops e' hstate
      obtain ⟨done', hwrote', hsum'⟩ := hstate
      refine ⟨done', hwrote', ?_⟩
      rw [← hsum, ← List.append_assoc, hsum', operationsOf, operationsOf, List.flatMap_cons, hops,
        List.append_assoc]
      rfl
    cases step_kind hstep with
    | noop =>
      refine hentered [] rfl _ ⟨done, hwrote, ?_⟩
      rw [left_of_not_inside (inside_next_call h.valid.fresh)]
    | enter hops => exact hentered _ hops _ (wrote_enter hwrote h.valid.fresh _)
    | store hb => cases a <;> contradiction
    | closing hc => cases a <;> contradiction
    | _ => contradiction

theorem issuerInv_resume {total : List Operation} {s s' : Issuer} (h : IssuerInv keys e₀ total s)
    (hs : s.step .resume = some s') : IssuerInv keys e₀ total s' := by
  obtain ⟨done, hwrote, hsum⟩ := h.wrote
  unfold Issuer.step at hs
  cases hlast : s.last with
  | none => simp [hlast] at hs
  | some id =>
    simp only [hlast] at hs
    obtain ⟨e', hstep, rfl⟩ := Option.map_eq_some_iff.mp hs
    refine ⟨valid_step h.valid (by simp) hstep, ?_⟩
    obtain ⟨done', hwrote', hsum'⟩ := wrote_resume hwrote (step_resume hstep)
    have hleft : s.left = s.engine.left id := by simp [Issuer.left, hlast]
    refine ⟨done', hwrote', ?_⟩
    change done' ++ (e'.left id ++ operationsOf s.todo) = total
    rw [← hsum, hleft, ← List.append_assoc, ← List.append_assoc, hsum']

theorem issuerInv_other {total : List Operation} {s s' : Issuer} {a : EngineAction}
    (h : IssuerInv keys e₀ total s) (hkeeps : ∀ key ∈ keys, ¬ s.engine.Drops key a)
    (hs : s.step (.other a) = some s') : IssuerInv keys e₀ total s' := by
  obtain ⟨done, hwrote, hsum⟩ := h.wrote
  unfold Issuer.step at hs
  dsimp only at hs
  split_ifs at hs with hothers
  obtain ⟨e', hstep, rfl⟩ := Option.map_eq_some_iff.mp hs
  have hcrash : a ≠ .crash := by
    rintro rfl
    contradiction
  refine ⟨valid_step h.valid hcrash hstep, done, wrote_others hwrote h.valid.inv hothers hkeeps hstep, ?_⟩
  have hleft : Issuer.left { s with engine := e' } = s.left := by
    unfold Issuer.left Engine.left
    simp only [(others_frame hothers hstep).1]
  rw [hleft]
  exact hsum

theorem issuerInv_step {total : List Operation} {s s' : Issuer} {a : IssuerAction}
    (h : IssuerInv keys e₀ total s) (hkeeps : s.Keeps keys a) (hs : s.step a = some s') :
    IssuerInv keys e₀ total s' := by
  cases a with
  | call => exact issuerInv_call h hs
  | resume => exact issuerInv_resume h hs
  | other a => exact issuerInv_other h hkeeps hs

/-- Once all calls have returned, their operations have been applied. -/
theorem wrote_of_issues {calls : List EngineAction} (hvalid : e.Valid) (h : Issues keys e calls e') :
    e'.Valid ∧ Wrote keys e (operationsOf calls) e' := by
  obtain ⟨s, hrun, ⟨htodo, hfree⟩, rfl⟩ := h
  have hstart : IssuerInv keys e (operationsOf calls) ⟨e, calls, none⟩ :=
    ⟨hvalid, [], Wrote.refl keys e, rfl⟩
  have hinv := hrun.invariant hstart fun _ _ _ => issuerInv_step
  obtain ⟨done, hwrote, hsum⟩ := hinv.wrote
  rw [Issuer.left_of_not_waiting hfree, htodo] at hsum
  have hdone : done = operationsOf calls := by simpa [operationsOf] using hsum
  exact ⟨hinv.valid, hdone ▸ hwrote⟩

theorem operationsOf_write (batch : List Operation) : operationsOf [.write batch] = batch := by
  simp [operationsOf, EngineAction.operations]

theorem operationsOf_calls (batch : List Operation) :
    operationsOf (batch.map Operation.call) = batch := by
  induction batch with
  | nil => rfl
  | cons op batch ih => cases op <;> exact congrArg (List.cons _) ih

/-- The rules expire the key, or both runs keep it and a view of either has its newest version. -/
def Comparable (keys : Set TsKey) (eA eB : Engine) (key : TsKey) : Prop :=
  isExpiredInMap eA.ttl_map key.measurement key.timestamp = true ∨
    key ∈ keys ∧ eA.Shown key ∧ eB.Shown key

section
variable {eA eB : Engine}

theorem Wrote.head?_viewed (h : Wrote keys e₀ done e) (hinv : EngineInv e) (hfree : e.flush.locks = false)
    {key : TsKey} (hkey : key ∈ keys) (hshown : e.Shown key) :
    (e.viewed key).head? = (lastIn done key).or (e₀.sources key).head? := by
  rw [MiniTsdb.head?_viewed hinv hfree hshown]
  exact h.newest key hkey

theorem get_of_wrote (hinvA : EngineInv eA) (hinvB : EngineInv eB) (hA : Wrote keys e₀ done eA)
    (hB : Wrote keys e₀ done eB) (hfreeA : eA.flush.locks = false) (hfreeB : eB.flush.locks = false)
    {key : TsKey} (hkey : Comparable keys eA eB key) : eA.get key = eB.get key := by
  have hclocks : eA.ttl_map = eB.ttl_map := hA.clocks.trans hB.clocks.symm
  rw [get_eq hinvA, get_eq hinvB, ← hclocks]
  rcases hkey with hexpired | ⟨hmem, hshownA, hshownB⟩
  · rw [if_pos hexpired, if_pos hexpired]
  · rw [hA.head?_viewed hinvA hfreeA hmem hshownA, hB.head?_viewed hinvB hfreeB hmem hshownB]

theorem rangeQuery_of_get {vA vB : FileView} (hA : vA.Shows eA) (hB : vB.Shows eB) (m : Bytes)
    (t_start t_end : Int64) (h : ∀ t, t_start ≤ t → t ≤ t_end → eA.get ⟨m, t⟩ = eB.get ⟨m, t⟩) :
    vA.rangeQuery m t_start t_end = vB.rangeQuery m t_start t_end := by
  apply (ascending_rangeQuery hA.intact m t_start t_end).ext (ascending_rangeQuery hB.intact m t_start t_end)
  intro r
  rw [mem_rangeQuery_iff_get hA.intact, mem_rangeQuery_iff_get hB.intact]
  have hget : ∀ t, t_start ≤ t → t ≤ t_end → vA.get ⟨m, t⟩ = vB.get ⟨m, t⟩ := by
    intro t hstart hend
    rw [hA.get, hB.get, h t hstart hend]
  constructor
  · rintro ⟨t, v, hr, hstart, hend, hfound⟩
    exact ⟨t, v, hr, hstart, hend, hget t hstart hend ▸ hfound⟩
  · rintro ⟨t, v, hr, hstart, hend, hfound⟩
    exact ⟨t, v, hr, hstart, hend, (hget t hstart hend).trans hfound⟩

end

def valueAndDelete : List Operation :=
  [.put (ascii "cpu") 1 (ascii "v"), .delete (ascii "cpu") 2]

def almostFull : Engine := Engine.start (ascii "db") 76 0

def writtenAtOnce : Option Issuer :=
  [IssuerAction.call].foldlM Issuer.step ⟨almostFull, [.write valueAndDelete], none⟩

/-- Steps of the flush thread between the value and the delete. -/
def writtenAround (flush : List EngineAction) : Option Issuer :=
  (.call :: (flush.map IssuerAction.other ++ [.call])).foldlM Issuer.step
    ⟨almostFull, valueAndDelete.map Operation.call, none⟩

theorem exists_of_map_decide {α : Type} {x : Option α} {P : α → Prop} [DecidablePred P]
    (h : (x.map fun a => decide (P a)) = some true) : ∃ a, x = some a ∧ P a := by
  obtain ⟨a, ha, hp⟩ := Option.map_eq_some_iff.mp h
  exact ⟨a, ha, of_decide_eq_true hp⟩

theorem issues_of_foldlM {keys : Set TsKey} {calls : List EngineAction} {actions : List IssuerAction}
    {s : Issuer} (hs : actions.foldlM Issuer.step ⟨e, calls, none⟩ = some s)
    (hkeeps : ∀ a ∈ actions, ∀ s : Issuer, s.Keeps keys a) (htodo : s.todo.isEmpty = true)
    (hfree : s.waiting = false) : Issues keys e calls s.engine :=
  ⟨s, reach_foldlM hkeeps hs, ⟨List.isEmpty_iff.mp htodo, hfree⟩, rfl⟩

theorem keeps_aboveDefault {a : IssuerAction} (ha : ∀ cleanup_obsolete held,
    a ≠ .other (.commit cleanup_obsolete held)) (s : Issuer) :
    s.Keeps {key | TsKey.default ≤ key} a := by
  cases a with
  | call => trivial
  | resume => trivial
  | other a =>
    intro key hkey hdrops
    cases a with
    | finishFlush =>
      obtain ⟨m, -, hlow, -⟩ := hdrops
      exact hlow hkey
    | commit cleanup_obsolete held => exact ha cleanup_obsolete held rfl
    | _ => exact hdrops

def Engine.OnlyValue (e : Engine) : Prop :=
  ∀ l, (e.store.vmgr.current.level_files l).length ≤ 1 ∧ ∀ f ∈ e.store.vmgr.current.level_files l,
    (e.store.tableAt f).entries = [(⟨ascii "cpu", 1⟩, ⟨ascii "v", .kValue⟩)]

instance : DecidablePred Engine.OnlyValue := fun e => by unfold Engine.OnlyValue; infer_instance

theorem exists_shows_value (h : EngineInv e) (hvalue : e.OnlyValue) : ∃ view : FileView, view.Shows e := by
  apply exists_shows h
  · intro l f hf
    have hentries := (hvalue l).2 f hf
    refine ⟨?_, ?_, ?_⟩ <;> rw [hentries]
    · unfold FitsEntry
      decide +kernel
    · decide +kernel
    · decide
  · exact fun l => ((hvalue l).1).trans_lt (by norm_num)

end MiniTsdb
