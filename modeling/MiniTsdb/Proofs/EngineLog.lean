import MiniTsdb.Proofs.EngineReads

/-! What the log holds of a key. With the SSTables it has the last write, and what waiting
calls have logged and not applied. -/

namespace MiniTsdb
open Lib

/-- What a call will still write to a key from the log. -/
def Call.pending (key : TsKey) (c : Call) : Option InternalEntry :=
  if c.logged then lastIn c.ops key else none

/-- What is logged and not applied, with the operations `rest` of the call that runs. -/
def Engine.unapplied (e : Engine) (key : TsKey) (rest : List Operation) : List InternalEntry :=
  (lastIn rest key).toList ++ e.calls.filterMap (Call.pending key)

theorem lastIn_cons (op : Operation) (ops : List Operation) (key : TsKey) :
    lastIn (op :: ops) key = (lastIn ops key).or (if key = op.key then some op.entry else none) := by
  rw [← List.singleton_append, lastIn_append, lastIn_singleton]

theorem filterMap_remove {calls : List Call} (h : (calls.map Call.id).Nodup) {c : Call}
    (hc : c ∈ calls) (key : TsKey) :
    (calls.filterMap (Call.pending key)).Perm ((c.pending key).toList ++
      (calls.filter fun c' => c'.id != c.id).filterMap (Call.pending key)) := by
  induction calls with
  | nil => contradiction
  | cons d calls ih =>
    obtain ⟨hd, hnodup⟩ := List.nodup_cons.mp h
    by_cases hcd : d.id = c.id
    · have hsame : d = c := by
        rcases List.mem_cons.mp hc with rfl | hc
        · rfl
        · exact absurd (List.mem_map.mpr ⟨c, hc, hcd.symm⟩) hd
      have hrest : (calls.filter fun c' => c'.id != c.id) = calls := by
        refine List.filter_eq_self.mpr fun c' hc' => ?_
        have hne : c'.id ≠ c.id := fun he => hd (List.mem_map.mpr ⟨c', hc', he.trans hcd.symm⟩)
        simpa using hne
      rw [List.filter_cons_of_neg (by simpa using hcd), hrest, hsame, List.filterMap_cons]
      cases c.pending key with
      | none => exact List.Perm.refl _
      | some entry => exact List.Perm.refl _
    · have hmem : c ∈ calls := by
        rcases List.mem_cons.mp hc with rfl | hc
        · exact absurd rfl hcd
        · exact hc
      rw [List.filter_cons_of_pos (by simpa using hcd), List.filterMap_cons, List.filterMap_cons]
      cases d.pending key with
      | none => exact ih hnodup hmem
      | some entry => exact ((ih hnodup hmem).cons entry).trans List.perm_middle.symm

theorem perm_eq_of_length_le_one {α : Type} {as bs : List α} (h : as.Perm bs) (hlen : as.length ≤ 1) :
    as = bs := by
  cases as with
  | nil => exact (List.nil_perm.mp h).symm
  | cons a as =>
    obtain rfl : as = [] := List.length_eq_zero_iff.mp (by simpa using hlen)
    exact (List.perm_singleton.mp h.symm).symm

/-- The numbers of waiting calls are distinct, and new calls get others. -/
structure CallsInv (e : Engine) : Prop where
  ids : (e.calls.map Call.id).Nodup
  fresh : ∀ c ∈ e.calls, c.id < e.next_call

/-- The log `log` of an engine, seen from one key. -/
structure WalInv (key : TsKey) (e : Engine) (log rest : List Operation) : Prop where
  wal : e.wal = ⟨encodeLog log⟩
  short : ∀ op ∈ log, op.measurement.length < 2 ^ 32
  covers : e.memVersions key ++ e.unapplied key rest ≠ [] → lastIn log key ≠ none
  alone : (e.unapplied key rest).length ≤ 1
  newest : (lastIn log key).or (e.store.met key).head? =
    (e.unapplied key rest ++ (e.lastApplied key).toList).head?

section
variable {key : TsKey} {e : Engine} {log rest : List Operation}

/-- The operation that is applied was the one to come. -/
theorem WalInv.applyOp {op : Operation} {ops : List Operation} (h : WalInv key e log (op :: ops))
    (id : ℕ) : WalInv key (e.applyOp id op) log ops := by
  have hbefore : e.unapplied key (op :: ops) = ((lastIn ops key).or
      (if key = op.key then some op.entry else none)).toList ++
        e.calls.filterMap (Call.pending key) := by
    rw [Engine.unapplied, lastIn_cons]
  have hafter : (e.applyOp id op).unapplied key ops = (lastIn ops key).toList ++
      e.calls.filterMap (Call.pending key) := rfl
  have hmet : (e.applyOp id op).store.met key = e.store.met key := rfl
  obtain ⟨hwal, hshort, hcovers, halone, hnewest⟩ := h
  rw [hbefore] at hcovers halone hnewest
  refine ⟨hwal, hshort, fun hne => hcovers ?_, ?_, ?_⟩
  · rw [hafter, memVersions_applyOp] at hne
    split_ifs at hne with hk
    · cases hlast : lastIn ops key <;> simp [hk]
    · cases hlast : lastIn ops key with
      | none =>
        rw [hlast] at hne
        simpa [hk] using hne
      | some entry => simp
  · rw [hafter]
    cases hlast : lastIn ops key with
    | none =>
      rw [hlast] at halone
      refine le_trans ?_ halone
      simp
    | some entry =>
      rw [hlast] at halone
      exact halone
  · rw [hafter, hmet, lastApplied_applyOp, hnewest]
    cases hlast : lastIn ops key with
    | some entry => rfl
    | none =>
      rw [hlast] at halone
      by_cases hk : key = op.key
      · rw [if_pos hk] at halone ⊢
        have hnone : e.calls.filterMap (Call.pending key) = [] := by
          refine List.length_eq_zero_iff.mp ?_
          simpa using halone
        rw [hnone]
        simp [hk]
      · simp [hk]

theorem WalInv.rotate (h : WalInv key e log rest) (himm : e.imm = none) :
    WalInv key e.rotate log rest := by
  refine ⟨h.wal, h.short, fun hne => h.covers ?_, h.alone, h.newest⟩
  rw [memVersions_rotate himm] at hne
  exact hne

theorem WalInv.room {e' : Engine} (h : WalInv key e log rest)
    (hr : e' = e ∨ e' = e.rotate ∧ e.imm = none ∧ e.flush = .idle) : WalInv key e' log rest := by
  rcases hr with rfl | ⟨rfl, himm, -⟩
  · exact h
  · exact h.rotate himm

theorem WalInv.wait (h : WalInv key e log rest) (id : ℕ) :
    WalInv key { e with calls := ⟨id, true, rest⟩ :: e.calls } log [] := by
  have hsame : Engine.unapplied { e with calls := ⟨id, true, rest⟩ :: e.calls } key [] =
      e.unapplied key rest := by
    rw [Engine.unapplied, Engine.unapplied, List.filterMap_cons, Call.pending]
    cases hlast : lastIn rest key with
    | none => rfl
    | some entry => rfl
  refine ⟨h.wal, h.short, fun hne => h.covers ?_, ?_, ?_⟩
  · rw [hsame] at hne
    exact hne
  · rw [hsame]
    exact h.alone
  · rw [hsame]
    exact h.newest

theorem encodeLog_appendAll (log ops : List Operation) :
    (WAL.mk (encodeLog log)).appendAll ops = ⟨encodeLog (log ++ ops)⟩ := by
  have hfile := appendAll_file ops ⟨encodeLog log⟩
  calc (WAL.mk (encodeLog log)).appendAll ops
      = ⟨((WAL.mk (encodeLog log)).appendAll ops).file⟩ := rfl
    _ = ⟨encodeLog log ++ (ops.map Operation.encode).flatten⟩ := by rw [hfile]
    _ = ⟨encodeLog (log ++ ops)⟩ := by simp [encodeLog]

theorem WalInv.append {ops : List Operation} (h : WalInv key e log [])
    (hshort : ∀ op ∈ ops, op.measurement.length < 2 ^ 32)
    (hfree : lastIn ops key = none ∨ e.unapplied key [] = []) :
    WalInv key { e with wal := e.wal.appendAll ops } (log ++ ops) ops := by
  have hother : e.unapplied key [] = e.calls.filterMap (Call.pending key) := rfl
  have hunapplied : Engine.unapplied { e with wal := e.wal.appendAll ops } key ops =
      (lastIn ops key).toList ++ e.unapplied key [] := rfl
  refine ⟨?_, ?_, fun hne => ?_, ?_, ?_⟩
  · rw [h.wal]
    exact encodeLog_appendAll log ops
  · intro op hop
    rcases List.mem_append.mp hop with hop | hop
    · exact h.short op hop
    · exact hshort op hop
  · rw [hunapplied] at hne
    rw [lastIn_append]
    cases hlast : lastIn ops key with
    | some entry => simp
    | none =>
      rw [hlast] at hne
      simpa using h.covers hne
  · rw [hunapplied]
    rcases hfree with hnone | hnone
    · rw [hnone]
      exact h.alone
    · rw [hnone]
      cases lastIn ops key <;> simp
  · rw [hunapplied, lastIn_append]
    cases hlast : lastIn ops key with
    | some entry => rfl
    | none => exact h.newest

end

/-- The calls and the log between two actions. -/
structure LogHeld (key : TsKey) (e : Engine) : Prop where
  calls : CallsInv e
  log : ∃ log, WalInv key e log []

/-- The same inside call `id`, with `rest` to apply. -/
structure LogHeldIn (key : TsKey) (id : ℕ) (e : Engine) (rest : List Operation) : Prop where
  calls : CallsInv e
  inside : ∀ c ∈ e.calls, c.id ≠ id
  old : id < e.next_call
  log : ∃ log, WalInv key e log rest

theorem room_calls {e e' : Engine} (h : e' = e ∨ e' = e.rotate ∧ e.imm = none ∧ e.flush = .idle) :
    e'.calls = e.calls ∧ e'.next_call = e.next_call := by
  rcases h with rfl | ⟨rfl, -, -⟩ <;> exact ⟨rfl, rfl⟩

theorem CallsInv.wait {e : Engine} (h : CallsInv e) {id : ℕ} (hid : ∀ c ∈ e.calls, c.id ≠ id)
    (hold : id < e.next_call) (logged : Bool) (ops : List Operation) :
    CallsInv { e with calls := ⟨id, logged, ops⟩ :: e.calls } := by
  refine ⟨List.nodup_cons.mpr ⟨fun hm => ?_, h.ids⟩, fun c hc => ?_⟩
  · obtain ⟨c, hc, heq⟩ := List.mem_map.mp hm
    exact hid c hc heq
  · rcases List.mem_cons.mp hc with rfl | hc
    · exact hold
    · exact h.fresh c hc

theorem logHeld_applyOps {key : TsKey} {e : Engine} {id : ℕ} {ops : List Operation}
    (h : LogHeldIn key id e ops) : LogHeld key (e.applyOps id ops) := by
  refine applyOps_induct (P := LogHeldIn key id) ?_ ?_ ?_ ?_ h
  · rintro e op ops ⟨hcalls, hid, hold, log, hlog⟩
    exact ⟨⟨hcalls.ids, hcalls.fresh⟩, hid, hold, log, hlog.applyOp id⟩
  · rintro e e' ops ⟨hcalls, hid, hold, log, hlog⟩ hr
    obtain ⟨hsame, hnext⟩ := room_calls (makeRoom_cases hr)
    refine ⟨⟨?_, ?_⟩, ?_, ?_, log, hlog.room (makeRoom_cases hr)⟩
    · rw [hsame]
      exact hcalls.ids
    · rw [hsame, hnext]
      exact hcalls.fresh
    · rw [hsame]
      exact hid
    · rw [hnext]
      exact hold
  · rintro e ops ⟨hcalls, hid, hold, log, hlog⟩
    exact ⟨hcalls.wait hid hold true ops, log, hlog.wait id⟩
  · rintro e ⟨hcalls, -, -, log, hlog⟩
    exact ⟨hcalls, log, hlog⟩

/-- What is logged next, once there is room, can be read back, and keeps the order of the
key's operations: no waiting call has one in the log that it has not applied. -/
def Engine.LogsWell (key : TsKey) (e : Engine) (room : Option Engine) (ops : List Operation) : Prop :=
  room.isSome → (∀ op ∈ ops, op.measurement.length < 2 ^ 32) ∧
    (lastIn ops key = none ∨ e.unapplied key [] = [])

theorem logHeld_logAndApply {key : TsKey} {e : Engine} {id : ℕ} {ops : List Operation}
    (h : LogHeldIn key id e []) (hshort : ∀ op ∈ ops, op.measurement.length < 2 ^ 32)
    (hfree : lastIn ops key = none ∨ e.unapplied key [] = []) :
    LogHeld key (e.logAndApplyOps id ops) := by
  obtain ⟨hcalls, hid, hold, log, hlog⟩ := h
  exact logHeld_applyOps ⟨⟨hcalls.ids, hcalls.fresh⟩, hid, hold, log ++ ops, hlog.append hshort hfree⟩

theorem logHeld_enter {key : TsKey} {e : Engine} {ops : List Operation} (h : LogHeld key e)
    (hok : e.LogsWell key e.makeRoomForWrite ops) : LogHeld key (e.enter ops) := by
  obtain ⟨hcalls, log, hlog⟩ := h
  have hin : LogHeldIn key e.next_call { e with next_call := e.next_call + 1 } [] :=
    ⟨⟨hcalls.ids, fun c hc => Nat.lt_succ_of_lt (hcalls.fresh c hc)⟩,
      fun c hc => (hcalls.fresh c hc).ne, Nat.lt_succ_self _, log,
      ⟨hlog.wal, hlog.short, hlog.covers, hlog.alone, hlog.newest⟩⟩
  rw [Engine.enter]
  dsimp only
  cases hr : Engine.makeRoomForWrite { e with next_call := e.next_call + 1 } with
  | none =>
    refine ⟨hin.calls.wait hin.inside hin.old false ops, log, ?_⟩
    exact ⟨hlog.wal, hlog.short, hlog.covers, hlog.alone, hlog.newest⟩
  | some e₁ =>
    have hroom : e.makeRoomForWrite.isSome := by
      have hsome := congrArg Option.isSome hr
      unfold Engine.makeRoomForWrite at hsome ⊢
      split_ifs at hsome ⊢ <;> first | rfl | contradiction
    obtain ⟨hshort, hfree⟩ := hok hroom
    obtain ⟨hsame, hnext⟩ := room_calls (makeRoom_cases hr)
    obtain ⟨log', hlog'⟩ := hin.log
    refine logHeld_logAndApply ⟨⟨?_, ?_⟩, ?_, ?_, log', hlog'.room (makeRoom_cases hr)⟩ hshort ?_
    · rw [hsame]
      exact hcalls.ids
    · rw [hsame, hnext]
      exact hin.calls.fresh
    · rw [hsame]
      exact hin.inside
    · rw [hnext]
      exact hin.old
    · rw [Engine.unapplied, hsame]
      exact hfree

/-- What a call that finds room logs, it logs well. -/
def Engine.ResumesWell (key : TsKey) (e : Engine) (id : ℕ) : Prop :=
  ∀ c, (e.calls.find? fun c => c.id == id) = some c → c.logged = false →
    e.LogsWell key e.wakeUp c.ops

theorem logHeld_resume {key : TsKey} {e e' : Engine} {id : ℕ} (h : LogHeld key e)
    (hok : e.ResumesWell key id) (hs : e.resume id = some e') : LogHeld key e' := by
  obtain ⟨hcalls, log, hlog⟩ := h
  unfold Engine.resume at hs
  split at hs
  · contradiction
  · rename_i c hc
    have hmem := List.mem_of_find?_eq_some hc
    obtain rfl : c.id = id := by simpa using List.find?_some hc
    obtain ⟨e₁, hr, rfl⟩ := Option.map_eq_some_iff.mp hs
    obtain ⟨hsame, hnext⟩ := room_calls (wakeUp_cases hr)
    have hroom := hlog.room (wakeUp_cases hr)
    have hsub : (e₁.calls.filter fun c' => c'.id != c.id).Sublist e.calls := by
      rw [hsame]
      exact List.filter_sublist
    have hcalls' : CallsInv { e₁ with calls := e₁.calls.filter fun c' => c'.id != c.id } := by
      refine ⟨hcalls.ids.sublist (hsub.map _), fun c' hc' => ?_⟩
      change c'.id < e₁.next_call
      rw [hnext]
      exact hcalls.fresh c' (hsub.subset hc')
    have hinside : ∀ c' ∈ e₁.calls.filter (fun c' => c'.id != c.id), c'.id ≠ c.id := fun c' hc' => by
      simpa using (List.mem_filter.mp hc').2
    have hold : c.id < e₁.next_call := by
      rw [hnext]
      exact hcalls.fresh c hmem
    -- the operations of the call come out of the list
    have hremove : e₁.unapplied key [] = (c.pending key).toList ++
        Engine.unapplied { e₁ with calls := e₁.calls.filter fun c' => c'.id != c.id } key [] := by
      refine perm_eq_of_length_le_one ?_ hroom.alone
      rw [← hsame] at hmem
      exact filterMap_remove (by rw [hsame]; exact hcalls.ids) hmem key
    dsimp only
    split_ifs with hlogged
    · have hpending : c.pending key = lastIn c.ops key := by rw [Call.pending, if_pos hlogged]
      have hunapplied : Engine.unapplied { e₁ with calls := e₁.calls.filter fun c' => c'.id != c.id }
          key c.ops = e₁.unapplied key [] := by
        rw [hremove, hpending]
        rfl
      refine logHeld_applyOps ⟨hcalls', hinside, hold, log, hroom.wal, hroom.short, fun hne => ?_, ?_, ?_⟩
      · rw [hunapplied] at hne
        exact hroom.covers hne
      · rw [hunapplied]
        exact hroom.alone
      · rw [hunapplied]
        exact hroom.newest
    · have hpending : c.pending key = none := by rw [Call.pending, if_neg hlogged]
      have hunapplied : Engine.unapplied { e₁ with calls := e₁.calls.filter fun c' => c'.id != c.id }
          key [] = e₁.unapplied key [] := by
        rw [hremove, hpending]
        rfl
      obtain ⟨hshort, hfree⟩ := hok c hc (by simpa using hlogged) (by rw [hr]; rfl)
      refine logHeld_logAndApply ⟨hcalls', hinside, hold, log, hroom.wal, hroom.short,
        fun hne => ?_, ?_, ?_⟩ hshort ?_
      · rw [hunapplied] at hne
        exact hroom.covers hne
      · rw [hunapplied]
        exact hroom.alone
      · rw [hunapplied]
        exact hroom.newest
      · rw [hunapplied, Engine.unapplied, hsame]
        exact hfree

end MiniTsdb
