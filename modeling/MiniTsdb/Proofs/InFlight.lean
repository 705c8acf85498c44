import MiniTsdb.Spec.InFlight
import MiniTsdb.Proofs.BatchEquals
import MiniTsdb.Proofs.TtlReads

/-! Reads in flight take effect at one point between their view and their look: what they
answer is what the operations applied up to there have left. -/

namespace MiniTsdb
open Lib

/-- The entry that `Get` meets first, before the TTL rules. -/
def ReadView.found (view : ReadView) (key : TsKey) : Option InternalEntry :=
  (view.mem.getEntry key).or
    ((view.imm.bind fun m => m.getEntry key).or (getFromSSTables view.levels key))

theorem ReadView.get_eq_found (view : ReadView) (key : TsKey) :
    view.get key = if isExpiredInMap view.ttl_map key.measurement key.timestamp then none
      else (view.found key).bind InternalEntry.read := by
  rw [ReadView.get, ReadView.found]
  split_ifs
  · rfl
  · cases view.mem.getEntry key with
    | some entry => rfl
    | none =>
      cases view.imm.bind fun m => m.getEntry key with
      | some entry => rfl
      | none => cases getFromSSTables view.levels key <;> rfl

theorem found_captureReadView {e : Engine} (h : EngineInv e) (key : TsKey) :
    e.captureReadView.found key = (e.viewed key).head? := by
  rw [ReadView.found, Engine.captureReadView, Engine.viewed, getFromSSTables_eq h.store.live]
  simp

/-- A view whose memtable has got some operations more. -/
theorem found_foldl_apply (view : ReadView) (ops : List Operation) (key : TsKey) :
    ReadView.found { view with mem := ops.foldl MemTable.apply view.mem } key =
      (lastIn ops key).or (view.found key) := by
  simp only [ReadView.found, getEntry_foldl_apply, Option.or_assoc]

@[simp] theorem history_applyOp (e : Engine) (id : ℕ) (op : Operation) :
    (e.applyOp id op).history = e.history ++ [op] := by
  simp [Engine.history, Engine.applyOp]

theorem lastIn_history (e : Engine) (key : TsKey) : lastIn e.history key = e.lastApplied key := by
  rw [lastIn, Engine.history, List.reverse_reverse, List.find?_map, Option.map_map]
  rfl

theorem callRule_history (past : List Operation) : CallRule fun e => past <+: e.history := by
  refine ⟨fun _ _ _ _ h => h, fun _ h _ _ => h, fun e id op h => ?_⟩
  rw [history_applyOp]
  exact h.trans (List.prefix_append _ _)

theorem history_room {e e' : Engine} (h : e' = e ∨ e' = e.rotate ∧ e.imm = none ∧ e.flush = .idle) :
    e'.history = e.history := by
  rcases h with rfl | ⟨rfl, -, -⟩ <;> rfl

/-- What a call passes comes before what it leaves. -/
theorem history_applyPasses {e p : Engine} {id : ℕ} {ops : List Operation}
    (hp : p ∈ e.applyPasses id ops) : p.history <+: (e.applyOps id ops).history := by
  induction ops generalizing e with
  | nil => exact absurd hp List.not_mem_nil
  | cons op ops ih =>
    rw [Engine.applyOps]
    rw [Engine.applyPasses] at hp
    cases hr : (e.applyOp id op).makeRoomForWrite with
    | none =>
      simp only [hr, List.mem_singleton] at hp
      rw [hp]
      exact List.prefix_refl _
    | some e₁ =>
      simp only [hr, List.mem_cons] at hp
      rcases hp with rfl | hp
      · have hsame := history_room (makeRoom_cases hr)
        rw [← hsame]
        exact (callRule_history e₁.history).applyOps (List.prefix_refl _) id ops
      · exact ih hp

theorem history_passes {e e' p : Engine} {a : EngineAction} (hs : e.step a = some e')
    (hp : p ∈ e.passes a) : p.history <+: e'.history := by
  have henter : ∀ ops, p ∈ e.enterPasses ops → p.history <+: (e.enter ops).history := by
    intro ops hp
    rw [Engine.enterPasses] at hp
    rw [Engine.enter]
    dsimp only at hp ⊢
    cases hr : Engine.makeRoomForWrite { e with next_call := e.next_call + 1 } with
    | none => simp [hr] at hp
    | some e₁ =>
      simp only [hr] at hp
      exact history_applyPasses hp
  unfold Engine.step at hs
  split_ifs at hs
  cases a with
  | put measurement timestamp value =>
    rw [← Option.some.inj hs]
    exact henter _ hp
  | delete measurement timestamp =>
    rw [← Option.some.inj hs]
    exact henter _ hp
  | write batch =>
    rw [← Option.some.inj hs]
    cases batch with
    | nil => exact absurd hp List.not_mem_nil
    | cons op batch => exact henter _ hp
  | resume id =>
    change e.resume id = some e' at hs
    change p ∈ e.resumePasses id at hp
    unfold Engine.resume at hs
    unfold Engine.resumePasses at hp
    cases hc : e.calls.find? fun c => c.id == id with
    | none => simp [hc] at hp
    | some c =>
      simp only [hc] at hs hp
      obtain ⟨e₁, hr, rfl⟩ := Option.map_eq_some_iff.mp hs
      simp only [hr] at hp
      split_ifs at hp ⊢
      · exact history_applyPasses hp
      · exact history_applyPasses hp
  | _ => exact absurd hp List.not_mem_nil

/-- Whatever calls keep holds in the states that they pass. -/
theorem CallRule.applyPasses {Q : Engine → Prop} (hQ : CallRule Q) {e p : Engine} (h : Q e) {id : ℕ}
    {ops : List Operation} (hp : p ∈ e.applyPasses id ops) : Q p := by
  induction ops generalizing e with
  | nil => exact absurd hp List.not_mem_nil
  | cons op ops ih =>
    have hnext := hQ.op e id op h
    rw [Engine.applyPasses] at hp
    rcases List.mem_cons.mp hp with rfl | hp
    · exact hnext
    · cases hr : (e.applyOp id op).makeRoomForWrite with
      | none => simp [hr] at hp
      | some e₁ =>
        simp only [hr] at hp
        exact ih (hQ.room hnext (makeRoom_cases hr)) hp

theorem CallRule.passes {Q : Engine → Prop} (hQ : CallRule Q) {e p : Engine} {a : EngineAction}
    (h : Q e) (hp : p ∈ e.passes a) : Q p := by
  have henter : ∀ ops, p ∈ e.enterPasses ops → Q p := by
    intro ops hp
    have hnumber := hQ.frame e e.wal e.calls (e.next_call + 1) h
    rw [Engine.enterPasses] at hp
    cases hr : Engine.makeRoomForWrite { e with next_call := e.next_call + 1 } with
    | none => simp [hr] at hp
    | some e₁ =>
      simp only [hr] at hp
      have hroom := hQ.room hnumber (makeRoom_cases hr)
      exact hQ.applyPasses (hQ.frame e₁ _ e₁.calls e₁.next_call hroom) hp
  cases a with
  | put measurement timestamp value => exact henter _ hp
  | delete measurement timestamp => exact henter _ hp
  | write batch =>
    cases batch with
    | nil => exact absurd hp List.not_mem_nil
    | cons op batch => exact henter _ hp
  | resume id =>
    change p ∈ e.resumePasses id at hp
    unfold Engine.resumePasses at hp
    cases hc : e.calls.find? fun c => c.id == id with
    | none => simp [hc] at hp
    | some c =>
      cases hr : e.wakeUp with
      | none => simp [hc, hr] at hp
      | some e₁ =>
        simp only [hc, hr] at hp
        have hroom := hQ.room h (wakeUp_cases hr)
        split_ifs at hp
        · exact hQ.applyPasses (hQ.frame e₁ e₁.wal _ e₁.next_call hroom) hp
        · exact hQ.applyPasses (hQ.frame e₁ _ _ e₁.next_call hroom) hp
  | _ => exact absurd hp List.not_mem_nil

theorem memTables_rotate (e : Engine) : e.rotate.memTables = e.memTables ++ [.new] := rfl

theorem memTables_last (e : Engine) : e.memTables[e.rotated.length]? = some e.mem := by
  simp [Engine.memTables]

theorem memTables_rotated (e : Engine) {i : ℕ} (h : i < e.rotated.length) :
    e.memTables[i]? = e.rotated[i]? := by
  rw [Engine.memTables, List.getElem?_append_left h]

theorem length_memTables (e : Engine) : e.memTables.length = e.rotated.length + 1 := by
  simp [Engine.memTables]

/-- The view of a read holds what `past` has left of the keys. -/
structure OpenRead.Began (keys : Set TsKey) (r : OpenRead) (past : List Operation) : Prop where
  begun : past.length = r.begun
  found : ∀ key ∈ keys, r.view.found key = lastIn past key

/-- The memtable of a read holds, beside what it held at first, the operations that came
right after; while writers fill it, all of them. -/
def OpenRead.Tracks (keys : Set TsKey) (r : OpenRead) (e : Engine) : Prop :=
  ∃ past done rest, e.history = past ++ (done ++ rest) ∧ r.Began keys past ∧
    e.memTables[r.object]? = some (done.foldl MemTable.apply r.view.mem) ∧
      (r.object = e.rotated.length → rest = [])

/-- What a read has seen is its memtable after some of the operations so far. -/
def OpenRead.Saw (keys : Set TsKey) (r : OpenRead) (e : Engine) : Prop :=
  ∀ m, r.seen = some m → ∃ past done rest, e.history = past ++ (done ++ rest) ∧
    r.Began keys past ∧ m = done.foldl MemTable.apply r.view.mem

variable {keys : Set TsKey} {r : OpenRead} {e e' : Engine}

theorem object_le (h : r.Tracks keys e) : r.object ≤ e.rotated.length := by
  obtain ⟨past, done, rest, -, -, hobject, -⟩ := h
  obtain ⟨hlt, -⟩ := List.getElem?_eq_some_iff.mp hobject
  rw [length_memTables] at hlt
  omega

theorem callRule_tracks (keys : Set TsKey) (r : OpenRead) : CallRule (r.Tracks keys) := by
  refine ⟨fun _ _ _ _ h => h, fun e h _ _ => ?_, fun e id op h => ?_⟩
  · have hle := object_le h
    obtain ⟨past, done, rest, hhistory, hbegan, hobject, -⟩ := h
    refine ⟨past, done, rest, hhistory, hbegan, ?_, fun heq => ?_⟩
    · rw [memTables_rotate, List.getElem?_append_left (by rw [length_memTables]; omega)]
      exact hobject
    · rw [Engine.rotate, List.length_append, List.length_singleton] at heq
      omega
  · have hle := object_le h
    obtain ⟨past, done, rest, hhistory, hbegan, hobject, hall⟩ := h
    rcases hle.lt_or_eq with hlt | heq
    · refine ⟨past, done, rest ++ [op], ?_, hbegan, ?_, fun heq => absurd heq hlt.ne⟩
      · rw [history_applyOp, hhistory]
        simp
      · rw [memTables_rotated e hlt] at hobject
        exact (memTables_rotated (e.applyOp id op) hlt).trans hobject
    · refine ⟨past, done ++ [op], [], ?_, hbegan, ?_, fun _ => rfl⟩
      · rw [history_applyOp, hhistory, hall heq]
        simp
      · rw [heq, memTables_last] at hobject
        rw [heq, List.foldl_append, ← Option.some.inj hobject]
        exact memTables_last (e.applyOp id op)

theorem tracks_step {a : EngineAction} (h : r.Tracks keys e) (hs : e.step a = some e')
    (hcrash : a ≠ .crash) : r.Tracks keys e' := by
  have hcalls := callRule_tracks keys r
  cases step_kind hs with
  | noop => exact h
  | enter hops => exact hcalls.enter h _
  | resume hr => exact hcalls.resume h hr
  | rotate hr =>
    obtain ⟨rfl, himm, hidle⟩ := flushMem_eq hr
    exact hcalls.rotate e h himm hidle
  | takeImm ht =>
    obtain ⟨m, -, -, rfl⟩ := takeImm_eq ht
    exact h
  | buildSST hb =>
    obtain ⟨m, s, -, -, rfl⟩ := buildSST_eq hb
    exact h
  | logFlush hl =>
    obtain ⟨m, s, -, -, rfl⟩ := logFlush_eq hl
    exact h
  | finishFlush hf =>
    obtain ⟨m, -, rfl⟩ := finishFlush_eq hf
    exact h
  | store hb hstep => exact h
  | commit hfree hstep => exact h
  | setTTL => exact h
  | closing _ hc =>
    rw [closing_eq hc]
    exact h
  | shutdown _ hd =>
    obtain ⟨s, -, rfl⟩ := shutdown_spec hd
    exact h
  | crash => exact absurd rfl hcrash

theorem saw_of_prefix (h : r.Saw keys e) (hle : e.history <+: e'.history) : r.Saw keys e' := by
  intro m hm
  obtain ⟨past, done, rest, hhistory, hbegan, heq⟩ := h m hm
  obtain ⟨more, hmore⟩ := hle
  refine ⟨past, done, rest ++ more, ?_, hbegan, heq⟩
  rw [← hmore, hhistory]
  simp

theorem history_step {a : EngineAction} (hs : e.step a = some e') (hcrash : a ≠ .crash) :
    e.history <+: e'.history := by
  cases step_effect hs with
  | call l h =>
    rw [Engine.history, Engine.history, h.applied, List.map_append, List.reverse_append]
    exact List.prefix_append _ _
  | setTTL => exact List.prefix_refl _
  | background happlied _ =>
    rw [Engine.history, Engine.history, happlied]
  | crash => exact absurd rfl hcrash

/-- The look of a read keeps what it knows, at a state whose operations are among those so far. -/
theorem saw_look {p : Engine} (h : r.Saw keys e) (htracks : r.Tracks keys p)
    (hle : p.history <+: e.history) : (r.look p).Saw keys e := by
  unfold OpenRead.look
  cases hseen : r.seen with
  | some m => exact h
  | none =>
    intro m hm
    obtain ⟨past, done, rest, hhistory, hbegan, hobject, -⟩ := htracks
    have heq : m = done.foldl MemTable.apply r.view.mem := Option.some.inj (hm.symm.trans hobject)
    obtain ⟨more, hmore⟩ := hle
    refine ⟨past, done, rest ++ more, ?_, ⟨hbegan.begun, hbegan.found⟩, heq⟩
    rw [← hmore, hhistory]
    simp

theorem tracks_look (p : Engine) (h : r.Tracks keys e) : (r.look p).Tracks keys e := by
  unfold OpenRead.look
  cases r.seen with
  | some m => exact h
  | none =>
    obtain ⟨past, done, rest, hhistory, hbegan, hobject⟩ := h
    exact ⟨past, done, rest, hhistory, ⟨hbegan.begun, hbegan.found⟩, hobject⟩

/-- A read begins only where its view shows the keys, and the engine spares them. -/
def InFlight.Shows (keys : Set TsKey) (s : InFlight) : InFlightAction → Prop
  | .engine a _ => s.engine.Spares keys a
  | .capture => ∀ key ∈ keys, s.engine.Shown key
  | _ => True

structure InFlightInv (keys : Set TsKey) (s : InFlight) : Prop where
  spared : SparedInv keys s.engine
  reads : ∀ r ∈ s.reads, r.Tracks keys s.engine ∧ r.Saw keys s.engine

theorem mem_modify_cases {α : Type} {f : α → α} {l : List α} {i : ℕ} {x : α} (h : x ∈ l.modify i f) :
    x ∈ l ∨ ∃ y ∈ l, x = f y := by
  obtain ⟨j, hj⟩ := List.mem_iff_getElem?.mp h
  rw [List.getElem?_modify] at hj
  obtain ⟨y, hy, rfl⟩ := Option.map_eq_some_iff.mp hj
  have hmem := List.mem_of_getElem? hy
  split_ifs
  · exact Or.inr ⟨y, hmem, rfl⟩
  · exact Or.inl hmem

theorem reads_modify {p : Engine} {i : ℕ} {reads : List OpenRead}
    (h : ∀ r ∈ reads, r.Tracks keys e ∧ r.Saw keys e) (hp : ∀ r ∈ reads, r.Tracks keys p)
    (hle : p.history <+: e.history) :
    ∀ r ∈ reads.modify i fun r => r.look p, r.Tracks keys e ∧ r.Saw keys e := by
  intro r hr
  rcases mem_modify_cases hr with hold | ⟨r₀, hold, rfl⟩
  · exact h r hold
  · exact ⟨tracks_look p (h r₀ hold).1, saw_look (h r₀ hold).2 (hp r₀ hold) hle⟩

theorem lookDuring_eq (passes : List Engine) (reads : List OpenRead) (d : ℕ × ℕ) :
    lookDuring passes reads d = reads ∨
      ∃ p ∈ passes, lookDuring passes reads d = reads.modify d.1 fun r => r.look p := by
  unfold lookDuring
  cases hp : passes[d.2]? with
  | none => exact Or.inl rfl
  | some p => exact Or.inr ⟨p, List.mem_of_getElem? hp, rfl⟩

theorem reads_lookDuring {passes : List Engine} {during : List (ℕ × ℕ)} {reads : List OpenRead}
    (h : ∀ r ∈ reads, r.Tracks keys e ∧ r.Saw keys e)
    (hp : ∀ p ∈ passes, p.history <+: e.history ∧ ∀ r ∈ reads, r.Tracks keys p) :
    ∀ r ∈ during.foldl (lookDuring passes) reads, r.Tracks keys e ∧ r.Saw keys e := by
  induction during generalizing reads with
  | nil => exact h
  | cons d during ih =>
    rw [List.foldl_cons]
    rcases lookDuring_eq passes reads d with heq | ⟨p, hmem, heq⟩
    · rw [heq]
      exact ih h hp
    · rw [heq]
      obtain ⟨hle, htracks⟩ := hp p hmem
      apply ih
      · exact reads_modify h htracks hle
      · intro p' hp'
        refine ⟨(hp p' hp').1, fun r hr => ?_⟩
        rcases mem_modify_cases hr with hold | ⟨r₀, hold, rfl⟩
        · exact (hp p' hp').2 r hold
        · exact tracks_look p ((hp p' hp').2 r₀ hold)

theorem inFlightInv_step {s s' : InFlight} {a : InFlightAction} (h : InFlightInv keys s)
    (hstored : ∀ key ∈ keys, key.Stored) (hok : s.Shows keys a) (hs : s.step a = some s') :
    InFlightInv keys s' := by
  cases a with
  | engine a during =>
    simp only [InFlight.step] at hs
    split_ifs at hs with hcrash
    obtain ⟨e', hstep, rfl⟩ := Option.map_eq_some_iff.mp hs
    have hne : a ≠ .crash := by
      rintro rfl
      exact hcrash rfl
    refine ⟨sparedInv_step h.spared hstored hok hstep, ?_⟩
    refine reads_lookDuring (fun r hr => ?_) fun p hp => ⟨history_passes hstep hp, fun r hr => ?_⟩
    · obtain ⟨htracks, hsaw⟩ := h.reads r hr
      exact ⟨tracks_step htracks hstep hne, saw_of_prefix hsaw (history_step hstep hne)⟩
    · exact (callRule_tracks keys r).passes (h.reads r hr).1 hp
  | capture =>
    simp only [InFlight.step] at hs
    split_ifs at hs with hlocks
    obtain rfl := Option.some.inj hs
    refine ⟨h.spared, fun r hr => ?_⟩
    rcases List.mem_append.mp hr with hr | hr
    · exact h.reads r hr
    · obtain rfl := List.mem_singleton.mp hr
      refine ⟨⟨s.engine.history, [], [], by simp, ⟨rfl, fun key hkey => ?_⟩, ?_, fun _ => rfl⟩, ?_⟩
      · have hfree : s.engine.flush.locks = false := by simpa using hlocks
        rw [found_captureReadView h.spared.engine,
          head?_viewed h.spared.engine hfree (hok key hkey), h.spared.newest key hkey, lastIn_history]
      · exact memTables_last s.engine
      · intro m hm
        contradiction
  | look i =>
    obtain rfl := Option.some.inj hs
    exact ⟨h.spared, reads_modify h.reads (fun r hr => (h.reads r hr).1) (List.prefix_refl _)⟩
  | finish i =>
    obtain rfl := Option.some.inj hs
    exact ⟨h.spared, fun r hr => h.reads r (List.mem_of_mem_eraseIdx hr)⟩

theorem inFlightInv_run {db_dir : Bytes} {limit : Int64} {target : ℕ}
    (hstored : ∀ key ∈ keys, key.Stored) {s : InFlight}
    (h : Reach InFlight.step (InFlight.Shows keys) ⟨Engine.start db_dir limit target, []⟩ s) :
    InFlightInv keys s :=
  h.invariant (I := InFlightInv keys)
    ⟨sparedInv_start keys db_dir limit target, fun _ hr => absurd hr List.not_mem_nil⟩
    fun _ _ _ hi hok hs => inFlightInv_step hi hstored hok hs

/-- What a read has looked at is what the operations up to one point have left. -/
theorem shown_point {s : InFlight} (h : InFlightInv keys s) {r : OpenRead} (hr : r ∈ s.reads)
    {view : ReadView} (hview : r.shown = some view) :
    ∃ n, r.begun ≤ n ∧ n ≤ s.engine.history.length ∧ ∀ key ∈ keys,
      view.get key = if isExpiredInMap r.view.ttl_map key.measurement key.timestamp then none
        else (lastIn (s.engine.history.take n) key).bind InternalEntry.read := by
  obtain ⟨m, hm, rfl⟩ := Option.map_eq_some_iff.mp hview
  obtain ⟨past, done, rest, hhistory, hbegan, rfl⟩ := (h.reads r hr).2 m hm
  refine ⟨(past ++ done).length, ?_, ?_, fun key hkey => ?_⟩
  · rw [← hbegan.begun, List.length_append]
    omega
  · have hlength := congrArg List.length hhistory
    simp only [List.length_append] at hlength ⊢
    omega
  · rw [hhistory, ← List.append_assoc, List.take_left, lastIn_append, ReadView.get_eq_found,
      found_foldl_apply, hbegan.found key hkey]

/-- Each `Get` whose view shows its key takes effect at one point between the view and the answer:
it returns what the operations applied up to there have left of the key, or nothing where its
view has the key expired. -/
theorem gets_linearize (db_dir : Bytes) (limit : Int64) (target : ℕ)
    (hstored : ∀ key ∈ keys, key.Stored) {s : InFlight}
    (h : Reach InFlight.step (InFlight.Shows keys) ⟨Engine.start db_dir limit target, []⟩ s) :
    ∀ r ∈ s.reads, r.seen.isSome = true → ∃ n, r.begun ≤ n ∧ n ≤ s.engine.history.length ∧
      ∀ key ∈ keys, r.get key = some
        (if isExpiredInMap r.view.ttl_map key.measurement key.timestamp then none
          else (lastIn (s.engine.history.take n) key).bind InternalEntry.read) := by
  intro r hr hseen
  obtain ⟨m, hm⟩ := Option.isSome_iff_exists.mp hseen
  have hview : r.shown = some { r.view with mem := m } := by rw [OpenRead.shown, hm]; rfl
  obtain ⟨n, hbegun, hlength, hget⟩ := shown_point (inFlightInv_run hstored h) hr hview
  refine ⟨n, hbegun, hlength, fun key hkey => ?_⟩
  rw [OpenRead.get, hview, Option.map_some, hget key hkey]

/-- The steps of the two runs below: no crash, no compaction, no view during a flush. -/
def InFlight.calm (s : InFlight) : InFlightAction → Bool
  | .engine a _ => !a.isCrash && !a.picks
  | .capture => s.engine.flush == .idle
  | _ => true

theorem InFlight.calm.shows {s : InFlight} {a : InFlightAction} (h : s.calm a = true)
    (keys : Set TsKey) : s.Shows keys a := by
  cases a with
  | engine a during =>
    obtain ⟨hcrash, hpicks⟩ := Bool.and_eq_true_iff.mp h
    refine ⟨by simpa using hcrash, fun hpick => ?_⟩
    simp [hpick] at hpicks
  | capture => exact fun key _ => shown_of_idle (eq_of_beq h) key
  | look i => trivial
  | finish i => trivial

/-- A look between the two operations of a batch. -/
def lookedInBatch : List InFlightAction :=
  [.engine (.put (ascii "cpu") 1 (ascii "a")) [], .capture,
    .engine (.write [.put (ascii "cpu") 1 (ascii "b"), .put (ascii "cpu") 1 (ascii "c")]) [(0, 0)]]

theorem gets_linearize_lookedInBatch : ∃ s,
    Reach InFlight.step (InFlight.Shows {⟨ascii "cpu", 1⟩}) ⟨Engine.start (ascii "db") 1000 0, []⟩ s ∧
      s.reads.map (fun r => r.get ⟨ascii "cpu", 1⟩) = [some (some (ascii "b"))] ∧
      s.engine.get ⟨ascii "cpu", 1⟩ = some (ascii "c") ∧
      ∀ r ∈ s.reads, r.seen.isSome = true → ∃ n, r.begun ≤ n ∧ n ≤ s.engine.history.length ∧
        ∀ key ∈ ({⟨ascii "cpu", 1⟩} : Set TsKey), r.get key = some
          (if isExpiredInMap r.view.ttl_map key.measurement key.timestamp then none
            else (lastIn (s.engine.history.take n) key).bind InternalEntry.read) := by
  have hrun : ((lookedInBatch.foldlM (guarded InFlight.step fun s a => s.calm a = true)
      ⟨Engine.start (ascii "db") 1000 0, []⟩).map fun s =>
        (s.reads.map fun r => r.get ⟨ascii "cpu", 1⟩, s.engine.get ⟨ascii "cpu", 1⟩)) =
      some ([some (some (ascii "b"))], some (ascii "c")) := by decide +kernel
  obtain ⟨s, hs, hstate⟩ := Option.map_eq_some_iff.mp hrun
  obtain ⟨hreads, hget⟩ := Prod.mk.inj hstate
  have hreach := (reach_of_foldlM hs).mono fun s a h => InFlight.calm.shows h {⟨ascii "cpu", 1⟩}
  refine ⟨s, hreach, hreads, hget, gets_linearize (ascii "db") 1000 0 ?_ hreach⟩
  intro key hkey
  rw [Set.mem_singleton_iff.mp hkey]
  decide +kernel

/-- Each `RangeQuery` whose view shows its keys is a snapshot of one point between the view and
the answer: by ascending time, the points of the range that the operations applied up to there
have left and that its view does not have expired. -/
theorem ranges_linearize (db_dir : Bytes) (limit : Int64) (target : ℕ)
    (hstored : ∀ key ∈ keys, key.Stored) {s : InFlight}
    (h : Reach InFlight.step (InFlight.Shows keys) ⟨Engine.start db_dir limit target, []⟩ s) :
    ∀ r ∈ s.reads, ∀ view, r.shown = some view → ∀ fv : FileView, fv.Opens view →
      ∃ n, r.begun ≤ n ∧ n ≤ s.engine.history.length ∧
        ∀ measurement t_start t_end, (∀ t, t_start ≤ t → t ≤ t_end → ⟨measurement, t⟩ ∈ keys) →
          Ascending Record.key (fv.rangeQuery measurement t_start t_end) ∧
          ∀ record, record ∈ fv.rangeQuery measurement t_start t_end ↔ ∃ t v,
            record = ⟨measurement, t, v, false⟩ ∧ t_start ≤ t ∧ t ≤ t_end ∧
            isExpiredInMap r.view.ttl_map measurement t = false ∧
            (lastIn (s.engine.history.take n) ⟨measurement, t⟩).bind InternalEntry.read = some v := by
  intro r hr view hview fv hopens
  obtain ⟨n, hbegun, hlength, hget⟩ := shown_point (inFlightInv_run hstored h) hr hview
  refine ⟨n, hbegun, hlength, fun measurement t_start t_end hkeys => ?_⟩
  have hintact : fv.Intact := intact_of_opens hopens.files hopens.few
  refine ⟨ascending_rangeQuery hintact measurement t_start t_end, fun record => ?_⟩
  refine (mem_rangeQuery_iff_get hintact measurement t_start t_end record).trans ?_
  refine exists_congr fun t => exists_congr fun v => and_congr_right fun _ =>
    and_congr_right fun hstart => and_congr_right fun hend => ?_
  rw [hopens.get, hget _ (hkeys t hstart hend), Option.some_inj]
  cases isExpiredInMap r.view.ttl_map measurement t <;> simp

def onePoint : List (TsKey × InternalEntry) := [(⟨ascii "cpu", 1⟩, ⟨ascii "a", .kValue⟩)]

/-- No file but of the one point. -/
def ReadView.OnePoint (view : ReadView) : Prop :=
  ∀ l, (view.levels l).length ≤ 1 ∧ ∀ ref ∈ view.levels l,
    ref.reader.table.entries = onePoint ∧
      ref.file.smallest = ⟨ascii "cpu", 1⟩ ∧ ref.file.largest = ⟨ascii "cpu", 1⟩

instance : DecidablePred ReadView.OnePoint := fun view => by unfold ReadView.OnePoint; infer_instance

theorem exists_opens_onePoint {view : ReadView} (h : view.OnePoint) : ∃ fv : FileView, fv.Opens view := by
  have hopens : ∀ l, ∃ refs, List.Forall₂ FileRef.Opens refs (view.levels l) := by
    intro l
    apply exists_forall₂
    rintro ⟨file, reader⟩ href
    obtain ⟨hentries, hsmall, hlarge⟩ := (h l).2 _ href
    have hascending : Ascending Prod.fst onePoint := List.pairwise_singleton _ _
    have hfits : ∀ e ∈ onePoint, FitsEntry e := by
      unfold FitsEntry
      decide +kernel
    obtain ⟨opened, hbuilt⟩ := exists_builtFrom file 4096 hascending hfits (by decide +kernel)
      (by decide) (by rw [hsmall, hlarge]; simp [onePoint])
    refine ⟨⟨file, opened⟩, rfl, 4096, ?_⟩
    rw [hentries]
    exact hbuilt
  choose refs hrefs using hopens
  refine ⟨⟨view.mem, view.imm, refs, view.ttl_map⟩, rfl, rfl, rfl, hrefs, fun l => ?_⟩
  rw [(hrefs l).length_eq]
  exact ((h l).1).trans_lt (by norm_num)

/-- A point in a file, a view, a later point in the memtable of the view, and the look. -/
def lookedLater : List InFlightAction :=
  [.engine (.put (ascii "cpu") 1 (ascii "a")) [], .engine .flush [], .engine .takeImm [],
    .engine .buildSST [], .engine .logFlush [], .engine .finishFlush [], .capture,
    .engine (.put (ascii "cpu") 2 (ascii "b")) [], .look 0]

theorem ranges_linearize_lookedLater : ∃ s,
    Reach InFlight.step (InFlight.Shows {key | key.measurement = ascii "cpu"})
        ⟨Engine.start (ascii "db") 1000 0, []⟩ s ∧
      ∃ r ∈ s.reads, ∃ view, r.shown = some view ∧ r.begun = 1 ∧ s.engine.history.length = 2 ∧
      ∃ fv : FileView, fv.Opens view ∧ ∃ n, r.begun ≤ n ∧ n ≤ s.engine.history.length ∧
        Ascending Record.key (fv.rangeQuery (ascii "cpu") 0 5) ∧
        ∀ record, record ∈ fv.rangeQuery (ascii "cpu") 0 5 ↔ ∃ t v,
          record = ⟨ascii "cpu", t, v, false⟩ ∧ 0 ≤ t ∧ t ≤ 5 ∧
          isExpiredInMap r.view.ttl_map (ascii "cpu") t = false ∧
          (lastIn (s.engine.history.take n) ⟨ascii "cpu", t⟩).bind InternalEntry.read = some v := by
  have hrun : ((lookedLater.foldlM (guarded InFlight.step fun s a => s.calm a = true)
      ⟨Engine.start (ascii "db") 1000 0, []⟩).map fun s => decide (s.engine.history.length = 2 ∧
        ∃ r ∈ s.reads, r.begun = 1 ∧ ∃ view ∈ r.shown, view.OnePoint)) = some true := by decide +kernel
  obtain ⟨s, hs, hlength, r, hr, hbegun, view, hview, hpoint⟩ := exists_of_map_decide hrun
  have hreach := (reach_of_foldlM hs).mono fun s a h =>
    InFlight.calm.shows h {key | key.measurement = ascii "cpu"}
  have hstored : ∀ key ∈ ({key | key.measurement = ascii "cpu"} : Set TsKey), key.Stored := by
    rintro ⟨measurement, t⟩ hkey
    obtain rfl : measurement = ascii "cpu" := hkey
    refine ⟨TsKey.le_iff.mpr (Or.inl ?_), TsKey.le_iff.mpr (Or.inl ?_)⟩
    · show ([] : Bytes) < ascii "cpu"
      decide +kernel
    · show ascii "cpu" < [255]
      decide +kernel
  obtain ⟨fv, hopens⟩ := exists_opens_onePoint hpoint
  obtain ⟨n, hle, hn, hrange⟩ := ranges_linearize (ascii "db") 1000 0 hstored hreach r hr view hview fv hopens
  exact ⟨s, hreach, r, hr, view, hview, hbegun, hlength, fv, hopens, n, hle, hn,
    hrange (ascii "cpu") 0 5 fun _ _ _ => rfl⟩

end MiniTsdb
