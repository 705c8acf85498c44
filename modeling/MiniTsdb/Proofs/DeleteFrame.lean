import MiniTsdb.Proofs.CallEffect

/-! A delete and the other keys: it leaves their data alone, but like any write it advances
the clock by which the TTL of its measurement is judged. -/

namespace MiniTsdb
open Lib

/-- The rules once the clock of the key's measurement has reached the key. -/
def TtlMap.advance (ttl_map : TtlMap) (key : TsKey) : TtlMap :=
  updateLatestTimestamp ttl_map key.measurement key.timestamp

def TtlMap.expired (ttl_map : TtlMap) (key : TsKey) : Bool :=
  isExpiredInMap ttl_map key.measurement key.timestamp

theorem keepsKey_eq (ttl_map : TtlMap) (key : TsKey) :
    keepsKey ttl_map key = !ttl_map.expired key := by
  unfold keepsKey keepRecordForCompaction TtlMap.expired isExpiredInMap
  cases ttl_map key.measurement <;> rfl

theorem expired_congr {ttl_map ttl_map' : TtlMap} {key : TsKey}
    (h : ttl_map' key.measurement = ttl_map key.measurement) :
    ttl_map'.expired key = ttl_map.expired key := by
  unfold TtlMap.expired isExpiredInMap
  rw [h]

/-- What `UpdateLatestTimestampUnlocked` makes of a rule. -/
def TtlRule.tick (rule : TtlRule) (timestamp : Int64) : TtlRule :=
  if rule.latest_timestamp < timestamp then { rule with latest_timestamp := timestamp } else rule

theorem updateLatestTimestamp_eq (ttl_map : TtlMap) (measurement : Bytes) (timestamp : Int64) :
    updateLatestTimestamp ttl_map measurement timestamp = Function.update ttl_map measurement
      (some (((ttl_map measurement).getD .default).tick timestamp)) := rfl

@[simp] theorem tick_ttl (rule : TtlRule) (t : Int64) :
    (rule.tick t).ttl_seconds = rule.ttl_seconds := by
  unfold TtlRule.tick
  split_ifs <;> rfl

theorem tick_latest (rule : TtlRule) (t : Int64) :
    (rule.tick t).latest_timestamp.toInt = max rule.latest_timestamp.toInt t.toInt := by
  unfold TtlRule.tick
  split_ifs with h
  · exact (max_eq_right (Int64.lt_iff_toInt_lt.mp h).le).symm
  · exact (max_eq_left (not_lt.mp fun hlt => h (Int64.lt_iff_toInt_lt.mpr hlt))).symm

theorem rule_ext {rule rule' : TtlRule} (httl : rule.ttl_seconds = rule'.ttl_seconds)
    (hlatest : rule.latest_timestamp.toInt = rule'.latest_timestamp.toInt) : rule = rule' := by
  cases rule
  cases rule'
  simp_all [Int64.toInt_inj]

theorem tick_tick (rule : TtlRule) (t t' : Int64) : (rule.tick t).tick t' = (rule.tick t').tick t := by
  apply rule_ext
  · simp
  · rw [tick_latest, tick_latest, tick_latest, tick_latest, max_right_comm]

theorem advance_updateLatestTimestamp (ttl_map : TtlMap) (key : TsKey) (m : Bytes) (t : Int64) :
    updateLatestTimestamp (ttl_map.advance key) m t =
      (updateLatestTimestamp ttl_map m t).advance key := by
  rw [TtlMap.advance, TtlMap.advance]
  simp only [updateLatestTimestamp_eq]
  by_cases hm : m = key.measurement
  · subst hm
    simp [tick_tick]
  · rw [Function.update_of_ne hm, Function.update_of_ne (Ne.symm hm), Function.update_comm hm]

theorem advance_setTTL (ttl_map : TtlMap) (key : TsKey) (m : Bytes) (ttl_seconds : Int64) :
    setTTL (ttl_map.advance key) m ttl_seconds = (setTTL ttl_map m ttl_seconds).advance key := by
  rw [TtlMap.advance, TtlMap.advance, updateLatestTimestamp_eq, updateLatestTimestamp_eq]
  unfold setTTL
  dsimp only
  by_cases hm : m = key.measurement
  · subst hm
    simp only [Function.update_self, Function.update_idem, Option.getD_some]
    congr 2
    apply rule_ext
    · simp
    · simp [tick_latest]
  · rw [Function.update_of_ne hm, Function.update_of_ne (Ne.symm hm), Function.update_comm hm]

theorem advance_clocksAfter (ttl_map : TtlMap) (key : TsKey) (ops : List Operation) :
    clocksAfter (ttl_map.advance key) ops = (clocksAfter ttl_map ops).advance key := by
  induction ops with
  | nil => rfl
  | cons op ops ih => simp [clocksAfter, ih, advance_updateLatestTimestamp]

/-- The rules of a reopened directory, from the operations in its log. -/
def replayedClocks (log : List Operation) : TtlMap :=
  ((log.map Operation.walEntry).foldl replayHandler (.new, fun _ => none)).2

theorem foldl_replayHandler_snd (log : List Operation) (s : MemTable × TtlMap) :
    ((log.map Operation.walEntry).foldl replayHandler s).2 = clocksAfter s.2 log.reverse := by
  induction log using List.reverseRecOn with
  | nil => rfl
  | append_singleton log op ih =>
    simp only [List.map_append, List.map_cons, List.map_nil, List.foldl_append, List.foldl_cons,
      List.foldl_nil, List.reverse_append, List.reverse_cons, List.reverse_nil, List.nil_append,
      List.singleton_append, clocksAfter, ← ih]
    rfl

theorem replayedClocks_eq (log : List Operation) :
    replayedClocks log = clocksAfter (fun _ => none) log.reverse := foldl_replayHandler_snd log _

theorem clocksAfter_append (ttl_map : TtlMap) (ops ops' : List Operation) :
    clocksAfter ttl_map (ops ++ ops') = clocksAfter (clocksAfter ttl_map ops') ops := by
  induction ops with
  | nil => rfl
  | cons op ops ih => simp [clocksAfter, ih]

theorem replayedClocks_delete (key : TsKey) (before after : List Operation) :
    replayedClocks (before ++ .delete key.measurement key.timestamp :: after) =
      (replayedClocks (before ++ after)).advance key := by
  have hdelete : ∀ rules : TtlMap, clocksAfter rules [.delete key.measurement key.timestamp] =
      rules.advance key := fun _ => rfl
  rw [replayedClocks_eq, replayedClocks_eq, List.reverse_append, List.reverse_append,
    List.reverse_cons]
  simp only [clocksAfter_append, hdelete, advance_clocksAfter]

/-- What changes the rules of two runs, the second of which has a Delete of the key behind it:
a write, `SetTTL`, or opening the directory again, with that Delete in the log or not. -/
inductive ClockStep (key : TsKey) : TtlMap × TtlMap → TtlMap × TtlMap → Prop
  | write (rules rules' : TtlMap) (m : Bytes) (t : Int64) : ClockStep key (rules, rules')
      (updateLatestTimestamp rules m t, updateLatestTimestamp rules' m t)
  | setTTL (rules rules' : TtlMap) (m : Bytes) (ttl_seconds : Int64) : ClockStep key (rules, rules')
      (setTTL rules m ttl_seconds, setTTL rules' m ttl_seconds)
  | reopen (rules rules' : TtlMap) (log : List Operation) : ClockStep key (rules, rules')
      (replayedClocks log, replayedClocks log)
  | reopenLogged (rules rules' : TtlMap) (before after : List Operation) :
      ClockStep key (rules, rules') (replayedClocks (before ++ after),
        replayedClocks (before ++ .delete key.measurement key.timestamp :: after))

/-- The rules of the second run are those of the first, or these with the clock advanced. -/
theorem advance_of_clockSteps {key : TsKey} {start now : TtlMap × TtlMap}
    (h : Relation.ReflTransGen (ClockStep key) start now)
    (hstart : start.2 = start.1 ∨ start.2 = start.1.advance key) :
    now.2 = now.1 ∨ now.2 = now.1.advance key := by
  induction h with
  | refl => exact hstart
  | tail _ hstep ih =>
    cases hstep with
    | write rules rules' m t =>
      obtain (rfl : rules' = rules) | (rfl : rules' = rules.advance key) := ih
      · exact Or.inl rfl
      · exact Or.inr (advance_updateLatestTimestamp rules key m t)
    | setTTL rules rules' m ttl_seconds =>
      obtain (rfl : rules' = rules) | (rfl : rules' = rules.advance key) := ih
      · exact Or.inl rfl
      · exact Or.inr (advance_setTTL rules key m ttl_seconds)
    | reopen rules rules' log => exact Or.inl rfl
    | reopenLogged rules rules' before after =>
      exact Or.inr (replayedClocks_delete key before after)

theorem clockSteps_writes (key : TsKey) (rules rules' : TtlMap) (ops : List Operation) :
    Relation.ReflTransGen (ClockStep key) (rules, rules') (clocksAfter rules ops, clocksAfter rules' ops) := by
  induction ops with
  | nil => exact .refl
  | cons op ops ih => exact ih.tail (.write _ _ op.measurement op.timestamp)

section
variable {key : TsKey} {e e' d d' : Engine} {a b : EngineAction}

/-- Steps of two engines that apply the same operations. -/
theorem clockSteps_of_steps {l l' : List (ℕ × Operation)} (he : e.step a = some e')
    (hd : d.step b = some d') (ha : a.ordinary = true) (hb : b.ordinary = true)
    (hl : e'.applied = l ++ e.applied) (hl' : d'.applied = l' ++ d.applied)
    (hsame : l.map Prod.snd = l'.map Prod.snd) :
    Relation.ReflTransGen (ClockStep key) (e.ttl_map, d.ttl_map) (e'.ttl_map, d'.ttl_map) := by
  rw [clocks_of_step he ha hl, clocks_of_step hd hb hl', hsame]
  exact clockSteps_writes key _ _ _

theorem setTTL_of_step {m : Bytes} {ttl_seconds : Int64} (hs : e.step (.setTTL m ttl_seconds) = some e') :
    e'.ttl_map = setTTL e.ttl_map m ttl_seconds := by
  unfold Engine.step at hs
  split_ifs at hs
  rw [← Option.some.inj hs]

theorem clockStep_of_setTTL {m : Bytes} {ttl_seconds : Int64}
    (he : e.step (.setTTL m ttl_seconds) = some e') (hd : d.step (.setTTL m ttl_seconds) = some d') :
    ClockStep key (e.ttl_map, d.ttl_map) (e'.ttl_map, d'.ttl_map) := by
  rw [setTTL_of_step he, setTTL_of_step hd]
  exact .setTTL _ _ m ttl_seconds

theorem clocks_crash {log : List Operation} (h : e.wal.replayEntries.1 = log.map Operation.walEntry) :
    e.crash.ttl_map = replayedClocks log := by
  rw [replayedClocks, ← h]
  rfl

/-- Two directories opened again, with logs that agree but for the Delete. -/
theorem clockStep_of_crash {before after : List Operation}
    (he : e.wal.replayEntries.1 = (before ++ after).map Operation.walEntry)
    (hd : d.wal.replayEntries.1 = (before ++ after).map Operation.walEntry ∨
      d.wal.replayEntries.1 =
        (before ++ .delete key.measurement key.timestamp :: after).map Operation.walEntry) :
    ClockStep key (e.ttl_map, d.ttl_map) (e.crash.ttl_map, d.crash.ttl_map) := by
  rw [clocks_crash he]
  rcases hd with hd | hd
  · rw [clocks_crash hd]
    exact .reopen _ _ _
  · rw [clocks_crash hd]
    exact .reopenLogged _ _ before after

end

/-- The clock of the key's measurement has reached the key, or nothing of it can expire. -/
def TtlMap.Reached (ttl_map : TtlMap) (key : TsKey) : Prop :=
  ∀ rule, ttl_map key.measurement = some rule →
    key.timestamp ≤ rule.latest_timestamp ∨ rule.ttl_seconds ≤ 0

theorem expired_advance_other {ttl_map : TtlMap} {key other : TsKey}
    (h : other.measurement ≠ key.measurement) :
    (ttl_map.advance key).expired other = ttl_map.expired other :=
  expired_congr (Function.update_of_ne h _ _)

theorem expired_advance_reached {ttl_map : TtlMap} {key : TsKey} (h : ttl_map.Reached key)
    (other : TsKey) : (ttl_map.advance key).expired other = ttl_map.expired other := by
  by_cases hm : other.measurement = key.measurement
  · unfold TtlMap.expired isExpiredInMap
    rw [hm, TtlMap.advance, updateLatestTimestamp_eq, Function.update_self]
    cases hrule : ttl_map key.measurement with
    | none =>
      unfold isExpiredByRule
      simp [TtlRule.default]
    | some rule =>
      rcases h rule hrule with hle | hoff
      · have hkeep : rule.tick key.timestamp = rule := by
          rw [TtlRule.tick, if_neg]
          rw [Int64.lt_iff_toInt_lt]
          exact not_lt.mpr (Int64.le_iff_toInt_le.mp hle)
        simp [hkeep]
      · unfold isExpiredByRule
        simp [hoff]
  · exact expired_advance_other hm

/-- Where a merge finds the newest record of a key, before its filter. -/
def newestRecord (inputs : List (List Record)) (key : TsKey) : Option Record :=
  inputs.reverse.findSome? fun records => records.find? fun r => r.key = key

theorem find?_mergeRecords {inputs : List (List Record)} (h : ∀ xs ∈ inputs, Ascending Record.key xs)
    (ttl_map : TtlMap) (key : TsKey) :
    ((mergeRecords (fun r => keepRecordForCompaction r ttl_map) inputs).find? fun r => r.key = key) =
      if ttl_map.expired key then none else newestRecord inputs key := by
  have hasc : ∀ xs ∈ inputs.map fun records => records.filter fun r =>
      keepRecordForCompaction r ttl_map, Ascending Record.key xs := by
    intro xs hxs
    obtain ⟨records, hrecords, rfl⟩ := List.mem_map.mp hxs
    exact (h records hrecords).filter _
  rw [mergeRecords, find?_mergeRanked hasc, ← List.map_reverse, List.findSome?_map]
  simp only [Function.comp_def, keepRecord_eq, find?_filter_key (keepsKey ttl_map)]
  rw [keepsKey_eq]
  cases ttl_map.expired key <;> simp [newestRecord]

theorem mem_mergeRecords {inputs : List (List Record)} (h : ∀ xs ∈ inputs, Ascending Record.key xs)
    (ttl_map : TtlMap) (r : Record) :
    r ∈ mergeRecords (fun r => keepRecordForCompaction r ttl_map) inputs ↔
      ttl_map.expired r.key = false ∧ newestRecord inputs r.key = some r := by
  have hasc : Ascending Record.key (mergeRecords (fun r => keepRecordForCompaction r ttl_map) inputs) :=
    ascending_mergeRanked fun xs hxs => by
      obtain ⟨records, hrecords, rfl⟩ := List.mem_map.mp hxs
      exact ((h records hrecords).filter _).nodup_map
  have hmem := hasc.find?_eq_some_iff (k := r.key) (r := r)
  rw [find?_mergeRecords h] at hmem
  simpa [and_comm] using hmem.symm

/-- A step in which a Delete takes effect. The stored value of another key stays; a read finds it
judged by the rules with the clock of the deleted key's measurement advanced to it. A later
compaction of the same records keeps what it would keep in a run without the Delete, but for
records of that measurement that are expired by its advanced clock. -/
theorem delete_frame {e e' : Engine} {a : EngineAction} {id : ℕ} {key other : TsKey}
    (hs : e.step a = some e') (hother : other ≠ key)
    (happlied : e'.applied = (id, .delete key.measurement key.timestamp) :: e.applied) :
    e'.stored other = e.stored other ∧
    e'.get other = (if (e.ttl_map.advance key).expired other then none else e.stored other) ∧
    (e'.get other = e.get other ↔
      (e.ttl_map.advance key).expired other = e.ttl_map.expired other ∨ e.stored other = none) ∧
    (other.measurement ≠ key.measurement ∨ e.ttl_map.Reached key → e'.get other = e.get other) ∧
    ∀ now, Relation.ReflTransGen (ClockStep key) (e.ttl_map, e'.ttl_map) now →
      ∀ inputs inputs' : List (List Record), (∀ xs ∈ inputs, Ascending Record.key xs) →
        (∀ xs ∈ inputs', Ascending Record.key xs) →
        newestRecord inputs' other = newestRecord inputs other →
        ∀ r ∈ mergeRecords (fun r => keepRecordForCompaction r now.1) inputs, r.key = other →
          r ∈ mergeRecords (fun r => keepRecordForCompaction r now.2) inputs' ∨
            other.measurement = key.measurement ∧ ¬ now.1.Reached key ∧
              (now.1.advance key).expired other = true := by
  have hstep := applied_of_step (l := [(id, .delete key.measurement key.timestamp)]) hs
    (List.cons_ne_nil _ _) happlied
  have hclocks : e'.ttl_map = e.ttl_map.advance key := hstep.clocks
  have hstored : e'.stored other = e.stored other := hstep.stored other fun b hb => by
    rw [List.mem_singleton.mp hb]
    exact hother
  have hget : e'.get other =
      if (e.ttl_map.advance key).expired other then none else e.stored other := by
    rw [get_eq_stored, hclocks, hstored]
    rfl
  have hiff : e'.get other = e.get other ↔
      (e.ttl_map.advance key).expired other = e.ttl_map.expired other ∨ e.stored other = none := by
    have hold : e.get other = if e.ttl_map.expired other then none else e.stored other := rfl
    rw [hget, hold]
    cases (e.ttl_map.advance key).expired other <;> cases e.ttl_map.expired other <;>
      simp [eq_comm]
  refine ⟨hstored, hget, hiff, fun h => hiff.mpr (Or.inl ?_), ?_⟩
  · exact h.elim expired_advance_other fun hreached => expired_advance_reached hreached other
  · intro now hnow inputs inputs' hasc hasc' hsame r hr hkey
    obtain ⟨hlive, hnewest⟩ := (mem_mergeRecords hasc now.1 r).mp hr
    rw [hkey] at hlive hnewest
    rw [mem_mergeRecords hasc', hkey, hsame]
    obtain heq | heq := advance_of_clockSteps hnow (Or.inr hclocks)
    · rw [heq]
      exact Or.inl ⟨hlive, hnewest⟩
    · rw [heq]
      by_cases hexpired : (now.1.advance key).expired other = true
      · refine Or.inr ⟨?_, fun hreached => ?_, hexpired⟩
        · by_contra hm
          rw [expired_advance_other hm, hlive] at hexpired
          contradiction
        · rw [expired_advance_reached hreached, hlive] at hexpired
          contradiction
      · exact Or.inl ⟨by simpa using hexpired, hnewest⟩

/-- A value of `cpu` at time 0 with a TTL of ten seconds, and a Delete at time `t`. -/
def deletedAfter (t : Int64) : Option (Engine × Engine) :=
  ([EngineAction.put (ascii "cpu") 0 (ascii "v"), .setTTL (ascii "cpu") 10].foldlM Engine.step
    (Engine.start (ascii "db") 1000 0)).bind fun e =>
      (e.step (.delete (ascii "cpu") t)).map fun e' => (e, e')

theorem delete_frame_reached : ∃ e e' : Engine, e.step (.delete (ascii "cpu") (-1)) = some e' ∧
    e.get ⟨ascii "cpu", 0⟩ = some (ascii "v") ∧ e'.get ⟨ascii "cpu", 0⟩ = e.get ⟨ascii "cpu", 0⟩ := by
  have hrun : (deletedAfter (-1)).map (fun s => (s.1.get ⟨ascii "cpu", 0⟩,
      s.1.ttl_map (ascii "cpu"), s.2.applied == (1, .delete (ascii "cpu") (-1)) :: s.1.applied)) =
      some (some (ascii "v"), some ⟨10, 0⟩, true) := by decide +kernel
  obtain ⟨⟨e, e'⟩, hs, hstate⟩ := Option.map_eq_some_iff.mp hrun
  simp only [Prod.mk.injEq, beq_iff_eq] at hstate
  obtain ⟨hget, hrule, happlied⟩ := hstate
  obtain ⟨e₁, -, hs⟩ := Option.bind_eq_some_iff.mp hs
  obtain ⟨e₂, hstep, heq⟩ := Option.map_eq_some_iff.mp hs
  obtain ⟨rfl, rfl⟩ := Prod.mk.inj heq
  have hreached : e₁.ttl_map.Reached ⟨ascii "cpu", -1⟩ := by
    intro rule hr
    obtain rfl : (⟨10, 0⟩ : TtlRule) = rule := Option.some.inj (hrule.symm.trans hr)
    exact Or.inl (by decide)
  have hother : (⟨ascii "cpu", 0⟩ : TsKey) ≠ ⟨ascii "cpu", -1⟩ := by decide
  exact ⟨e₁, e₂, hstep, hget, (delete_frame hstep hother happlied).2.2.2.1 (Or.inr hreached)⟩

/-- A Delete at 100 s, of a key that was never written, expires the value at time 0, and a
compaction that is picked then drops its record. -/
theorem delete_expires_others : ∃ e e' : Engine,
    Reach Engine.step (fun _ a => a.isCrash = false) (Engine.start (ascii "db") 1000 0) e ∧
    e.step (.delete (ascii "cpu") 100000000000) = some e' ∧ e'.calls = [] ∧
    e.get ⟨ascii "cpu", 0⟩ = some (ascii "v") ∧ e'.get ⟨ascii "cpu", 0⟩ = none ∧
    keepRecordForCompaction ⟨ascii "cpu", 0, ascii "v", false⟩ e.ttl_map = true ∧
    keepRecordForCompaction ⟨ascii "cpu", 0, ascii "v", false⟩ e'.ttl_map = false := by
  have hrun : (deletedAfter 100000000000).map (fun s => (s.1.get ⟨ascii "cpu", 0⟩,
      s.2.get ⟨ascii "cpu", 0⟩, s.2.calls,
      keepRecordForCompaction ⟨ascii "cpu", 0, ascii "v", false⟩ s.1.ttl_map,
      keepRecordForCompaction ⟨ascii "cpu", 0, ascii "v", false⟩ s.2.ttl_map)) =
      some (some (ascii "v"), none, [], true, false) := by decide +kernel
  obtain ⟨⟨e, e'⟩, hs, hstate⟩ := Option.map_eq_some_iff.mp hrun
  simp only [Prod.mk.injEq] at hstate
  obtain ⟨hget, hget', hcalls, hkeep, hkeep'⟩ := hstate
  obtain ⟨e₁, hrun₁, hs⟩ := Option.bind_eq_some_iff.mp hs
  obtain ⟨e₂, hstep, heq⟩ := Option.map_eq_some_iff.mp hs
  obtain ⟨rfl, rfl⟩ := Prod.mk.inj heq
  refine ⟨e₁, e₂, reach_foldlM ?_ hrun₁, hstep, hcalls, hget, hget', hkeep, hkeep'⟩
  intro a ha e
  simp only [List.mem_cons, List.not_mem_nil, or_false] at ha
  rcases ha with rfl | rfl <;> rfl

end MiniTsdb
