import MiniTsdb.Proofs.DeleteFrame
import MiniTsdb.Proofs.EngineReads
import MiniTsdb.Spec.RangeQuery
import MiniTsdb.Spec.TtlArithmetic

/-! Expiry as computed against expiry over the integers. The two agree, and nothing overflows,
exactly as long as the threshold fits into 64 bits on the way. -/

namespace MiniTsdb
open Lib

def TtlRule.exactThreshold (rule : TtlRule) : ℤ :=
  rule.latest_timestamp.toInt - rule.ttl_seconds.toInt * 10 ^ 9

/-- The clock has not run, or the TTL in nanoseconds and the threshold are `int64` values. -/
def TtlRule.Fits (rule : TtlRule) : Prop :=
  rule.latest_timestamp = Int64.minValue ∨
    rule.ttl_seconds.toInt * 10 ^ 9 < 2 ^ 63 ∧ -2 ^ 63 ≤ rule.exactThreshold

theorem toInt_pos_of {a : Int64} (h : 0 < a) : 0 < a.toInt := by
  rw [Int64.lt_iff_toInt_lt] at h
  exact h

theorem threshold_eq_some_iff {rule : TtlRule} (hpos : 0 < rule.ttl_seconds) {t : Int64} :
    rule.threshold = some t ↔ rule.ttl_seconds.toInt * 10 ^ 9 < 2 ^ 63 ∧
      t.toInt = rule.exactThreshold := by
  have hsec := toInt_pos_of hpos
  have hbillion : (1000000000 : Int64).toInt = 10 ^ 9 := by decide
  unfold TtlRule.threshold TtlRule.exactThreshold mulInt64 subInt64
  rw [hbillion]
  by_cases hfit : Fits64 (rule.ttl_seconds.toInt * 10 ^ 9)
  · simp only [checked_of_fits hfit, checked_eq_some_iff, toInt_ofInt_of_fits hfit, hfit.2, true_and]
  · simp only [checked_eq_none_iff.mpr hfit, reduceCtorEq, false_iff, not_and]
    intro hlt
    exact absurd ⟨by omega, hlt⟩ hfit

/-- Whether the test has a result does not depend on the timestamp. -/
theorem checked_exact_iff {rule : TtlRule} (hpos : 0 < rule.ttl_seconds) :
    (∀ t : Int64, checkedIsExpiredByRule rule t = some (decide (t.toInt < rule.exactThreshold))) ↔
      rule.Fits := by
  have hsec := toInt_pos_of hpos
  have hon : ¬ rule.ttl_seconds ≤ 0 := by
    rw [Int64.le_iff_toInt_le]
    exact not_le.mpr hsec
  unfold checkedIsExpiredByRule TtlRule.Fits
  by_cases hclock : rule.latest_timestamp = Int64.minValue
  · refine iff_of_true (fun t => ?_) (Or.inl hclock)
    have hlow := t.le_toInt
    rw [if_pos (Or.inr hclock)]
    -- from the least clock on, the threshold is below every timestamp
    simp only [Option.some.injEq, Bool.false_eq, decide_eq_false_iff_not, not_lt,
      TtlRule.exactThreshold, hclock, Int64.toInt_minValue]
    omega
  · simp only [hon, hclock, or_self, if_false, false_or]
    refine ⟨fun h => ?_, fun ⟨hlt, hlow⟩ t => ?_⟩
    · cases hthreshold : rule.threshold with
      | none =>
        have hzero := h 0
        rw [hthreshold] at hzero
        contradiction
      | some threshold =>
        obtain ⟨hlt, heq⟩ := (threshold_eq_some_iff hpos).mp hthreshold
        exact ⟨hlt, heq ▸ threshold.le_toInt⟩
    · have hfit : Fits64 rule.exactThreshold := by
        refine ⟨hlow, ?_⟩
        have hhigh := rule.latest_timestamp.toInt_lt
        unfold TtlRule.exactThreshold
        omega
      have hthreshold : rule.threshold = some (Int64.ofInt rule.exactThreshold) :=
        (threshold_eq_some_iff hpos).mpr ⟨hlt, toInt_ofInt_of_fits hfit⟩
      simp only [hthreshold, Int64.lt_iff_toInt_lt, toInt_ofInt_of_fits hfit]

/-- Where the test has a result, wrapping makes no difference. -/
theorem isExpiredByRule_of_checked {rule : TtlRule} {t : Int64} {b : Bool}
    (h : checkedIsExpiredByRule rule t = some b) : isExpiredByRule rule t = b := by
  unfold checkedIsExpiredByRule at h
  unfold isExpiredByRule
  split_ifs at h ⊢ with hoff
  · exact Option.some.inj h
  · unfold TtlRule.threshold at h
    cases hmul : mulInt64 rule.ttl_seconds 1000000000 with
    | none => simp [hmul] at h
    | some age =>
      cases hsub : subInt64 rule.latest_timestamp age with
      | none => simp [hmul, hsub] at h
      | some threshold =>
        simp only [hmul, hsub, Option.some.injEq] at h
        rw [mulInt64_eq_some hmul, subInt64_eq_some hsub]
        exact h

/-- The records of a measurement expire exactly below the integer threshold, in each of the
three places that test for it, and the test overflows for no timestamp. -/
structure Engine.TtlExact (e : Engine) (m : Bytes) (rule : TtlRule) : Prop where
  defined : ∀ t : Int64,
    checkedIsExpiredByRule rule t = some (decide (t.toInt < rule.exactThreshold))
  get : ∀ t : Int64, e.get ⟨m, t⟩ =
    if t.toInt < rule.exactThreshold then none else e.stored ⟨m, t⟩
  range : ∀ view : FileView, view.ttl_map = e.ttl_map → ∀ t_start t_end : Int64,
    view.rangeQuery m t_start t_end =
      (FileView.rangeQuery { view with ttl_map := fun _ => none } m t_start t_end).filter
        fun r => !decide (r.timestamp.toInt < rule.exactThreshold)
  compaction : ∀ r : Record, r.measurement = m →
    keepRecordForCompaction r e.ttl_map = !decide (r.timestamp.toInt < rule.exactThreshold)

theorem ttlExact_iff {e : Engine} {m : Bytes} {rule : TtlRule} (hrule : e.ttl_map m = some rule)
    (hpos : 0 < rule.ttl_seconds) : e.TtlExact m rule ↔ rule.Fits := by
  refine ⟨fun h => (checked_exact_iff hpos).mp h.defined, fun hfits => ?_⟩
  have hdefined := (checked_exact_iff hpos).mpr hfits
  have hexpired : ∀ t : Int64, isExpiredInMap e.ttl_map m t =
      decide (t.toInt < rule.exactThreshold) := by
    intro t
    rw [isExpiredInMap, hrule]
    exact isExpiredByRule_of_checked (hdefined t)
  refine ⟨hdefined, fun t => ?_, fun view hview t_start t_end => ?_, fun r hr => ?_⟩
  · simp [get_eq_stored, hexpired t]
  · unfold FileView.rangeQuery
    split_ifs with hempty
    · rfl
    · dsimp only
      rw [List.filter_filter]
      apply List.filter_congr
      intro r _
      rw [hview, hexpired r.timestamp, Bool.and_comm]
      simp [isExpiredInMap]
  · rw [keepRecordForCompaction, hr, hrule]
    exact congrArg not (isExpiredByRule_of_checked (hdefined r.timestamp))

/-- A clock that has run shows the timestamp of an operation that was applied. -/
def Engine.ClockAttained (e : Engine) : Prop :=
  ∀ m rule, e.ttl_map m = some rule → rule.latest_timestamp = Int64.minValue ∨
    ∃ a ∈ e.applied, a.2.measurement = m ∧ a.2.timestamp = rule.latest_timestamp

theorem clockAttained_updateLatestTimestamp {ttl_map : TtlMap} {applied : List (ℕ × Operation)}
    {id : ℕ} {op : Operation} {m : Bytes} {rule : TtlRule}
    (h : ∀ old, ttl_map m = some old → old.latest_timestamp = Int64.minValue ∨
      ∃ a ∈ applied, a.2.measurement = m ∧ a.2.timestamp = old.latest_timestamp)
    (hrule : updateLatestTimestamp ttl_map op.measurement op.timestamp m = some rule) :
    rule.latest_timestamp = Int64.minValue ∨
      ∃ a ∈ (id, op) :: applied, a.2.measurement = m ∧ a.2.timestamp = rule.latest_timestamp := by
  have hold : ∀ old, ttl_map m = some old → old.latest_timestamp = Int64.minValue ∨
      ∃ a ∈ (id, op) :: applied, a.2.measurement = m ∧ a.2.timestamp = old.latest_timestamp :=
    fun old hm => (h old hm).imp_right fun ⟨a, ha, heq⟩ => ⟨a, List.mem_cons_of_mem _ ha, heq⟩
  rw [updateLatestTimestamp_eq] at hrule
  by_cases hm : m = op.measurement
  · subst hm
    rw [Function.update_self, Option.some.injEq] at hrule
    subst hrule
    unfold TtlRule.tick
    split_ifs
    · exact Or.inr ⟨(id, op), List.mem_cons_self, rfl, rfl⟩
    · cases hm : ttl_map op.measurement with
      | none => exact Or.inl rfl
      | some old => exact hold old hm
  · rw [Function.update_of_ne hm] at hrule
    exact hold rule hrule

theorem clockAttained_applied {e e' : Engine} {l : List (ℕ × Operation)} (h : e.ClockAttained)
    (hl : e.Applied l e') : e'.ClockAttained := by
  intro m rule hrule
  rw [hl.clocks] at hrule
  rw [hl.applied]
  clear hl
  induction l generalizing rule with
  | nil => exact h m rule hrule
  | cons a l ih => exact clockAttained_updateLatestTimestamp ih hrule

theorem clockAttained_step {e e' : Engine} {a : EngineAction} (h : e.ClockAttained)
    (hs : e.step a = some e') (hcrash : a.isCrash = false) : e'.ClockAttained := by
  cases step_effect hs with
  | call l hl => exact clockAttained_applied h hl
  | setTTL measurement ttl_seconds =>
    intro m rule hrule
    change setTTL e.ttl_map measurement ttl_seconds m = some rule at hrule
    unfold setTTL at hrule
    by_cases hm : m = measurement
    · subst hm
      rw [Function.update_self, Option.some.injEq] at hrule
      subst hrule
      cases hm : e.ttl_map m with
      | none => exact Or.inl rfl
      | some old => exact h m old hm
    · rw [Function.update_of_ne hm] at hrule
      exact h m rule hrule
  | background happlied hclocks =>
    intro m rule hrule
    rw [hclocks] at hrule
    rw [happlied]
    exact h m rule hrule
  | crash => contradiction

theorem clockAttained_reach {db_dir : Bytes} {limit : Int64} {target : ℕ} {e : Engine}
    (h : Reach Engine.step (fun _ a => a.isCrash = false) (Engine.start db_dir limit target) e) :
    e.ClockAttained := by
  refine h.invariant ?_ fun _ _ _ hi hok hs => clockAttained_step hi hs hok
  rw [start_open]
  intro m rule hrule
  contradiction

theorem Engine.TtlExact.not_expired {e : Engine} {m : Bytes} {rule : TtlRule} (h : e.TtlExact m rule)
    (hpos : 0 < rule.ttl_seconds) {t : Int64} (ht : rule.latest_timestamp ≤ t) :
    isExpiredByRule rule t = false := by
  have hsec := toInt_pos_of hpos
  rw [isExpiredByRule_of_checked (h.defined t), decide_eq_false_iff_not, not_lt]
  rw [Int64.le_iff_toInt_le] at ht
  unfold TtlRule.exactThreshold
  omega

/-- In every state of a run without restarts, for every rule with a TTL and every value that
the TTL is raised to, if at all: expiry is exact under both, the newest point that was written
is not expired, and the raise hides no point, if and only if the raised rule fits. -/
theorem ttl_exact_iff (db_dir : Bytes) (limit : Int64) (target : ℕ) {e : Engine}
    (h : Reach Engine.step (fun _ a => a.isCrash = false) (Engine.start db_dir limit target) e)
    {m : Bytes} {rule : TtlRule} (hrule : e.ttl_map m = some rule) (hpos : 0 < rule.ttl_seconds)
    {raised : Int64} (hraised : rule.ttl_seconds ≤ raised) :
    (e.TtlExact m rule ∧
      Engine.TtlExact { e with ttl_map := setTTL e.ttl_map m raised } m
        { rule with ttl_seconds := raised } ∧
      (∀ a ∈ e.applied, a.2.measurement = m →
        (∀ b ∈ e.applied, b.2.measurement = m → b.2.timestamp ≤ a.2.timestamp) →
        isExpiredByRule rule a.2.timestamp = false) ∧
      ∀ t v, e.get ⟨m, t⟩ = some v →
        Engine.get { e with ttl_map := setTTL e.ttl_map m raised } ⟨m, t⟩ = some v) ↔
    TtlRule.Fits { rule with ttl_seconds := raised } := by
  have hraised' : rule.ttl_seconds.toInt ≤ raised.toInt := Int64.le_iff_toInt_le.mp hraised
  have hpos' : 0 < raised := by
    have hsec := toInt_pos_of hpos
    rw [Int64.lt_iff_toInt_lt]
    exact hsec.trans_le hraised'
  have hrule' : setTTL e.ttl_map m raised m = some { rule with ttl_seconds := raised } := by
    unfold setTTL
    simp [hrule]
  have hexact' := ttlExact_iff (e := { e with ttl_map := setTTL e.ttl_map m raised }) hrule' hpos'
  refine ⟨fun hall => hexact'.mp hall.2.1, fun hfits => ?_⟩
  -- a smaller TTL fits where a greater one does
  have hsmaller : rule.Fits := by
    rcases hfits with hclock | ⟨hlt, hlow⟩
    · exact Or.inl hclock
    · unfold TtlRule.exactThreshold at hlow
      dsimp only at hlt hlow
      refine Or.inr ⟨by omega, ?_⟩
      unfold TtlRule.exactThreshold
      omega
  have hexact := (ttlExact_iff hrule hpos).mpr hsmaller
  refine ⟨hexact, hexact'.mpr hfits, fun a ha hm hnewest => ?_, fun t v hget => ?_⟩
  · apply hexact.not_expired hpos
    rcases clockAttained_reach h m rule hrule with hmin | ⟨b, hb, hbm, hlatest⟩
    · rw [hmin]
      exact Int64.minValue_le _
    · rw [← hlatest]
      exact hnewest b hb hbm
  · rw [(hexact'.mpr hfits).get t]
    rw [hexact.get t] at hget
    have hle : TtlRule.exactThreshold { rule with ttl_seconds := raised } ≤ rule.exactThreshold := by
      unfold TtlRule.exactThreshold
      dsimp only
      omega
    split_ifs at hget with hvisible
    rw [if_neg fun hlt => hvisible (hlt.trans_le hle)]
    exact hget

/-- A value at time 0, under a TTL of ten seconds. -/
def tenSeconds : Option Engine :=
  [EngineAction.put (ascii "cpu") 0 (ascii "v"), .setTTL (ascii "cpu") 10].foldlM
    (guarded Engine.step fun _ a => a.isCrash = false) (Engine.start (ascii "db") 1000 0)

theorem ttl_exact_iff_tenSeconds : ∃ e, tenSeconds = some e ∧ e.ttl_map (ascii "cpu") = some ⟨10, 0⟩ ∧
    e.TtlExact (ascii "cpu") ⟨10, 0⟩ ∧ ∀ t v, e.get ⟨ascii "cpu", t⟩ = some v →
      Engine.get { e with ttl_map := setTTL e.ttl_map (ascii "cpu") 20 } ⟨ascii "cpu", t⟩ = some v := by
  have hrun : (tenSeconds.map fun e => e.ttl_map (ascii "cpu")) = some (some ⟨10, 0⟩) := by
    decide +kernel
  obtain ⟨e, he, hrule⟩ := Option.map_eq_some_iff.mp hrun
  have hfits : TtlRule.Fits { (⟨10, 0⟩ : TtlRule) with ttl_seconds := 20 } :=
    Or.inr ⟨by decide, by decide⟩
  obtain ⟨hexact, -, -, hraise⟩ := (ttl_exact_iff (ascii "db") 1000 0 (reach_of_foldlM he) hrule
    (by decide) (by decide)).mpr hfits
  exact ⟨e, he, hrule, hexact, hraise⟩

/-- A TTL of 292 years and some months, in nanoseconds, is beyond `int64`: the test has no
result, and with wrapping the raise expires the newest point. -/
theorem raised_ttl_overflows : ∃ e e' : Engine, tenSeconds = some e ∧
    e.step (.setTTL (ascii "cpu") 9223372037) = some e' ∧
    e'.ttl_map (ascii "cpu") = some ⟨9223372037, 0⟩ ∧
    ¬ (0 : ℤ) < TtlRule.exactThreshold ⟨9223372037, 0⟩ ∧
    checkedIsExpiredByRule ⟨9223372037, 0⟩ 0 = none ∧
    e.get ⟨ascii "cpu", 0⟩ = some (ascii "v") ∧ e'.get ⟨ascii "cpu", 0⟩ = none := by
  have hrun : (tenSeconds.bind fun e => (e.step (.setTTL (ascii "cpu") 9223372037)).map fun e' =>
      (e'.ttl_map (ascii "cpu"), e.get ⟨ascii "cpu", 0⟩, e'.get ⟨ascii "cpu", 0⟩)) =
      some (some ⟨9223372037, 0⟩, some (ascii "v"), none) := by decide +kernel
  obtain ⟨e, he, hrun⟩ := Option.bind_eq_some_iff.mp hrun
  obtain ⟨e', hs, hstate⟩ := Option.map_eq_some_iff.mp hrun
  obtain ⟨hrule, hget, hget'⟩ := by simpa only [Prod.mk.injEq] using hstate
  exact ⟨e, e', he, hs, hrule, by decide, by decide, hget, hget'⟩

end MiniTsdb
