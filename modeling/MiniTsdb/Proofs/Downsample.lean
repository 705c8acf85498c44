import MiniTsdb.Lib.Ascending
import MiniTsdb.Lib.Text
import MiniTsdb.Spec.Downsample

/-! Downsampling: when the bucket loop ends without an overflow, and that it then groups the
records of the range by bucket. -/

namespace MiniTsdb
open Lib

section
variable {D : Type} (doubles : Doubles D)

def Numeric (raw : List Record) : Prop := ∀ r ∈ raw, (doubles.stod r.value).isSome

def numbers (records : List Record) : List D := records.filterMap fun r => doubles.stod r.value

def lastValue (default : Bytes) (records : List Record) : Bytes :=
  (records.getLast?.map Record.value).getD default

variable {doubles}

theorem Numeric.sublist {raw raw' : List Record} (h : Numeric doubles raw) (hs : raw'.Sublist raw) :
    Numeric doubles raw' := fun r hr => h r (hs.subset hr)

theorem collectLoop_eq {raw : List Record} (h : Numeric doubles raw) (bucket_end : Int64)
    (values : List D) (last_value : Bytes) :
    collectLoop doubles bucket_end values last_value raw =
      .ok (values ++ numbers doubles (raw.takeWhile fun r => r.timestamp < bucket_end),
        lastValue last_value (raw.takeWhile fun r => r.timestamp < bucket_end)) := by
  induction raw generalizing values last_value with
  | nil => simp [collectLoop, numbers, lastValue]
  | cons r raw ih =>
    obtain ⟨v, hv⟩ := Option.isSome_iff_exists.mp (h r List.mem_cons_self)
    rw [collectLoop]
    split_ifs with hlt
    · rw [hv]
      dsimp only
      rw [ih (h.sublist (List.sublist_cons_self r raw))]
      simp [hlt, numbers, lastValue, hv, List.getLast?_cons]
    · simp [hlt, numbers, lastValue]

variable {call : DownsampleCall}

theorem turn_eq {s : BucketLoop} (h : Numeric doubles s.rest) :
    s.turn doubles call =
      if Fits64 (s.bucket_start.toInt + call.interval_ns.toInt) then
        let bucket_end := Int64.ofInt (s.bucket_start.toInt + call.interval_ns.toInt)
        let rest := s.rest.dropWhile fun r => r.timestamp < s.bucket_start
        let bucket := rest.takeWhile fun r => r.timestamp < bucket_end
        .ok ⟨bucket_end, rest, if (numbers doubles bucket).isEmpty then s.out
          else s.out ++ [⟨call.measurement, s.bucket_start,
            aggregate doubles call.agg (numbers doubles bucket) (lastValue [] bucket), false⟩]⟩
      else .error .overflow := by
  unfold BucketLoop.turn addInt64
  split_ifs with hfit
  · have hrest := h.sublist (List.dropWhile_sublist fun r => r.timestamp < s.bucket_start)
    simp only [checked_of_fits hfit, collectLoop_eq hrest, List.nil_append]
  · simp only [checked_eq_none_iff.mpr hfit]

/-- The rule for the bucket loop: what every turn keeps holds at its end. -/
theorem bucketLoop_invariant {P : BucketLoop → Prop}
    (hturn : ∀ s s', P s → s.bucket_start ≤ call.t_end → s.turn doubles call = .ok s' → P s')
    {turns : ℕ} {s : BucketLoop} {out : List Record} (h : P s)
    (hrun : bucketLoop doubles call turns s = some (.ok out)) :
    ∃ s', P s' ∧ ¬ s'.bucket_start ≤ call.t_end ∧ s'.out = out := by
  induction turns generalizing s with
  | zero => contradiction
  | succ turns ih =>
    rw [bucketLoop] at hrun
    split_ifs at hrun with hle
    · cases hs : s.turn doubles call with
      | error error => simp [hs] at hrun
      | ok s' =>
        rw [hs] at hrun
        exact ih (hturn s s' h hle hs) hrun
    · refine ⟨s, h, hle, ?_⟩
      simpa using hrun

theorem bucketLoop_ends (hpos : 0 < call.interval_ns.toInt) {n : ℕ} {s : BucketLoop}
    (hnum : Numeric doubles s.rest)
    (hbehind : call.t_end.toInt < s.bucket_start.toInt + n * call.interval_ns.toInt)
    (hfits : s.bucket_start.toInt + n * call.interval_ns.toInt < 2 ^ 63) :
    ∃ out, bucketLoop doubles call (n + 1) s = some (.ok out) := by
  induction n generalizing s with
  | zero =>
    have hdone : ¬ s.bucket_start ≤ call.t_end := by
      rw [Int64.le_iff_toInt_le]
      simpa using hbehind
    exact ⟨s.out, by rw [bucketLoop, if_neg hdone]⟩
  | succ n ih =>
    rw [bucketLoop]
    split_ifs with hle
    · have hstep : ((n + 1 : ℕ) : ℤ) * call.interval_ns.toInt =
          call.interval_ns.toInt + n * call.interval_ns.toInt := by push_cast; ring
      have hrest : 0 ≤ (n : ℤ) * call.interval_ns.toInt := by positivity
      rw [hstep] at hbehind hfits
      have hfit : Fits64 (s.bucket_start.toInt + call.interval_ns.toInt) :=
        ⟨by have := s.bucket_start.le_toInt; omega, by omega⟩
      rw [turn_eq hnum, if_pos hfit]
      apply ih
      · exact hnum.sublist (List.dropWhile_sublist _)
      · rw [toInt_ofInt_of_fits hfit]
        omega
      · rw [toInt_ofInt_of_fits hfit]
        omega
    · exact ⟨s.out, rfl⟩

/-- The start of the first bucket behind `t_end`. -/
def DownsampleCall.behind (call : DownsampleCall) : ℤ :=
  call.t_start.toInt + ((call.t_end.toInt - call.t_start.toInt) / call.interval_ns.toInt + 1) *
    call.interval_ns.toInt

theorem downsample_eq_loop {raw : List Record} (hle : call.t_start ≤ call.t_end)
    (hpos : 0 < call.interval_ns.toInt) (hne : raw ≠ []) (turns : ℕ) :
    downsample doubles call raw turns = bucketLoop doubles call turns ⟨call.t_start, raw, []⟩ := by
  unfold downsample
  rw [if_neg, if_neg (by simpa using hne)]
  rw [Int64.le_iff_toInt_le] at hle
  rw [Int64.le_iff_toInt_le, Int64.lt_iff_toInt_lt]
  exact not_or.mpr ⟨not_le.mpr hpos, not_lt.mpr hle⟩

theorem bucketLoop_start_ends {raw : List Record} (hle : call.t_start ≤ call.t_end)
    (hpos : 0 < call.interval_ns.toInt) (hnum : Numeric doubles raw) (hbehind : call.behind < 2 ^ 63) :
    ∃ turns out, bucketLoop doubles call turns ⟨call.t_start, raw, []⟩ = some (.ok out) := by
  have hrange : 0 ≤ call.t_end.toInt - call.t_start.toInt :=
    Int.sub_nonneg.mpr (Int64.le_iff_toInt_le.mp hle)
  have hbuckets : 0 ≤ (call.t_end.toInt - call.t_start.toInt) / call.interval_ns.toInt :=
    Int.ediv_nonneg hrange hpos.le
  obtain ⟨n, hn⟩ := Int.eq_ofNat_of_zero_le hbuckets
  have hcover := Int.lt_ediv_add_one_mul_self (call.t_end.toInt - call.t_start.toInt) hpos
  have hstart : call.t_start.toInt + ((n + 1 : ℕ) : ℤ) * call.interval_ns.toInt = call.behind := by
    rw [DownsampleCall.behind, hn]
    push_cast
    rfl
  rw [hn] at hcover
  refine ⟨n + 1 + 1, bucketLoop_ends hpos hnum ?_ ?_⟩
  · change call.t_end.toInt < call.t_start.toInt + ((n + 1 : ℕ) : ℤ) * call.interval_ns.toInt
    push_cast
    omega
  · exact hstart ▸ hbehind

/-- The call ends within 64 bits exactly if the first bucket behind `t_end` starts there. -/
theorem downsample_terminates_iff {raw : List Record} (hle : call.t_start ≤ call.t_end)
    (hpos : 0 < call.interval_ns) (hne : raw ≠ []) (hnum : Numeric doubles raw) :
    (∃ turns out, downsample doubles call raw turns = some (.ok out)) ↔ call.behind < 2 ^ 63 := by
  have hinterval : 0 < call.interval_ns.toInt := Int64.lt_iff_toInt_lt.mp hpos
  simp only [downsample_eq_loop hle hinterval hne]
  refine ⟨fun ⟨turns, out, hrun⟩ => ?_, bucketLoop_start_ends hle hinterval hnum⟩
  -- every bucket starts at a multiple of the interval
  have hturn : ∀ s s' : BucketLoop,
      (Numeric doubles s.rest ∧
        ∃ k : ℕ, s.bucket_start.toInt = call.t_start.toInt + k * call.interval_ns.toInt) →
      s.bucket_start ≤ call.t_end → s.turn doubles call = .ok s' →
      Numeric doubles s'.rest ∧
        ∃ k : ℕ, s'.bucket_start.toInt = call.t_start.toInt + k * call.interval_ns.toInt := by
    rintro s s' ⟨hrest, k, hk⟩ - hs
    rw [turn_eq hrest] at hs
    split_ifs at hs with hfit
    obtain rfl := Except.ok.inj hs
    refine ⟨hrest.sublist (List.dropWhile_sublist _), k + 1, ?_⟩
    rw [toInt_ofInt_of_fits hfit, hk]
    push_cast
    ring
  obtain ⟨s, ⟨-, k, hk⟩, hdone, -⟩ := bucketLoop_invariant hturn ⟨hnum, 0, by simp⟩ hrun
  rw [Int64.le_iff_toInt_le, not_le, hk] at hdone
  have hbuckets : (call.t_end.toInt - call.t_start.toInt) / call.interval_ns.toInt + 1 ≤ k :=
    Int.ediv_lt_of_lt_mul hinterval (by omega)
  have hmul := Int.mul_le_mul_of_nonneg_right hbuckets hinterval.le
  have hlast := s.bucket_start.toInt_lt
  unfold DownsampleCall.behind
  omega

/-- The start of the bucket of a timestamp. -/
def DownsampleCall.bucketOf (call : DownsampleCall) (t : Int64) : ℤ :=
  call.t_start.toInt + (t.toInt - call.t_start.toInt) / call.interval_ns.toInt * call.interval_ns.toInt

def DownsampleCall.bucket (call : DownsampleCall) (raw : List Record) (start : ℤ) : List Record :=
  raw.filter fun r => call.bucketOf r.timestamp = start

variable (doubles) in
def DownsampleCall.bucketRecord (call : DownsampleCall) (raw : List Record) (start : ℤ) : Record :=
  ⟨call.measurement, Int64.ofInt start, aggregate doubles call.agg (numbers doubles (call.bucket raw start))
    (lastValue [] (call.bucket raw start)), false⟩

variable (doubles) in
/-- One record for each bucket that is not empty, in order, and each record of the range in one
bucket, the one that starts at the last multiple of the interval before it. With `kLast` the
value is the string of the latest record of the bucket. -/
structure GroupsExactly (call : DownsampleCall) (raw out : List Record) : Prop where
  ascending : Ascending (fun o => o.timestamp.toInt) out
  buckets : ∀ o, o ∈ out ↔ ∃ r ∈ raw, o = call.bucketRecord doubles raw (call.bucketOf r.timestamp)
  once : ∀ r ∈ raw, ∃! o, o ∈ out ∧ r ∈ call.bucket raw o.timestamp.toInt
  starts : ∀ o ∈ out, ∀ r ∈ call.bucket raw o.timestamp.toInt, o.timestamp.toInt =
    call.t_start.toInt + (r.timestamp.toInt - call.t_start.toInt) / call.interval_ns.toInt *
      call.interval_ns.toInt
  last : call.agg = .kLast → ∀ o ∈ out, ∃ r ∈ call.bucket raw o.timestamp.toInt,
    o.value = r.value ∧ ∀ r' ∈ call.bucket raw o.timestamp.toInt, r'.timestamp ≤ r.timestamp

theorem takeWhile_eq_filter {raw : List Record} (h : Ascending (fun r => r.timestamp.toInt) raw)
    (t : Int64) : raw.takeWhile (fun r => r.timestamp < t) = raw.filter fun r => r.timestamp < t := by
  simpa only [Int64.lt_iff_toInt_lt] using h.takeWhile_lt t.toInt

theorem dropWhile_eq_filter {raw : List Record} (h : Ascending (fun r => r.timestamp.toInt) raw)
    (t : Int64) : raw.dropWhile (fun r => r.timestamp < t) = raw.filter fun r => t ≤ r.timestamp := by
  simpa only [Int64.lt_iff_toInt_lt, Int64.le_iff_toInt_le] using h.dropWhile_lt t.toInt

theorem numbers_eq_nil_iff {records : List Record} (h : Numeric doubles records) :
    numbers doubles records = [] ↔ records = [] := by
  refine ⟨fun hnil => ?_, fun hnil => by rw [hnil]; rfl⟩
  by_contra hne
  obtain ⟨r, hr⟩ := List.exists_mem_of_ne_nil records hne
  have hnone := List.filterMap_eq_nil_iff.mp hnil r hr
  have hsome := h r hr
  rw [hnone] at hsome
  contradiction

/-- The multiples of the interval tell a bucket from the others. -/
theorem bucketOf_eq_iff (hpos : 0 < call.interval_ns.toInt) (t : Int64) (k : ℤ) :
    call.bucketOf t = call.t_start.toInt + k * call.interval_ns.toInt ↔
      call.t_start.toInt + k * call.interval_ns.toInt ≤ t.toInt ∧
        t.toInt < call.t_start.toInt + k * call.interval_ns.toInt + call.interval_ns.toInt := by
  have hquot : call.bucketOf t = call.t_start.toInt + k * call.interval_ns.toInt ↔
      (t.toInt - call.t_start.toInt) / call.interval_ns.toInt = k := by
    unfold DownsampleCall.bucketOf
    rw [add_right_inj, mul_eq_mul_right_iff, or_iff_left hpos.ne']
  rw [hquot, Int.ediv_eq_iff_of_pos hpos]
  omega

/-- What every turn keeps: the buckets before the present one are done, and the records from it
on are still there. -/
structure Grouped (doubles : Doubles D) (call : DownsampleCall) (raw : List Record) (s : BucketLoop) :
    Prop where
  aligned : ∃ k : ℕ, s.bucket_start.toInt = call.t_start.toInt + k * call.interval_ns.toInt
  sorted : Ascending (fun r => r.timestamp.toInt) s.rest
  rest : (s.rest.filter fun r => s.bucket_start ≤ r.timestamp) =
    raw.filter fun r => s.bucket_start ≤ r.timestamp
  numeric : Numeric doubles s.rest
  ascending : Ascending (fun o => o.timestamp.toInt) s.out
  before : ∀ o ∈ s.out, o.timestamp.toInt < s.bucket_start.toInt
  out : ∀ o, o ∈ s.out ↔ ∃ r ∈ raw, r.timestamp < s.bucket_start ∧
    o = call.bucketRecord doubles raw (call.bucketOf r.timestamp)

theorem Grouped.bucketOf_iff {raw : List Record} {s : BucketLoop} (h : Grouped doubles call raw s)
    (hpos : 0 < call.interval_ns.toInt) (t : Int64) : call.bucketOf t = s.bucket_start.toInt ↔
      s.bucket_start.toInt ≤ t.toInt ∧ t.toInt < s.bucket_start.toInt + call.interval_ns.toInt := by
  obtain ⟨k, hk⟩ := h.aligned
  rw [hk]
  exact bucketOf_eq_iff hpos t k

/-- The records that a turn aggregates are those of its bucket. -/
theorem Grouped.bucket_eq {raw : List Record} {s : BucketLoop} (h : Grouped doubles call raw s)
    (hpos : 0 < call.interval_ns.toInt)
    (hfit : Fits64 (s.bucket_start.toInt + call.interval_ns.toInt)) :
    (s.rest.dropWhile fun r => r.timestamp < s.bucket_start).takeWhile (fun r =>
        r.timestamp < Int64.ofInt (s.bucket_start.toInt + call.interval_ns.toInt)) =
      call.bucket raw s.bucket_start.toInt := by
  have hsorted := h.sorted.sublist (List.dropWhile_sublist fun r => r.timestamp < s.bucket_start)
  rw [takeWhile_eq_filter hsorted, dropWhile_eq_filter h.sorted, h.rest, List.filter_filter,
    DownsampleCall.bucket]
  apply List.filter_congr
  intro r _
  rw [← Bool.decide_and, decide_eq_decide, h.bucketOf_iff hpos, Int64.lt_iff_toInt_lt,
    Int64.le_iff_toInt_le, toInt_ofInt_of_fits hfit, and_comm]

variable (doubles) in
/-- What a turn adds to the output. -/
def DownsampleCall.added (call : DownsampleCall) (raw : List Record) (start : ℤ) : List Record :=
  if call.bucket raw start = [] then [] else [call.bucketRecord doubles raw start]

theorem mem_added {raw : List Record} {start : ℤ} {o : Record} :
    o ∈ call.added doubles raw start ↔
      ∃ r ∈ raw, call.bucketOf r.timestamp = start ∧ o = call.bucketRecord doubles raw start := by
  unfold DownsampleCall.added
  split_ifs with hempty
  · have hnone := List.filter_eq_nil_iff.mp hempty
    simp only [List.not_mem_nil, false_iff, not_exists, not_and]
    intro r hr hstart
    exact absurd (decide_eq_true hstart) (hnone r hr)
  · obtain ⟨r, hr⟩ := List.exists_mem_of_ne_nil _ hempty
    obtain ⟨hr, hstart⟩ := List.mem_filter.mp hr
    simp only [List.mem_singleton]
    exact ⟨fun ho => ⟨r, hr, of_decide_eq_true hstart, ho⟩, fun ⟨_, _, _, ho⟩ => ho⟩

theorem ascending_added (raw : List Record) (start : ℤ) :
    Ascending (fun o => o.timestamp.toInt) (call.added doubles raw start) := by
  unfold DownsampleCall.added
  split_ifs <;> simp

theorem Grouped.turn_eq {raw : List Record} {s : BucketLoop} (h : Grouped doubles call raw s)
    (hraw : Numeric doubles raw) (hpos : 0 < call.interval_ns.toInt)
    (hfit : Fits64 (s.bucket_start.toInt + call.interval_ns.toInt)) :
    s.turn doubles call = .ok ⟨Int64.ofInt (s.bucket_start.toInt + call.interval_ns.toInt),
      raw.filter fun r => s.bucket_start ≤ r.timestamp,
      s.out ++ call.added doubles raw s.bucket_start.toInt⟩ := by
  have hnumeric : Numeric doubles (call.bucket raw s.bucket_start.toInt) :=
    hraw.sublist List.filter_sublist
  rw [MiniTsdb.turn_eq h.numeric, if_pos hfit]
  dsimp only
  rw [h.bucket_eq hpos hfit, dropWhile_eq_filter h.sorted, h.rest, DownsampleCall.added,
    DownsampleCall.bucketRecord, Int64.ofInt_toInt]
  simp only [List.isEmpty_iff, numbers_eq_nil_iff hnumeric]
  split_ifs <;> simp

theorem Grouped.turn {raw : List Record} (hraw : Numeric doubles raw)
    (hsorted : Ascending (fun r => r.timestamp.toInt) raw) (hpos : 0 < call.interval_ns.toInt)
    {s s' : BucketLoop} (h : Grouped doubles call raw s) (hs : s.turn doubles call = .ok s') :
    Grouped doubles call raw s' := by
  have hfit : Fits64 (s.bucket_start.toInt + call.interval_ns.toInt) := by
    by_contra hover
    rw [MiniTsdb.turn_eq h.numeric, if_neg hover] at hs
    contradiction
  rw [h.turn_eq hraw hpos hfit] at hs
  obtain rfl := Except.ok.inj hs
  have hend := toInt_ofInt_of_fits hfit
  obtain ⟨k, hk⟩ := h.aligned
  have hstart : ∀ o ∈ call.added doubles raw s.bucket_start.toInt, o.timestamp = s.bucket_start := by
    intro o ho
    obtain ⟨r, -, -, rfl⟩ := mem_added.mp ho
    exact Int64.ofInt_toInt s.bucket_start
  refine ⟨⟨k + 1, ?_⟩, hsorted.filter _, ?_, hraw.sublist List.filter_sublist, ?_, fun o ho => ?_,
    fun o => ?_⟩
  · rw [hend, hk]
    push_cast
    ring
  · rw [List.filter_filter]
    apply List.filter_congr
    intro r _
    rw [← Bool.decide_and, decide_eq_decide, Int64.le_iff_toInt_le, Int64.le_iff_toInt_le, hend]
    omega
  · refine ascending_append.mpr ⟨h.ascending, ascending_added raw _, fun o ho o' ho' => ?_⟩
    rw [hstart o' ho']
    exact h.before o ho
  · change o.timestamp.toInt < (Int64.ofInt _).toInt
    rw [hend]
    rcases List.mem_append.mp ho with ho | ho
    · have := h.before o ho
      omega
    · rw [hstart o ho]
      omega
  · rw [List.mem_append, h.out, mem_added, ← exists_or]
    refine exists_congr fun r => ?_
    rw [← and_or_left]
    refine and_congr_right fun _ => ?_
    -- a record before the next bucket is before this one or in it
    have hr := h.bucketOf_iff hpos r.timestamp
    rw [Int64.lt_iff_toInt_lt, Int64.lt_iff_toInt_lt, hend]
    refine ⟨?_, fun ⟨hlt, ho⟩ => ?_⟩
    · rintro (⟨hlt, ho⟩ | ⟨hthis, ho⟩)
      · exact ⟨by omega, ho⟩
      · exact ⟨(hr.mp hthis).2, by rw [hthis]; exact ho⟩
    · by_cases hearlier : r.timestamp.toInt < s.bucket_start.toInt
      · exact Or.inl ⟨hearlier, ho⟩
      · have hthis := hr.mpr ⟨by omega, hlt⟩
        rw [hthis] at ho
        exact Or.inr ⟨hthis, ho⟩

theorem mem_bucket {raw : List Record} {start : ℤ} {r : Record} :
    r ∈ call.bucket raw start ↔ r ∈ raw ∧ call.bucketOf r.timestamp = start := by
  simp [DownsampleCall.bucket]

theorem fits_bucketOf (hpos : 0 < call.interval_ns.toInt) {t : Int64} (ht : call.t_start ≤ t) :
    Fits64 (call.bucketOf t) := by
  have hrange : 0 ≤ t.toInt - call.t_start.toInt := Int.sub_nonneg.mpr (Int64.le_iff_toInt_le.mp ht)
  have hlow : 0 ≤ (t.toInt - call.t_start.toInt) / call.interval_ns.toInt * call.interval_ns.toInt :=
    Int.mul_nonneg (Int.ediv_nonneg hrange hpos.le) hpos.le
  have hhigh := Int.ediv_mul_le (t.toInt - call.t_start.toInt) hpos.ne'
  have hstart := call.t_start.le_toInt
  have hend := t.toInt_lt
  unfold DownsampleCall.bucketOf
  exact ⟨by omega, by omega⟩

/-- The latest record of an ascending list is its last one. -/
theorem lastValue_latest {records : List Record} (h : Ascending (fun r => r.timestamp.toInt) records)
    (hne : records ≠ []) (default : Bytes) : ∃ r ∈ records, lastValue default records = r.value ∧
      ∀ r' ∈ records, r'.timestamp ≤ r.timestamp := by
  refine ⟨records.getLast hne, List.getLast_mem hne, ?_, fun r' hr' => ?_⟩
  · rw [lastValue, List.getLast?_eq_getLast_of_ne_nil hne]
    rfl
  · rw [Int64.le_iff_toInt_le]
    rw [← List.dropLast_append_getLast hne] at h hr'
    rcases List.mem_append.mp hr' with hr' | hr'
    · exact ((ascending_append.mp h).2.2 r' hr' _ (List.mem_singleton_self _)).le
    · rw [List.mem_singleton.mp hr']

/-- Once the loop is past the range, all its records are grouped. -/
theorem Grouped.exactly {raw : List Record} {s : BucketLoop} (h : Grouped doubles call raw s)
    (hsorted : Ascending (fun r => r.timestamp.toInt) raw) (hpos : 0 < call.interval_ns.toInt)
    (hrange : ∀ r ∈ raw, call.t_start ≤ r.timestamp ∧ r.timestamp < s.bucket_start) :
    GroupsExactly doubles call raw s.out := by
  have hout : ∀ o, o ∈ s.out ↔
      ∃ r ∈ raw, o = call.bucketRecord doubles raw (call.bucketOf r.timestamp) := by
    intro o
    rw [h.out]
    exact exists_congr fun r => and_congr_right fun hr => and_iff_right (hrange r hr).2
  have hstart : ∀ r ∈ raw, (call.bucketRecord doubles raw (call.bucketOf r.timestamp)).timestamp.toInt =
      call.bucketOf r.timestamp :=
    fun r hr => toInt_ofInt_of_fits (fits_bucketOf hpos (hrange r hr).1)
  refine ⟨h.ascending, hout, fun r hr => ?_, fun o _ r hr => (mem_bucket.mp hr).2.symm,
    fun hagg o ho => ?_⟩
  · refine ⟨_, ⟨(hout _).mpr ⟨r, hr, rfl⟩, mem_bucket.mpr ⟨hr, (hstart r hr).symm⟩⟩, ?_⟩
    rintro o ⟨ho, hbucket⟩
    apply h.ascending.inj ho ((hout _).mpr ⟨r, hr, rfl⟩)
    rw [hstart r hr, (mem_bucket.mp hbucket).2]
  · obtain ⟨r, hr, rfl⟩ := (hout o).mp ho
    rw [hstart r hr]
    have hne : call.bucket raw (call.bucketOf r.timestamp) ≠ [] :=
      List.ne_nil_of_mem (mem_bucket.mpr ⟨hr, rfl⟩)
    obtain ⟨latest, hlatest, hvalue, hmax⟩ := lastValue_latest (hsorted.filter _) hne []
    refine ⟨latest, hlatest, ?_, hmax⟩
    rw [DownsampleCall.bucketRecord, hagg]
    exact hvalue

theorem bucketLoop_add {turns : ℕ} {s : BucketLoop} {result : Except DownsampleError (List Record)}
    (h : bucketLoop doubles call turns s = some result) (more : ℕ) :
    bucketLoop doubles call (turns + more) s = some result := by
  induction turns generalizing s with
  | zero => contradiction
  | succ turns ih =>
    rw [Nat.succ_add_eq_add_succ, Nat.add_succ]
    rw [bucketLoop] at h ⊢
    split_ifs at h ⊢ with hle
    · cases hs : s.turn doubles call with
      | error error =>
        rw [hs] at h
        exact h
      | ok s' =>
        rw [hs] at h
        exact ih h
    · exact h

/-- On ascending records of the range that are numbers, with `t_end + interval_ns` an `int64`,
the call returns, and what it returns is the records grouped by bucket. -/
theorem downsample_groups {raw : List Record} (hle : call.t_start ≤ call.t_end)
    (hpos : 0 < call.interval_ns) (hfits : Fits64 (call.t_end.toInt + call.interval_ns.toInt))
    (hsorted : raw.Pairwise fun a b => a.timestamp < b.timestamp)
    (hrange : ∀ r ∈ raw, call.t_start ≤ r.timestamp ∧ r.timestamp ≤ call.t_end)
    (hnum : Numeric doubles raw) :
    (∃ turns out, downsample doubles call raw turns = some (.ok out)) ∧
      ∀ turns result, downsample doubles call raw turns = some result →
        ∃ out, result = .ok out ∧ GroupsExactly doubles call raw out := by
  have hinterval : 0 < call.interval_ns.toInt := Int64.lt_iff_toInt_lt.mp hpos
  by_cases hne : raw = []
  · subst hne
    have hempty : ∀ turns, downsample doubles call [] turns = some (.ok []) := by
      intro turns
      unfold downsample
      split_ifs <;> simp_all
    refine ⟨⟨0, [], hempty 0⟩, fun turns result hresult => ⟨[], ?_, ?_⟩⟩
    · rw [hempty turns] at hresult
      exact (Option.some.inj hresult).symm
    · exact ⟨ascending_nil, by simp, by simp, by simp, by simp⟩
  · simp only [downsample_eq_loop hle hinterval hne]
    have hbehind : call.behind < 2 ^ 63 := by
      have hlast := Int.ediv_mul_le (call.t_end.toInt - call.t_start.toInt) hinterval.ne'
      have hsplit := add_one_mul ((call.t_end.toInt - call.t_start.toInt) / call.interval_ns.toInt)
        call.interval_ns.toInt
      have hhigh := hfits.2
      unfold DownsampleCall.behind
      omega
    obtain ⟨turns, out, hrun⟩ := bucketLoop_start_ends hle hinterval hnum hbehind
    refine ⟨⟨turns, out, hrun⟩, fun turns' result hresult => ⟨out, ?_, ?_⟩⟩
    · have hboth := bucketLoop_add hrun turns'
      rw [Nat.add_comm, bucketLoop_add hresult turns] at hboth
      exact Option.some.inj hboth
    · have hasc : Ascending (fun r => r.timestamp.toInt) raw :=
        hsorted.imp fun hlt => Int64.lt_iff_toInt_lt.mp hlt
      have hstart : Grouped doubles call raw ⟨call.t_start, raw, []⟩ := by
        refine ⟨⟨0, by simp⟩, hasc, rfl, hnum, ascending_nil, by simp, fun o => ?_⟩
        simp only [List.not_mem_nil, false_iff, not_exists, not_and]
        intro r hr hlt
        have hfrom := Int64.le_iff_toInt_le.mp (hrange r hr).1
        rw [Int64.lt_iff_toInt_lt] at hlt
        omega
      obtain ⟨s, hs, hdone, rfl⟩ := bucketLoop_invariant
        (fun _ _ h _ hs => h.turn hnum hasc hinterval hs) hstart hrun
      refine hs.exactly hasc hinterval fun r hr => ⟨(hrange r hr).1, ?_⟩
      have hto := Int64.le_iff_toInt_le.mp (hrange r hr).2
      rw [Int64.le_iff_toInt_le] at hdone
      rw [Int64.lt_iff_toInt_lt]
      omega

end

/-- Decimal numbers without a sign, as `stod` and `%.6f` treat them. -/
def plainNumbers : Doubles ℚ where
  stod s := if s ≠ [] ∧ s.all isDigit then some (digitsValue s) else none
  zero := 0
  add a b := a + b
  divSize a n := a / n
  less a b := a < b
  print a :=
    let micros := ⌊a * 1000000⌋.toNat
    decimal (micros / 1000000) ++ ascii "." ++ (decimal (1000000 + micros % 1000000)).tail

def threePoints : List Record :=
  [⟨ascii "cpu", 5, ascii "1", false⟩, ⟨ascii "cpu", 17, ascii "2", false⟩,
    ⟨ascii "cpu", 18, ascii "3", false⟩]

theorem numeric_threePoints : Numeric plainNumbers threePoints := by
  unfold Numeric threePoints
  decide +kernel

def hundredNanos (agg : Agg) : DownsampleCall := ⟨ascii "cpu", 0, 100, 10, agg⟩

theorem downsample_terminates_iff_threePoints :
    ∃ turns out, downsample plainNumbers (hundredNanos .kAvg) threePoints turns = some (.ok out) := by
  have hle : (hundredNanos .kAvg).t_start ≤ (hundredNanos .kAvg).t_end := by decide
  exact (downsample_terminates_iff hle (by decide) (by decide) numeric_threePoints).mpr (by decide)

theorem downsample_groups_threePoints : ∃ turns out,
    downsample plainNumbers (hundredNanos .kLast) threePoints turns = some (.ok out) ∧
      GroupsExactly plainNumbers (hundredNanos .kLast) threePoints out := by
  have hle : (hundredNanos .kLast).t_start ≤ (hundredNanos .kLast).t_end := by decide
  obtain ⟨⟨turns, out, hrun⟩, hgroups⟩ := downsample_groups hle (by decide) (by decide)
    (by unfold threePoints; decide) (by unfold threePoints; decide) numeric_threePoints
  obtain ⟨out', heq, hout⟩ := hgroups turns _ hrun
  obtain rfl := Except.ok.inj heq
  exact ⟨turns, out, hrun, hout⟩

/-- The range to the end of time, in buckets of `2 ^ 62`. -/
def endOfTime : DownsampleCall := ⟨ascii "cpu", 0, Int64.maxValue, 4611686018427387904, .kAvg⟩

/-- The second bucket would end at `2 ^ 63`. -/
theorem end_of_time_overflows : endOfTime.t_start ≤ endOfTime.t_end ∧ 0 < endOfTime.interval_ns ∧
    threePoints ≠ [] ∧ Numeric plainNumbers threePoints ∧
    downsample plainNumbers endOfTime threePoints 2 = some (.error .overflow) ∧
    ∀ turns out, downsample plainNumbers endOfTime threePoints turns ≠ some (.ok out) := by
  have hle : endOfTime.t_start ≤ endOfTime.t_end := by decide
  have hpos : 0 < endOfTime.interval_ns.toInt := by decide
  have hne : threePoints ≠ [] := by decide
  have hrun : downsample plainNumbers endOfTime threePoints 2 = some (.error .overflow) := by
    decide +kernel
  refine ⟨hle, by decide, hne, numeric_threePoints, hrun, fun turns out hok => ?_⟩
  rw [downsample_eq_loop hle hpos hne] at hrun hok
  have hboth := bucketLoop_add hrun turns
  rw [Nat.add_comm, bucketLoop_add hok 2] at hboth
  simp at hboth

end MiniTsdb
