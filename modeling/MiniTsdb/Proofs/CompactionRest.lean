import MiniTsdb.Proofs.Scheduling
import MiniTsdb.Proofs.TtlReads
import MiniTsdb.Proofs.EngineSteps

/-! Compactions come to rest. A job empties L0 or the first inner level that is too large, and
fills the level below, so without new flushes the level of the jobs only goes down the tree. -/

namespace MiniTsdb
open Lib

variable {s s' : Store}

def innerLevels : List (Fin kMaxLevel) := [1, 2, 3, 4, 5]

def Store.over (s : Store) (level : Fin kMaxLevel) : Bool :=
  ((s.vmgr.current.level_files level).map FileMeta.file_size).sum > kLevelSizeBase * 2 ^ level.val

/-- The inner levels from the first one that is too large on. -/
def Store.overFrom (s : Store) : List (Fin kMaxLevel) := innerLevels.dropWhile fun level => !s.over level

def l0Trigger (force : Bool) : ℕ := if force then 1 else kL0CompactionTrigger

/-- A bound on the jobs to come: one for L0 and one for each inner level from the first that is
too large on; with forced jobs the inner levels may come once more after L0. -/
def Store.rank (force : Bool) (s : Store) : ℕ :=
  if (s.vmgr.current.level_files 0).length < l0Trigger force then s.overFrom.length
  else 6 + if force then s.overFrom.length else 0

/-- The rank of any tree. -/
def maxRank (force : Bool) : ℕ := if force then 11 else 6

theorem overFrom_length_le (s : Store) : s.overFrom.length ≤ 5 :=
  (List.dropWhile_sublist _).length_le

theorem rank_le (force : Bool) (s : Store) : s.rank force ≤ maxRank force := by
  have hle := overFrom_length_le s
  unfold Store.rank maxRank
  cases force <;> split_ifs <;> simp <;> omega

theorem rank_congr (force : Bool) (h : s'.vmgr.current = s.vmgr.current) :
    s'.rank force = s.rank force := by
  unfold Store.rank Store.overFrom Store.over
  rw [h]

theorem rank_empty (force : Bool) (h : ∀ l, s.vmgr.current.level_files l = []) : s.rank force = 0 := by
  have hnone : ∀ level ∈ innerLevels, (!s.over level) = true := fun level _ => by simp [Store.over, h level]
  have hfew : (s.vmgr.current.level_files 0).length < l0Trigger force := by
    rw [h 0]
    cases force <;> decide
  rw [Store.rank, if_pos hfew, Store.overFrom, List.dropWhile_eq_nil_iff.mpr hnone]
  rfl

/-- The level a job empties: L0 once it has enough files, or else the first inner level that
is too large. -/
structure Chosen (force : Bool) (s : Store) (job : CompactionJob) (u : Fin kMaxLevel) : Prop where
  output : job.output_level = u.val + 1
  whole : ∀ f ∈ s.vmgr.current.level_files u, (⟨u.val, f⟩ : CompactionInput) ∈ job.inputs
  zero : u = 0 → l0Trigger force ≤ (s.vmgr.current.level_files 0).length
  inner : u ≠ 0 → ∃ rest, s.overFrom = u :: rest
  unforced : force = false → u ≠ 0 → (s.vmgr.current.level_files 0).length < kL0CompactionTrigger

theorem Chosen.congr {force : Bool} {job : CompactionJob} {u : Fin kMaxLevel} (h : Chosen force s job u)
    (heq : s'.vmgr.current = s.vmgr.current) : Chosen force s' job u := by
  have hover : s'.overFrom = s.overFrom := by
    unfold Store.overFrom Store.over
    rw [heq]
  refine ⟨h.output, ?_, ?_, ?_, ?_⟩
  · rw [heq]
    exact h.whole
  · rw [heq]
    exact h.zero
  · rw [hover]
    exact h.inner
  · rw [heq]
    exact h.unforced

theorem pickLevel_chosen {ttl_map : TtlMap} {work : CompactionWork} (h : s.pickLevel ttl_map = some work) :
    ∃ u rest, s.overFrom = u :: rest ∧ work.job.output_level = u.val + 1 ∧
      ∀ f ∈ s.vmgr.current.level_files u, (⟨u.val, f⟩ : CompactionInput) ∈ work.job.inputs := by
  obtain ⟨before, u, rest, hsplit, hu, hbefore⟩ := List.findSome?_eq_some_iff.mp h
  dsimp only at hu
  split_ifs at hu with hlimit
  refine ⟨u, rest, ?_, ?_, fun f hf => ?_⟩
  · have hskip : ∀ level ∈ before, (!s.over level) = true := by
      intro level hlevel
      have hnone := hbefore level hlevel
      dsimp only at hnone
      split_ifs at hnone with hsmall
      simpa [Store.over] using hsmall
    rw [Store.overFrom, innerLevels, hsplit, List.dropWhile_append_of_pos hskip,
      List.dropWhile_cons_of_neg]
    simpa [Store.over] using hlimit
  · rw [← Option.some.inj hu]
  · rw [← Option.some.inj hu]
    exact List.mem_map_of_mem hf

theorem mem_innerLevels_ne_zero {u : Fin kMaxLevel} {rest : List (Fin kMaxLevel)}
    (h : s.overFrom = u :: rest) : u ≠ 0 := by
  have hmem : u ∈ innerLevels := (List.dropWhile_sublist _).subset (h ▸ List.mem_cons_self)
  rintro rfl
  simp [innerLevels] at hmem

theorem pick_chosen {force picked : Bool} {ttl_map : TtlMap} {work : CompactionWork} (h : Jobs s)
    (hforce : picked = true → force = true) (hp : s.pickCompactionWork picked ttl_map = some work) :
    ∃ u, Chosen force s work.job u := by
  obtain ⟨hidle, -⟩ := pick_level hp
  have hnone := (h.idle hidle).2
  have hlevel : s.pickLevel ttl_map = some work →
      (force = false → (s.vmgr.current.level_files 0).length < kL0CompactionTrigger) →
      ∃ u, Chosen force s work.job u := by
    intro hpick hfew
    obtain ⟨u, rest, hover, houtput, hwhole⟩ := pickLevel_chosen hpick
    have hne := mem_innerLevels_ne_zero hover
    exact ⟨u, houtput, hwhole, fun hz => absurd hz hne, fun _ => ⟨rest, hover⟩, fun hf _ => hfew hf⟩
  unfold Store.pickCompactionWork at hp
  simp only [hidle, hnone, Bool.false_eq_true, if_false, List.contains_nil, Bool.not_false,
    List.filter_true] at hp
  cases hl0 : s.vmgr.current.level_files 0 with
  | nil =>
    rw [hl0] at hp
    exact hlevel hp fun _ => by rw [hl0]; decide
  | cons front others =>
    rw [hl0] at hp
    dsimp only at hp
    split_ifs at hp with hdue
    · refine ⟨0, ?_, fun f hf => ?_, fun _ => ?_, fun hne => absurd rfl hne, fun _ hne => absurd rfl hne⟩
      · rw [← Option.some.inj hp]
        rfl
      · rw [← Option.some.inj hp]
        apply List.mem_append_right
        rw [hl0] at hf
        exact List.mem_map_of_mem hf
      · rw [hl0, l0Trigger]
        cases force with
        | true => simp
        | false =>
          rcases hdue with hpicked | hdue
          · exact absurd (hforce hpicked) (by simp)
          · exact hdue
    · refine hlevel hp fun _ => ?_
      rw [hl0]
      exact not_le.mp (not_or.mp hdue).2

theorem Chosen.rank_pos {force : Bool} {job : CompactionJob} {u : Fin kMaxLevel}
    (h : Chosen force s job u) : 0 < s.rank force := by
  unfold Store.rank
  split_ifs with hfew
  · by_cases hu : u = 0
    · exact absurd (h.zero hu) (not_le.mpr hfew)
    · obtain ⟨rest, hover⟩ := h.inner hu
      simp [hover]
  · exact Nat.add_pos_left (by decide) _
  · exact Nat.add_pos_left (by decide) _

/-- A level that was emptied, with those above it left alone, comes off the rank. -/
theorem Chosen.rank_lt {force : Bool} {job : CompactionJob} {u : Fin kMaxLevel} (h : Chosen force s job u)
    (hempty : s'.vmgr.current.level_files u = [])
    (habove : ∀ l < u, s'.vmgr.current.level_files l = s.vmgr.current.level_files l) :
    s'.rank force < s.rank force := by
  by_cases hu : u = 0
  · have hdue := h.zero hu
    have hle := overFrom_length_le s'
    rw [hu] at hempty
    have hfew : (s'.vmgr.current.level_files 0).length < l0Trigger force := by
      rw [hempty]
      cases force <;> decide
    unfold Store.rank
    rw [if_pos hfew, if_neg (not_lt.mpr hdue)]
    omega
  · obtain ⟨rest, hover⟩ := h.inner hu
    have hsplit : innerLevels.takeWhile (fun level => !s.over level) ++ u :: rest = innerLevels := by
      rw [← hover]
      exact List.takeWhile_append_dropWhile
    have hless : s'.overFrom.length ≤ rest.length := by
      have hskip : ∀ level ∈ innerLevels.takeWhile fun level => !s.over level, (!s'.over level) = true := by
        intro level hlevel
        have hsorted : innerLevels.Pairwise (· < ·) := by decide
        rw [← hsplit, List.pairwise_append] at hsorted
        have hlt := hsorted.2.2 level hlevel u List.mem_cons_self
        have hold : (!s.over level) = true :=
          List.mem_takeWhile_imp (p := fun level => !s.over level) hlevel
        rw [Store.over, habove level hlt]
        exact hold
      have hdone : (!s'.over u) = true := by simp [Store.over, hempty]
      rw [Store.overFrom, ← hsplit, List.dropWhile_append_of_pos hskip,
        List.dropWhile_cons_of_pos (p := fun level => !s'.over level) hdone]
      exact (List.dropWhile_sublist _).length_le
    have hl0 := habove 0 (Fin.pos_iff_ne_zero.mpr hu)
    unfold Store.rank
    rw [hl0, hover, List.length_cons]
    split_ifs with hfew hforce
    · omega
    · omega
    · exact absurd (h.unforced (by simpa using hforce) hu) (by simpa [l0Trigger, hforce] using hfew)

/-- At most `n` compactions start from here until the next flush is committed. -/
def Store.AtMost (force : Bool) (n : ℕ) (s : Store) : Prop :=
  match s.compaction with
  | none => s.rank force ≤ n
  | some run => maxRank force ≤ n ∨ ∃ u, Chosen force s run.work.job u ∧ s.rank force ≤ n + 1

variable {force : Bool} {n : ℕ}

theorem atMost_max (force : Bool) (s : Store) (h : maxRank force ≤ n) : s.AtMost force n := by
  unfold Store.AtMost
  split
  · exact (rank_le force s).trans h
  · exact Or.inl h

/-- Nothing that keeps the version and the job changes the budget. -/
theorem atMost_same (h : s.AtMost force n) (hd : SameDue s s')
    (hwork : s'.compaction.map CompactionRun.work = s.compaction.map CompactionRun.work) :
    s'.AtMost force n := by
  unfold Store.AtMost at h ⊢
  cases hrun : s.compaction with
  | none =>
    have hrun' : s'.compaction = none := by simpa [hrun] using hwork
    simp only [hrun] at h
    simp only [hrun', rank_congr force hd.current]
    exact h
  | some run =>
    rw [hrun] at hwork
    obtain ⟨run', hrun', hjob⟩ := Option.map_eq_some_iff.mp hwork
    simp only [hrun] at h
    simp only [hrun', rank_congr force hd.current, hjob]
    exact h.imp_right fun ⟨u, hchosen, hrank⟩ => ⟨u, hchosen.congr hd.current, hrank⟩

variable {scanned : TsKey → Bool}

theorem Chosen.committed {run : CompactionRun} {u : Fin kMaxLevel} (hc : Chosen force s run.work.job u)
    (h : StoreInv scanned s) (hrun : s.compaction = some run) (hrest : run.rest = some []) :
    (s.afterCompaction run).vmgr.current.level_files u = [] ∧
      ∀ l < u, (s.afterCompaction run).vmgr.current.level_files l = s.vmgr.current.level_files l := by
  obtain ⟨u', v, p, upper, newer, hshape, hstate⟩ := h.run run hrun
  unfold RunState at hstate
  rw [hrest] at hstate
  obtain ⟨outs, houts, -⟩ := hstate
  have hv : v.val = u.val + 1 := by
    have hout := hshape.output.symm.trans hc.output
    exact_mod_cast hout
  obtain rfl : u' = u := Fin.ext (by have := hshape.next_level; omega)
  have hnewer : newer = [] := by
    -- a file left behind would be in the job, and twice in its level
    rw [List.eq_nil_iff_forall_not_mem]
    intro f hf
    have hord := h.ordered u'
    rw [hshape.upper_eq] at hord
    have hmem : f ∈ s.vmgr.current.level_files u' := by
      rw [hshape.upper_eq]
      exact List.mem_append_right _ hf
    have hinput := hc.whole f hmem
    rw [hshape.inputs] at hinput
    rcases List.mem_append.mp hinput with hlower | hupper
    · obtain ⟨g, -, hg⟩ := List.mem_map.mp hlower
      have hlevel : (v.val : ℤ) = u'.val := congrArg CompactionInput.level hg
      omega
    · obtain ⟨g, hg, heq⟩ := List.mem_map.mp hupper
      obtain rfl : g = f := congrArg CompactionInput.file heq
      exact absurd ((ascending_append.mp hord).2.2 g hg g hf) (lt_irrefl _)
  refine ⟨?_, fun l hl => ?_⟩
  · rw [afterCompaction_level h hshape houts, if_pos rfl, hnewer]
  · have hlv : l ≠ v := fun heq => by
      rw [heq] at hl
      have hlt : v.val < u'.val := hl
      omega
    rw [afterCompaction_level h hshape houts, if_neg hl.ne, if_neg hlv]

def StoreAction.picks : StoreAction → Bool
  | .pick _ _ => true
  | _ => false

def StoreAction.flushes : StoreAction → Bool
  | .commitFlush => true
  | _ => false

/-- A step draws one if it picks a job, and a committed flush pays for the jobs it may cause. -/
theorem atMost_step {a : StoreAction} (h : StoreInv scanned s) (hj : Jobs s) (hn : s.AtMost force n)
    (hforce : ∀ ttl_map, a = .pick true ttl_map → force = true) (hs : s.step a = some s') :
    ∃ m, m + (if a.picks then 1 else 0) ≤ n + (if a.flushes then maxRank force else 0) ∧
      s'.AtMost force m := by
  cases store_kind hs with
  | build => exact ⟨n, le_rfl, atMost_same hn ⟨rfl, rfl, rfl⟩ rfl⟩
  | commitFlush => exact ⟨n + maxRank force, le_rfl, atMost_max force s' (Nat.le_add_left _ _)⟩
  | @pick picked ttl_map work hwork =>
    have hnone := (hj.idle (pick_level hwork).1).1
    have hpicked : picked = true → force = true := fun hp => hforce ttl_map (by rw [hp])
    obtain ⟨u, hchosen⟩ := pick_chosen hj hpicked hwork
    simp only [Store.AtMost, hnone] at hn
    have hpos := hchosen.rank_pos
    have hrank : (s.afterPick work).rank force = s.rank force := rank_congr force rfl
    refine ⟨n - 1, ?_, Or.inr ⟨u, hchosen.congr rfl, ?_⟩⟩
    · show n - 1 + 1 ≤ n + 0
      omega
    · omega
  | @skip _ _ held =>
    have hc := cleaned_tryDelete s held
    exact ⟨n, le_rfl, atMost_same hn (sameDue_cleaned hc) (by rw [hc.compaction])⟩
  | refused hrun _ hlevel => exact absurd (hj.level _ hrun) (not_lt.mpr hlevel)
  | read hrun => exact ⟨n, le_rfl, atMost_same hn ⟨rfl, rfl, rfl⟩ (by rw [hrun]; rfl)⟩
  | output hrun => exact ⟨n, le_rfl, atMost_same hn ⟨rfl, rfl, rfl⟩ (by rw [hrun]; rfl)⟩
  | @commit run cleanup_obsolete held _ hrun hc =>
    refine ⟨n, le_rfl, ?_⟩
    obtain ⟨hrest, -, rfl⟩ := commitCompaction_eq h hrun hc
    have hrank : (s.afterCompaction run).rank force ≤ n := by
      simp only [Store.AtMost, hrun] at hn
      rcases hn with hmax | ⟨u, hchosen, hle⟩
      · exact (rank_le force _).trans hmax
      · obtain ⟨hempty, habove⟩ := hchosen.committed h hrun hrest
        have hlt := hchosen.rank_lt hempty habove
        omega
    cases cleanup_obsolete with
    | false => exact hrank
    | true =>
      have hclean := cleaned (s.afterCompaction run) held
      exact atMost_same (s := s.afterCompaction run) hrank (sameDue_cleaned hclean)
        (by rw [if_pos rfl, hclean.compaction])
  | @cleanup held =>
    have hc := cleaned s held
    exact ⟨n, le_rfl, atMost_same hn (sameDue_cleaned hc) (by rw [hc.compaction])⟩
  | @shutdown held =>
    have hc := cleaned s held
    have hd := sameDue_cleaned hc
    refine ⟨n, le_rfl, atMost_same hn ⟨hd.current, hd.in_progress, hd.compacting⟩ ?_⟩
    show (s.cleanupObsoleteFiles held).compaction.map CompactionRun.work = _
    rw [hc.compaction]

variable {e e' : Engine}

def EngineAction.flushes : EngineAction → Bool
  | .logFlush => true
  | _ => false

def EngineAction.forces : EngineAction → Bool
  | .pick force => force
  | _ => false

/-- Actions that keep the process and, unless jobs may be forced, pick only what is due. -/
def EngineAction.Paced (force : Bool) (a : EngineAction) : Prop :=
  a.isCrash = false ∧ (a.forces = true → force = true)

instance (force : Bool) (a : EngineAction) : Decidable (a.Paced force) :=
  inferInstanceAs (Decidable (_ ∧ _))

structure Budget (force : Bool) (n : ℕ) (e : Engine) : Prop where
  inv : EngineInv e
  jobs : Jobs e.store
  most : e.store.AtMost force n

theorem budget_engineStep {a : EngineAction} (h : Budget force n e) (hpaced : a.Paced force)
    (hs : e.step a = some e') :
    ∃ m, m + (if a.picks then 1 else 0) ≤ n + (if a.flushes then maxRank force else 0) ∧
      Budget force m e' := by
  have hcrash : a ≠ .crash := by
    rintro rfl
    exact absurd hpaced.1 (by decide)
  have hinv := engineInv_step h.inv hs hcrash
  have hjobs := jobs_engineStep h.jobs hs hcrash
  have hkeeps : ∀ m, m ≤ n → e'.store.AtMost force m → a.picks = false →
      ∃ m, m + (if a.picks then 1 else 0) ≤ n + (if a.flushes then maxRank force else 0) ∧
        Budget force m e' := fun m hm hnext hpicks =>
    ⟨m, by rw [hpicks]; exact Nat.le_add_right_of_le hm, hinv, hjobs, hnext⟩
  have hstore : ∀ {b : StoreAction}, e.store.step b = some e'.store →
      (∀ ttl_map, b = .pick true ttl_map → force = true) → b.picks = a.picks → b.flushes = a.flushes →
      ∃ m, m + (if a.picks then 1 else 0) ≤ n + (if a.flushes then maxRank force else 0) ∧
        Budget force m e' := by
    intro b hstep hforce hpicks hflushes
    obtain ⟨m, hm, hnext⟩ := atMost_step h.inv.store h.jobs h.most hforce hstep
    rw [hpicks, hflushes] at hm
    exact ⟨m, hm, hinv, hjobs, hnext⟩
  cases step_kind hs with
  | noop => exact hkeeps n le_rfl h.most rfl
  | @enter _ ops hops =>
    have hsame := ((callRule_threads e).enter ⟨rfl, rfl, rfl⟩ ops).1
    refine hkeeps n le_rfl (hsame ▸ h.most) ?_
    cases a <;> first | rfl | contradiction
  | resume hr => exact hkeeps n le_rfl (((callRule_threads e).resume ⟨rfl, rfl, rfl⟩ hr).1 ▸ h.most) rfl
  | rotate hr =>
    obtain ⟨rfl, -, -⟩ := flushMem_eq hr
    exact hkeeps n le_rfl h.most rfl
  | takeImm ht =>
    obtain ⟨m, -, -, rfl⟩ := takeImm_eq ht
    exact hkeeps n le_rfl h.most rfl
  | buildSST hb =>
    obtain ⟨m, s, -, hstep, rfl⟩ := buildSST_eq hb
    exact hstore hstep (fun _ heq => by contradiction) rfl rfl
  | logFlush hl =>
    obtain ⟨m, s, -, hstep, rfl⟩ := logFlush_eq hl
    exact hstore hstep (fun _ heq => by contradiction) rfl rfl
  | finishFlush hf =>
    obtain ⟨m, -, rfl⟩ := finishFlush_eq hf
    exact hkeeps n le_rfl h.most rfl
  | @store _ b s hb hstep =>
    refine hstore hstep (fun ttl_map heq => ?_) ?_ ?_
    · subst heq
      cases a with
      | pick picked =>
        apply hpaced.2
        cases hb
        rfl
      | _ => cases hb
    · cases a <;> first | contradiction | (cases hb; rfl)
    · cases a <;> first | contradiction | (cases hb; rfl)
  | commit _ hstep => exact hstore hstep (fun _ heq => by contradiction) rfl rfl
  | setTTL => exact hkeeps n le_rfl h.most rfl
  | closing hcloses hc =>
    rw [closing_eq hc] at hkeeps ⊢
    refine hkeeps n le_rfl h.most ?_
    cases a <;> first | rfl | contradiction
  | shutdown _ hd =>
    obtain ⟨s, hstep, rfl⟩ := shutdown_spec hd
    exact hstore hstep (fun _ heq => by contradiction) rfl rfl
  | crash => exact absurd rfl hcrash

theorem budget_run {as : List EngineAction} (h : Budget force n e) (hpaced : ∀ a ∈ as, a.Paced force)
    (hrun : as.foldlM Engine.step e = some e') :
    as.countP EngineAction.picks ≤ n + maxRank force * as.countP EngineAction.flushes ∧
      EngineInv e' ∧ Jobs e'.store := by
  refine ⟨countP_le_of_budget (fun n e a e' hb hp hs => budget_engineStep hb hp hs) h hpaced hrun, ?_⟩
  have hreach : Reach Engine.step (fun _ a => a ∈ as) e e' := reach_foldlM (fun a ha _ => ha) hrun
  refine hreach.invariant (I := fun e => EngineInv e ∧ Jobs e.store) ⟨h.inv, h.jobs⟩ ?_
  intro e a e' hi ha hs
  have hcrash : a ≠ .crash := by
    rintro rfl
    exact absurd (hpaced _ ha).1 (by decide)
  exact ⟨engineInv_step hi.1 hs hcrash, jobs_engineStep hi.2 hs hcrash⟩

theorem budget_start (db_dir : Bytes) (limit : Int64) (target : ℕ) (force : Bool) :
    Budget force 0 (Engine.start db_dir limit target) := by
  refine ⟨engineInv_start db_dir limit target, jobs_open db_dir _ _ _ limit target, ?_⟩
  have hempty : ∀ l, (Engine.start db_dir limit target).store.vmgr.current.level_files l = [] := by
    intro l
    have hcurrent := (recover_logged (logged_start db_dir)).1.current
    rw [start_open]
    show (Store.start db_dir target).vmgr.current.level_files l = []
    rw [Store.start, start_eq]
    show (VersionManager.init db_dir fun _ => none).1.current.level_files l = []
    rw [hcurrent]
    rfl
  exact (rank_empty force hempty).le

/-- Compactions come to rest: in every run from an empty database at most 6 are started for
each flush, and at most 6 more after the last one (11 if jobs are forced). -/
theorem compactions_come_to_rest (db_dir : Bytes) (limit : Int64) (target : ℕ) (force : Bool)
    {as bs : List EngineAction} {e e' : Engine} (hpaced : ∀ a ∈ as ++ bs, a.Paced force)
    (has : as.foldlM Engine.step (Engine.start db_dir limit target) = some e)
    (hbs : bs.foldlM Engine.step e = some e') :
    as.countP EngineAction.picks ≤ maxRank force * as.countP EngineAction.flushes ∧
      bs.countP EngineAction.picks ≤ maxRank force * (bs.countP EngineAction.flushes + 1) := by
  obtain ⟨hpaid, hinv, hjobs⟩ := budget_run (budget_start db_dir limit target force)
    (fun a ha => hpaced a (List.mem_append_left bs ha)) has
  have hrest := (budget_run ⟨hinv, hjobs, atMost_max force e.store le_rfl⟩
    (fun b hb => hpaced b (List.mem_append_right as hb)) hbs).1
  constructor
  · simpa using hpaid
  · rw [Nat.mul_add, Nat.mul_one, Nat.add_comm]
    exact hrest

def oneFlush (t : Int64) : List EngineAction :=
  [.put (ascii "cpu") t (ascii "v"), .flush, .takeImm, .buildSST, .logFlush, .finishFlush]

def oneCompaction (force : Bool) : List EngineAction :=
  [.pick force, .readInputs, .writeOutput, .commit true []]

/-- Four flushes ask for a compaction of L0; one more flush and a forced compaction follow. -/
theorem compactions_come_to_rest_forcedOnce : ∃ e e',
    (([1, 2, 3, 4] : List Int64).flatMap oneFlush ++ oneCompaction false).foldlM Engine.step
      (Engine.start (ascii "db") 1000 0) = some e ∧
    (oneFlush 5 ++ oneCompaction true).foldlM Engine.step e = some e' ∧
    (oneFlush 5 ++ oneCompaction true).countP EngineAction.picks ≤
      maxRank true * ((oneFlush 5 ++ oneCompaction true).countP EngineAction.flushes + 1) := by
  have hrun : ((([1, 2, 3, 4] : List Int64).flatMap oneFlush ++ oneCompaction false).foldlM Engine.step
      (Engine.start (ascii "db") 1000 0)).any (fun e =>
        ((oneFlush 5 ++ oneCompaction true).foldlM Engine.step e).isSome) = true := by decide +kernel
  obtain ⟨e, he, hnext⟩ := (Option.any_eq_true _ _).mp hrun
  obtain ⟨e', he'⟩ := Option.isSome_iff_exists.mp hnext
  have hpaced : ∀ a ∈ (([1, 2, 3, 4] : List Int64).flatMap oneFlush ++ oneCompaction false) ++
      (oneFlush 5 ++ oneCompaction true), a.Paced true := by decide
  exact ⟨e, e', he, he', (compactions_come_to_rest (ascii "db") 1000 0 true hpaced he he').2⟩

end MiniTsdb
