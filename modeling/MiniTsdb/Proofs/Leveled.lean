import MiniTsdb.Proofs.CompactionRun
import MiniTsdb.Proofs.EngineInv

/-! The shape of the levels: from L1 on, the key ranges of a level stay disjoint as long as
every job takes, of its output level, the files that lie between its own. -/

namespace MiniTsdb
open Lib

variable {scanned : TsKey → Bool}

/-- The key ranges of two files are disjoint. -/
def Apart (f g : FileMeta) : Prop := f.largest < g.smallest ∨ g.largest < f.smallest

/-- A file lies below all inputs of a job, or above all. -/
def Beside (g : FileMeta) (job : CompactionJob) : Prop :=
  (∀ input ∈ job.inputs, g.largest < input.file.smallest) ∨
    ∀ input ∈ job.inputs, input.file.largest < g.smallest

instance : Std.Symm Apart := ⟨fun _ _ h => h.symm⟩

def Store.Leveled (s : Store) : Prop :=
  ∀ l, l ≠ 0 → (s.vmgr.current.level_files l).Pairwise Apart

/-- A job from L1 or deeper finds no file of its output level between its inputs; the job from
L0 takes such files. -/
def Store.PullsOverlaps (s : Store) : StoreAction → Prop
  | .pick force ttl_map => ∀ work, s.pickCompactionWork force ttl_map = some work →
      2 ≤ work.job.output_level → ∀ l : Fin kMaxLevel, work.job.output_level = l.val →
      ∀ g ∈ s.vmgr.current.level_files l, Beside g work.job
  | _ => True

theorem minKey_le_maxKey {t : SSTable} (h : Ascending Prod.fst t.entries) : t.minKey ≤ t.maxKey := by
  cases hentries : t.entries with
  | nil =>
    rw [SSTable.minKey, SSTable.maxKey, hentries]
    exact le_rfl
  | cons e rest =>
    have hmem : e ∈ t.entries := by rw [hentries]; exact List.mem_cons_self
    obtain ⟨hlo, hhi⟩ := bounds_of_mem h hmem
    exact hlo.trans hhi

theorem Live.smallest_le {s : Store} {f : FileMeta} (h : Live s f) : f.smallest ≤ f.largest := by
  have hsmall : f.smallest = (s.tableAt f).minKey := congrArg FileMeta.smallest h.meta_eq
  have hlarge : f.largest = (s.tableAt f).maxKey := congrArg FileMeta.largest h.meta_eq
  rw [hsmall, hlarge]
  exact minKey_le_maxKey h.ascending

structure LevelInv (s : Store) : Prop where
  apart : s.Leveled
  beside : ∀ run, s.compaction = some run → ∀ l : Fin kMaxLevel, run.work.job.output_level = l.val →
    ∀ g ∈ s.others run.work.job l, Beside g run.work.job
  filled : ∀ run, s.compaction = some run → ∀ r ∈ run.result.new_readers, r.table.entries ≠ []

theorem LevelInv.keep {s s' : Store} (h : LevelInv s) (hinv : StoreInv scanned s')
    (hlevels : ∀ l, l ≠ 0 → s'.vmgr.current.level_files l = s.vmgr.current.level_files l)
    (hrun : ∀ run', s'.compaction = some run' → (∀ r ∈ run'.result.new_readers, r.table.entries ≠ []) ∧
      ∃ run, s.compaction = some run ∧ run.work.job = run'.work.job) : LevelInv s' := by
  refine ⟨fun l hl => ?_, fun run' hr l hout g hg => ?_, fun run' hr => (hrun run' hr).1⟩
  · rw [hlevels l hl]
    exact h.apart l hl
  · obtain ⟨-, run, hrun', hjob⟩ := hrun run' hr
    obtain ⟨u, v, p, upper, newer, hshape, -⟩ := hinv.run run' hr
    have hl : l ≠ 0 := by
      rintro rfl
      have hnext := hshape.next_level
      rw [hshape.output] at hout
      have hzero : v.val = (0 : Fin kMaxLevel).val := Int.ofNat_inj.mp hout
      rw [hzero] at hnext
      contradiction
    rw [← hjob] at hg hout ⊢
    refine h.beside run hrun' l hout g ?_
    rw [Store.others, hlevels l hl] at hg
    exact hg

theorem LevelInv.same {s s' : Store} (h : LevelInv s) (hinv : StoreInv scanned s')
    (hlevels : ∀ l, l ≠ 0 → s'.vmgr.current.level_files l = s.vmgr.current.level_files l)
    (hcompaction : s'.compaction = s.compaction) : LevelInv s' :=
  h.keep hinv hlevels fun run hr => by
    rw [hcompaction] at hr
    exact ⟨h.filled run hr, run, hr, rfl⟩

theorem pickLevel_output {s : Store} {ttl_map : TtlMap} {work : CompactionWork}
    (h : s.pickLevel ttl_map = some work) : 2 ≤ work.job.output_level := by
  obtain ⟨level, hmem, hsome⟩ := List.exists_of_findSome?_eq_some h
  dsimp only at hsome
  split_ifs at hsome
  obtain rfl := Option.some.inj hsome
  have hpos := (inner_level level hmem).2
  dsimp only
  omega

theorem beside_zero {s : Store} {front : FileMeta} {upper : List FileMeta} {g : FileMeta}
    (h : StoreInv scanned s) (hl : s.Leveled) (hzero : s.vmgr.current.level_files 0 = front :: upper)
    (hg : g ∈ s.vmgr.current.level_files 1)
    (hout : g ∉ overlapping (s.vmgr.current.level_files 1) (smallestKey front (front :: upper))
      (largestKey front (front :: upper))) :
    Beside g ⟨((overlapping (s.vmgr.current.level_files 1) (smallestKey front (front :: upper))
      (largestKey front (front :: upper))).map fun f => ⟨1, f⟩) ++
        (front :: upper).map fun f => ⟨0, f⟩, 1⟩ := by
  have hlo := smallestKey_le front (front :: upper)
  have hhi := le_largestKey front (front :: upper)
  set lo := smallestKey front (front :: upper)
  set hi := largestKey front (front :: upper)
  have hrange : ∀ f ∈ front :: upper, f.smallest ≤ f.largest := by
    intro f hf
    exact (h.live 0 f (hzero ▸ hf)).smallest_le
  have hpulled : ∀ f ∈ overlapping (s.vmgr.current.level_files 1) lo hi,
      f ∈ s.vmgr.current.level_files 1 ∧ lo ≤ f.largest ∧ f.smallest ≤ hi := by
    intro f hf
    obtain ⟨hf, hin⟩ := List.mem_filter.mp hf
    rw [Bool.not_eq_true', Bool.or_eq_false_iff, beq_eq_false_iff_ne, beq_eq_false_iff_ne] at hin
    exact ⟨hf, not_lt.mp fun hlt => hin.1 (tsKeyComparator_lt_iff.mpr hlt),
      not_lt.mp fun hlt => hin.2 (tsKeyComparator_gt_iff.mpr hlt)⟩
  have hself := (h.live 1 g hg).smallest_le
  have hapart : ∀ f ∈ overlapping (s.vmgr.current.level_files 1) lo hi, Apart f g := by
    intro f hf
    have hne : f ≠ g := fun he => hout (he ▸ hf)
    exact (hl 1 (by decide)).forall (hpulled f hf).1 hg hne
  have hsides : g.largest < lo ∨ hi < g.smallest := by
    by_contra hno
    push Not at hno
    refine hout (List.mem_filter.mpr ⟨hg, ?_⟩)
    rw [Bool.not_eq_true', Bool.or_eq_false_iff, beq_eq_false_iff_ne, beq_eq_false_iff_ne]
    exact ⟨fun hlt => absurd (tsKeyComparator_lt_iff.mp hlt) (not_lt.mpr hno.1),
      fun hgt => absurd (tsKeyComparator_gt_iff.mp hgt) (not_lt.mpr hno.2)⟩
  rcases hsides with hside | hside
  · left
    intro input hi'
    rcases List.mem_append.mp hi' with hi' | hi'
    · obtain ⟨f, hf, rfl⟩ := List.mem_map.mp hi'
      refine (hapart f hf).resolve_left fun hlt => ?_
      exact absurd ((hpulled f hf).2.1.trans_lt (hlt.trans_le hself)) (not_lt.mpr hside.le)
    · obtain ⟨f, hf, rfl⟩ := List.mem_map.mp hi'
      exact hside.trans_le (hlo.2 f hf)
  · right
    intro input hi'
    rcases List.mem_append.mp hi' with hi' | hi'
    · obtain ⟨f, hf, rfl⟩ := List.mem_map.mp hi'
      refine (hapart f hf).resolve_right fun hlt => ?_
      exact absurd ((hself.trans_lt hlt).trans_le (hpulled f hf).2.2) (not_lt.mpr hside.le)
    · obtain ⟨f, hf, rfl⟩ := List.mem_map.mp hi'
      exact (hhi.2 f hf).trans_lt hside

theorem beside_pick {s : Store} {force : Bool} {ttl_map : TtlMap} {work : CompactionWork}
    (h : StoreInv scanned s) (hl : s.Leveled) (hpulls : s.PullsOverlaps (.pick force ttl_map))
    (hp : s.pickCompactionWork force ttl_map = some work) (l : Fin kMaxLevel)
    (hout : work.job.output_level = l.val) : ∀ g ∈ s.others work.job l, Beside g work.job := by
  intro g hg
  obtain ⟨hlevel, hother⟩ := List.mem_filter.mp hg
  by_cases htwo : 2 ≤ work.job.output_level
  · exact hpulls work hp htwo l hout g hlevel
  have hnone := (pick_shape h hp).1
  have hall : (s.vmgr.current.level_files 0).filter (fun f =>
      !s.compacting_files.contains f.file_number) = s.vmgr.current.level_files 0 := by
    rw [h.compacting, hnone]
    simp
  unfold Store.pickCompactionWork at hp
  split_ifs at hp with hprogress
  rw [hall] at hp
  cases hzero : s.vmgr.current.level_files 0 with
  | nil =>
    rw [hzero] at hp
    exact absurd (pickLevel_output hp) htwo
  | cons front upper =>
    rw [hzero] at hp
    dsimp only at hp
    split_ifs at hp with hforce
    · obtain rfl := Option.some.inj hp
      obtain rfl : (1 : Fin kMaxLevel) = l := Fin.ext (Int.ofNat_inj.mp hout)
      refine beside_zero h hl hzero hlevel fun hin => ?_
      rw [Bool.not_eq_true', List.any_eq_false] at hother
      refine hother ⟨1, g⟩ (List.mem_append_left _ (List.mem_map.mpr ⟨g, hin, rfl⟩)) ?_
      simp
    · exact absurd (pickLevel_output hp) htwo

section
variable {s : Store} (h : StoreInv scanned s) {run : CompactionRun} (hrun : s.compaction = some run)
  {u v : Fin kMaxLevel} {p : FileMeta → Bool} {upper newer : List FileMeta}
  (hshape : JobShape s run.work.job u v p upper newer) {outs : List (FileMeta × SSTable)}
  (houts : Outputs s run v outs)
  (hmerge : IsMerge (run.keeps scanned)
    (run.work.job.inputs.map fun input => s.tableAt input.file) (outs.flatMap fun o => o.2.entries))

include h hshape hmerge in
/-- Every key of an output is in the range of an input. -/
theorem output_covered {o : FileMeta × SSTable} (ho : o ∈ outs) {e : TsKey × InternalEntry}
    (he : e ∈ o.2.entries) : ∃ input ∈ run.work.job.inputs,
      input.file.smallest ≤ e.1 ∧ e.1 ≤ input.file.largest := by
  have hmem : e ∈ outs.flatMap fun o => o.2.entries := List.mem_flatMap.mpr ⟨o, ho, he⟩
  have hlookup := hmerge.ascending.lookup_eq_some hmem
  rw [hmerge.lookup] at hlookup
  split_ifs at hlookup
  obtain ⟨t, ht, hget⟩ := List.mem_filterMap.mp (List.mem_of_head? hlookup)
  obtain ⟨input, hi, rfl⟩ := List.mem_map.mp (List.mem_reverse.mp ht)
  obtain ⟨l, -, hf⟩ := hshape.mem_input hi
  exact ⟨input, hi, (h.live l _ hf).bounds hget⟩

include houts in
theorem output_keys {o : FileMeta × SSTable} (ho : o ∈ outs) (hne : o.2.entries ≠ []) :
    (∃ e ∈ o.2.entries, e.1 = o.1.smallest) ∧ ∃ e ∈ o.2.entries, e.1 = o.1.largest := by
  have hsmall : o.1.smallest = o.2.minKey := congrArg FileMeta.smallest (houts.ready o ho).meta_eq
  have hlarge : o.1.largest = o.2.maxKey := congrArg FileMeta.largest (houts.ready o ho).meta_eq
  rw [hsmall, hlarge]
  exact ⟨(minKey_spec hne).2, (maxKey_spec hne).2⟩

include h hrun hshape houts hmerge in
/-- The outputs are apart from each other, as they cut one ascending list, and from what the
job left of their level, as that lies beside all inputs. -/
theorem leveled_afterCompaction (hl : LevelInv s) : (s.afterCompaction run).Leveled := by
  have hfilled : ∀ o ∈ outs, o.2.entries ≠ [] := by
    intro o ho
    refine hl.filled run hrun ⟨o.1.file_name, o.2⟩ ?_
    rw [houts.readers]
    exact List.mem_map.mpr ⟨o, ho, rfl⟩
  have hothers : s.others run.work.job v = (s.vmgr.current.level_files v).filter fun f => !p f := by
    rw [others_eq houts, kept_level h hshape houts, if_neg (level_ne hshape).symm, if_pos rfl]
  intro l hne
  rw [afterCompaction_level h hshape houts]
  split_ifs with hu hv
  · subst hu
    have hold := hl.apart l hne
    rw [hshape.upper_eq] at hold
    exact (List.pairwise_append.mp hold).2.1
  · subst hv
    refine List.pairwise_append.mpr ⟨(hl.apart l hne).filter _, List.pairwise_map.mpr ?_, ?_⟩
    · have hcut := (List.pairwise_flatMap.mp hmerge.ascending).2
      refine hcut.imp_of_mem fun ha hb hlt => Or.inl ?_
      obtain ⟨x, hx, hxe⟩ := (output_keys houts ha (hfilled _ ha)).2
      obtain ⟨y, hy, hye⟩ := (output_keys houts hb (hfilled _ hb)).1
      rw [← hxe, ← hye]
      exact hlt x hx y hy
    · intro g hg f hf
      obtain ⟨o, ho, rfl⟩ := List.mem_map.mp hf
      obtain ⟨⟨x, hx, hxe⟩, y, hy, hye⟩ := output_keys houts ho (hfilled o ho)
      obtain ⟨a, ha, hax, -⟩ := output_covered h hshape hmerge ho hx
      obtain ⟨b, hb, -, hyb⟩ := output_covered h hshape hmerge ho hy
      rw [← hothers] at hg
      rcases hl.beside run hrun l hshape.output g hg with hbelow | habove
      · left
        rw [← hxe]
        exact (hbelow a ha).trans_le hax
      · right
        rw [← hye]
        exact hyb.trans_lt (habove b hb)
  · exact hl.apart l hne

end

theorem levelInv_step {s s' : Store} {a : StoreAction} (h : StoreInv scanned s) (hl : LevelInv s)
    (hok : StoreScans scanned s a) (hpulls : s.PullsOverlaps a) (hs : s.step a = some s') :
    LevelInv s' := by
  have hinv := storeInv_step h hok hs
  cases store_kind hs with
  | build => exact hl.same hinv (fun _ _ => rfl) rfl
  | commitFlush hc =>
    obtain ⟨n, t, hb, rfl⟩ := commitFlush_eq h hc
    refine hl.same hinv (fun l hne => ?_) rfl
    rw [afterFlush_level h hb, if_neg hne, List.append_nil]
  | pick hwork =>
    refine ⟨hl.apart, fun run hr l hout g hg => ?_, fun run hr r hmem => ?_⟩
    · obtain rfl := Option.some.inj hr
      exact beside_pick h hl.apart hpulls hwork l hout g hg
    · obtain rfl := Option.some.inj hr
      contradiction
  | skip => exact hl.same hinv (fun _ _ => rfl) rfl
  | refused => exact hl.keep hinv (fun _ _ => rfl) fun run' hr => by contradiction
  | @read run reader merged result hrun hrest hinputs =>
    refine hl.keep hinv (fun _ _ => rfl) fun run' hr => ?_
    obtain rfl := Option.some.inj hr
    refine ⟨fun r hmem => ?_, run, hrun, rfl⟩
    unfold runInputs at hinputs
    split_ifs at hinputs
    · obtain ⟨-, rfl⟩ := Prod.mk.inj (Except.ok.inj hinputs)
      contradiction
    · obtain ⟨-, rfl⟩ := Prod.mk.inj (Except.ok.inj hinputs)
      contradiction
  | @output run records t hrun hrest hrecords ht =>
    refine hl.keep hinv (fun _ _ => rfl) fun run' hr => ?_
    obtain rfl := Option.some.inj hr
    refine ⟨fun r hmem => ?_, run, hrun, rfl⟩
    rcases List.mem_append.mp hmem with hmem | hmem
    · exact hl.filled run hrun r hmem
    · rw [List.mem_singleton.mp hmem]
      dsimp only
      rw [finishTable_entries ht]
      have hne := takeChunk_ne_nil (targetBytes s.target_file_size) 0 hrecords
      simpa using hne
  | @commit run cleanup_obsolete held _ hrun hcommit =>
    obtain ⟨hrest, -, heq⟩ := commitCompaction_eq h hrun hcommit
    obtain ⟨u, v, p, upper, newer, hshape, hstate⟩ := h.run run hrun
    unfold RunState at hstate
    rw [hrest] at hstate
    obtain ⟨outs, houts, hmerge⟩ := hstate
    rw [List.map_nil, List.append_nil] at hmerge
    have hafter : LevelInv (s.afterCompaction run) :=
      ⟨leveled_afterCompaction h hrun hshape houts hmerge hl, fun run' hr => by contradiction,
        fun run' hr => by contradiction⟩
    rw [heq] at hinv ⊢
    cases cleanup_obsolete with
    | false => exact hafter
    | true =>
      have hc := cleaned (s.afterCompaction run) held
      refine hafter.same hinv (fun l _ => ?_) hc.compaction
      rw [if_pos rfl, hc.vmgr]
  | @cleanup held =>
    have hc := cleaned s held
    refine hl.same hinv (fun l _ => ?_) hc.compaction
    rw [hc.vmgr]
  | @shutdown held =>
    have hc := cleaned s held
    refine hl.same hinv (fun l _ => ?_) hc.compaction
    change (s.cleanupObsoleteFiles held).vmgr.current.level_files l = _
    rw [hc.vmgr]

theorem start_level (db_dir : Bytes) (target : ℕ) (l : Fin kMaxLevel) :
    (Store.start db_dir target).vmgr.current.level_files l = [] := by
  obtain ⟨⟨hcurrent, -, -, -, -⟩, -⟩ := recover_logged (logged_start db_dir)
  rw [Store.start, start_eq]
  change (VersionManager.init db_dir fun _ => none).1.current.level_files l = []
  rw [hcurrent]
  rfl

theorem levelInv_start (db_dir : Bytes) (target : ℕ) : LevelInv (Store.start db_dir target) := by
  refine ⟨fun l _ => ?_, fun run hr => by contradiction, fun run hr => by contradiction⟩
  rw [start_level]
  exact List.Pairwise.nil

/-- Every version reached by flushes and compactions has disjoint key ranges on each level from
L1 on, where no job from L1 or deeper leaves a file between its inputs behind. -/
theorem levels_stay_apart (db_dir : Bytes) (target : ℕ) {s : Store}
    (h : Reach Store.step (fun s a => StoreScans sstScanned s a ∧ s.PullsOverlaps a)
      (Store.start db_dir target) s) :
    ∀ l, l ≠ 0 → (s.vmgr.current.level_files l).Pairwise Apart :=
  (h.invariant (I := fun s => StoreInv sstScanned s ∧ LevelInv s)
    ⟨storeInv_start db_dir target, levelInv_start db_dir target⟩
    fun _ _ _ hi hok hs => ⟨storeInv_step hi.1 hok.1 hs,
      levelInv_step hi.1 hi.2 hok.1 hok.2 hs⟩).2.apart

/-- A job from L0 writes two files to L1. -/
theorem levels_stay_apart_two :
    ∃ s, Reach Store.step (fun s a => StoreScans sstScanned s a ∧ s.PullsOverlaps a)
        (Store.start (ascii "db") 1) s ∧
      (s.vmgr.current.level_files 1).map FileMeta.file_number = [2, 3] ∧
      ∀ l, l ≠ 0 → (s.vmgr.current.level_files l).Pairwise Apart := by
  have hrun : (([StoreAction.build [(⟨ascii "cpu", 5⟩, ⟨ascii "v", .kValue⟩),
      (⟨ascii "mem", 1⟩, ⟨ascii "w", .kValue⟩)], .commitFlush].foldlM Store.step
        (Store.start (ascii "db") 1)).bind fun s =>
      (s.step (.pick true fun _ => none)).bind fun s₁ => (s₁.step (.read s₁.makeSSTReader)).bind fun s₂ =>
        ([StoreAction.output, .output, .commit false []].foldlM Store.step s₂).map fun s₃ =>
          ((s.pickCompactionWork true fun _ => none).map fun work => work.job.output_level,
            (s₃.vmgr.current.level_files 1).map FileMeta.file_number)) = some (some 1, [2, 3]) := by
    decide +kernel
  obtain ⟨s, hs, hrun⟩ := Option.bind_eq_some_iff.mp hrun
  obtain ⟨s₁, hs₁, hrun⟩ := Option.bind_eq_some_iff.mp hrun
  obtain ⟨s₂, hs₂, hrun⟩ := Option.bind_eq_some_iff.mp hrun
  obtain ⟨s₃, hs₃, hstate⟩ := Option.map_eq_some_iff.mp hrun
  obtain ⟨hpick, hfiles⟩ := Prod.mk.inj hstate
  have hpulls : s.PullsOverlaps (.pick true fun _ => none) := by
    intro work hwork htwo
    rw [hwork] at hpick
    have hone : work.job.output_level = 1 := Option.some.inj hpick
    omega
  have hreach : Reach Store.step (fun s a => StoreScans sstScanned s a ∧ s.PullsOverlaps a)
      (Store.start (ascii "db") 1) s := by
    refine reach_foldlM ?_ hs
    intro a ha s
    simp only [List.mem_cons, List.not_mem_nil, or_false] at ha
    rcases ha with rfl | rfl
    · exact ⟨List.pairwise_pair.mpr (by decide +kernel), trivial⟩
    · exact ⟨trivial, trivial⟩
  have hwrite : Reach Store.step (fun s a => StoreScans sstScanned s a ∧ s.PullsOverlaps a) s₂ s₃ := by
    refine reach_foldlM ?_ hs₃
    intro a ha s
    simp only [List.mem_cons, List.not_mem_nil, or_false] at ha
    rcases ha with rfl | rfl | rfl <;> exact ⟨trivial, trivial⟩
  have hread : StoreScans sstScanned s₁ (.read s₁.makeSSTReader) :=
    fun run _ => readerScans_makeSSTReader s₁ run.work.job
  have hpicked : StoreScans sstScanned s (.pick true fun _ => none) := trivial
  have hall := ((hreach.step ⟨hpicked, hpulls⟩ hs₁).step ⟨hread, trivial⟩ hs₂).trans hwrite
  exact ⟨s₃, hall, hfiles, levels_stay_apart (ascii "db") 1 hall⟩

section
variable {key : TsKey} {entry : InternalEntry} {t : SSTable}
  (ht : finishTable [(key, entry)] = some t)
include ht

theorem flush_single {s : Store} (h : StoreInv sstScanned s) (hb : s.built = none) :
    ∃ s' f, Reach Store.step (StoreScans sstScanned) s s' ∧ StoreInv sstScanned s' ∧ s'.built = none ∧
      s'.compaction = s.compaction ∧ s'.tableAt f = t ∧
      ∀ l, s'.vmgr.current.level_files l = s.vmgr.current.level_files l ++ if l = 0 then [f] else [] := by
  obtain ⟨s₁, h₁, hb₁, hcurrent, hcompaction⟩ : ∃ s₁, s.step (.build [(key, entry)]) = some s₁ ∧
      s₁.built = some (s.vmgr.next_file_number, t) ∧ s₁.vmgr.current = s.vmgr.current ∧
      s₁.compaction = s.compaction := by
    simp only [Store.step, Store.buildFlush, hb, ht]
    exact ⟨_, rfl, rfl, rfl, rfl⟩
  have hok : StoreScans sstScanned s (.build [(key, entry)]) := List.pairwise_singleton _ _
  have hinv₁ := storeInv_step h hok h₁
  obtain ⟨s₂, h₂⟩ : ∃ s₂, s₁.step .commitFlush = some s₂ := by
    simp only [Store.step, Store.commitFlush, hb₁]
    exact ⟨_, rfl⟩
  have hok₂ : StoreScans sstScanned s₁ .commitFlush := trivial
  have hinv₂ := storeInv_step hinv₁ hok₂ h₂
  obtain ⟨n, t', hb', rfl⟩ := commitFlush_eq hinv₁ h₂
  obtain ⟨rfl, rfl⟩ := Prod.mk.inj (Option.some.inj (hb'.symm.trans hb₁))
  refine ⟨_, s₁.flushFile _ _, (Reach.start.step hok h₁).step hok₂ h₂, hinv₂, rfl, hcompaction,
    afterFlush_tableAt_new hinv₁ hb₁, fun l => ?_⟩
  rw [afterFlush_level hinv₁ hb₁, hcurrent]

omit ht in
theorem mergeRecords_single {filter : Record → Bool} {r : Record} (h : filter r = true) :
    mergeRecords filter [[r]] = [r] := by
  have hsort : sortBy (rankedKey Record.key) [(r, 0)] = [(r, 0)] :=
    sortBy_eq_of_ascending (List.pairwise_singleton _ _)
  simp [mergeRecords, mergeRanked, ranked, h, hsort, firstOfEach]

omit ht in
theorem takeChunk_single (target approx : ℕ) (r : Record) : takeChunk target approx [r] = ([r], []) := by
  rw [takeChunk]
  dsimp only
  split_ifs <;> rfl

/-- A job of one file with one entry moves it one level down. -/
theorem push_single (hscan : sstScanned key = true) {s : Store} {force : Bool} {u v : Fin kMaxLevel} {f : FileMeta}
    (h : StoreInv sstScanned s) (hb : s.built = none) (htab : s.tableAt f = t)
    (hu : s.vmgr.current.level_files u = [f]) (hne : u ≠ v)
    (hpick : s.pickCompactionWork force (fun _ => none) =
      some ⟨⟨[⟨u.val, f⟩], v.val⟩, fun _ => none⟩) :
    ∃ s' g, Reach Store.step (StoreScans sstScanned) s s' ∧ StoreInv sstScanned s' ∧ s'.built = none ∧
      s'.compaction = none ∧ s'.tableAt g = t ∧ g.file_number = s.vmgr.next_file_number ∧
      ∀ l, s'.vmgr.current.level_files l = if l = u then [] else
        s.vmgr.current.level_files l ++ if l = v then [g] else [] := by
  have hentries := finishTable_entries ht
  have hf : f ∈ s.vmgr.current.level_files u := hu ▸ List.mem_singleton_self f
  obtain ⟨s₁, h₁, hrun₁, hvm₁, hdir₁, hb₁⟩ : ∃ s₁, s.step (.pick force fun _ => none) = some s₁ ∧
      s₁.compaction = some ⟨⟨⟨[⟨u.val, f⟩], v.val⟩, fun _ => none⟩, none, .empty⟩ ∧
      s₁.vmgr = s.vmgr ∧ s₁.dir = s.dir ∧ s₁.built = none := by
    simp only [Store.step, Store.startCompaction, hpick]
    exact ⟨_, rfl, rfl, rfl, rfl, hb⟩
  have hok₁ : StoreScans sstScanned s (.pick force fun _ => none) := trivial
  have hinv₁ := storeInv_step h hok₁ h₁
  have hread : s₁.makeSSTReader f.file_name = [toRecord key entry] := by
    have hdisk := (h.live u f hf).disk
    rw [htab, ← hvm₁, ← hdir₁] at hdisk
    have hscans := readerScans_makeSSTReader s₁ ⟨[⟨u.val, f⟩], v.val⟩ _ (List.mem_singleton_self _) t hdisk
    rw [hscans, SSTable.records, hentries]
    exact List.filter_eq_self.mpr fun r hr => by rw [List.mem_singleton.mp hr]; exact hscan
  obtain ⟨s₂, h₂, hrun₂, hvm₂, hb₂⟩ : ∃ s₂, s₁.step (.read s₁.makeSSTReader) = some s₂ ∧
      s₂.compaction = some ⟨⟨⟨[⟨u.val, f⟩], v.val⟩, fun _ => none⟩, some [toRecord key entry],
        ⟨⟨[], [(u.val, f.file_number)]⟩, [], []⟩⟩ ∧ s₂.vmgr = s.vmgr ∧ s₂.built = none := by
    have hlevel : ¬ ((v.val : ℤ) ≥ kMaxLevel) := by omega
    simp only [Store.step, hrun₁, Option.bind_some, Store.readInputs, runInputs, List.isEmpty_cons,
      Bool.false_eq_true, if_false, hlevel, List.map_cons, List.map_nil, hread]
    rw [mergeRecords_single rfl]
    simp only [List.filter_cons, levelIndex_val, Option.isSome_some, if_true, List.filter_nil,
      List.map_cons, List.map_nil]
    exact ⟨_, rfl, rfl, hvm₁, hb₁⟩
  have hok₂ : StoreScans sstScanned s₁ (.read s₁.makeSSTReader) :=
    fun run _ => readerScans_makeSSTReader s₁ run.work.job
  have hinv₂ := storeInv_step hinv₁ hok₂ h₂
  set n := s.vmgr.next_file_number
  set g := t.fileMeta n (s.vmgr.newFileName n) with hg
  obtain ⟨s₃, h₃, hrun₃, hvm₃, hb₃⟩ : ∃ s₃, s₂.step .output = some s₃ ∧
      s₃.compaction = some ⟨⟨⟨[⟨u.val, f⟩], v.val⟩, fun _ => none⟩, some [],
        ⟨⟨[(v.val, g)], [(u.val, f.file_number)]⟩, [⟨g.file_name, t⟩], [g.file_name]⟩⟩ ∧
      s₃.vmgr = { s.vmgr with next_file_number := n + 1 } ∧ s₃.built = none := by
    have hpair : [toRecord key entry].map Record.pair = [(key, entry)] := by simp
    simp only [Store.step, hrun₂, Option.bind_some, Store.writeOutput, takeChunk_single, hpair, ht, hvm₂]
    exact ⟨_, rfl, rfl, rfl, hb₂⟩
  have hok₃ : StoreScans sstScanned s₂ .output := trivial
  have hinv₃ := storeInv_step hinv₂ hok₃ h₃
  obtain ⟨s₄, h₄⟩ : ∃ s₄, s₃.step (.commit false []) = some s₄ := by
    have hvalid : s₃.isCompactionInputValid ⟨[⟨u.val, f⟩], v.val⟩ = true := by
      simp [Store.isCompactionInputValid, levelIndex_val, hvm₃, hu]
    simp only [Store.step, hrun₃, Option.bind_some, Store.commitCompaction, hvalid, if_true]
    exact ⟨_, rfl⟩
  have hok₄ : StoreScans sstScanned s₃ (.commit false []) := trivial
  have hinv₄ := storeInv_step hinv₃ hok₄ h₄
  obtain ⟨run, hrun, hcommit⟩ := Option.bind_eq_some_iff.mp h₄
  obtain rfl := Option.some.inj (hrun.symm.trans hrun₃)
  obtain ⟨-, -, rfl⟩ := commitCompaction_eq hinv₃ hrun hcommit
  have hreach := (((Reach.start.step hok₁ h₁).step hok₂ h₂).step hok₃ h₃).step hok₄ h₄
  refine ⟨_, g, hreach, hinv₄, hb₃, rfl, ?_, rfl, fun l => ?_⟩
  · have hnew : n ∈ s₃.unpublished := mem_unpublished_run hrun₃ (List.mem_singleton_self n)
    have hnone : ∀ r ∈ s₃.sst_readers, r.file_name ≠ g.file_name := by
      have hname := hinv₃.no_reader hnew
      rwa [hvm₃] at hname
    refine (congrArg (fun r => (r.map TableReader.table).getD ⟨[], 0⟩)
      (findReader_append_of_none hnone [⟨g.file_name, t⟩])).trans ?_
    simp [findReader]
  · refine (applyUnlocked_level s₃.vmgr _ l).trans ?_
    rw [hvm₃]
    have hadded : VersionEdit.addedAt ⟨[((v.val : ℤ), g)], [((u.val : ℤ), f.file_number)]⟩ l =
        if l = v then [g] else [] := by
      by_cases hl : l = v
      · subst hl
        simp [VersionEdit.addedAt, levelIndex_val]
      · have hl' : ¬ v = l := fun he => hl he.symm
        simp [VersionEdit.addedAt, levelIndex_val, hl, hl']
    dsimp only
    rw [hadded]
    by_cases hl : l = u
    · subst hl
      rw [if_pos rfl, if_neg hne, hu]
      have hnil : sortFiles [] = [] := sortBy_eq_of_ascending ascending_nil
      simp [VersionEdit.deletes, levelIndex_val, hnil]
    · have hl' : ¬ u = l := fun he => hl he.symm
      have hkept : (s.vmgr.current.level_files l).filter (fun f' => !VersionEdit.deletes
          ⟨[((v.val : ℤ), g)], [((u.val : ℤ), f.file_number)]⟩ l f'.file_number) =
          s.vmgr.current.level_files l :=
        List.filter_eq_self.mpr fun f' _ => by simp [VersionEdit.deletes, levelIndex_val, hl']
      rw [hkept, if_neg hl]
      refine sortBy_eq_of_ascending (ascending_append.mpr ⟨h.ordered l, ?_, fun a ha b hb' => ?_⟩)
      · split_ifs
        · exact List.pairwise_singleton _ _
        · exact ascending_nil
      · split_ifs at hb' with hv
        · rw [List.mem_singleton.mp hb']
          exact h.below l a ha
        · contradiction

/-- A big entry goes from the memtable to L2, whatever is there. -/
theorem spill (hscan : sstScanned key = true) {s : Store} (hsize : kLevelSizeBase * 2 < t.file_size) (h : StoreInv sstScanned s)
    (hb : s.built = none) (hc : s.compaction = none) (h0 : s.vmgr.current.level_files 0 = [])
    (h1 : s.vmgr.current.level_files 1 = []) :
    ∃ s' g, Reach Store.step (StoreScans sstScanned) s s' ∧ StoreInv sstScanned s' ∧ s'.built = none ∧
      s'.compaction = none ∧ s'.vmgr.current.level_files 0 = [] ∧
      s'.vmgr.current.level_files 1 = [] ∧
      s'.vmgr.current.level_files 2 = s.vmgr.current.level_files 2 ++ [g] ∧ s'.tableAt g = t := by
  obtain ⟨s₁, f, hreach₁, hinv₁, hb₁, hc₁, htab₁, hlevels₁⟩ := flush_single ht h hb
  have hlevel₁ : s₁.vmgr.current.level_files 0 = [f] ∧ s₁.vmgr.current.level_files 1 = [] ∧
      s₁.vmgr.current.level_files 2 = s.vmgr.current.level_files 2 := by
    simp [hlevels₁, h0, h1]
  rw [hc] at hc₁
  have hpick₁ : s₁.pickCompactionWork true (fun _ => none) =
      some ⟨⟨[⟨(0 : Fin kMaxLevel).val, f⟩], (1 : Fin kMaxLevel).val⟩, fun _ => none⟩ := by
    have hprogress : s₁.compaction_in_progress = false := by
      rw [hinv₁.in_progress, hc₁]
      rfl
    have hcompacting : s₁.compacting_files = [] := by
      rw [hinv₁.compacting, hc₁]
      rfl
    simp [Store.pickCompactionWork, hprogress, hcompacting, hlevel₁, overlapping]
  obtain ⟨s₂, g, hreach₂, hinv₂, hb₂, hc₂, htab₂, -, hlevels₂⟩ :=
    push_single ht hscan hinv₁ hb₁ htab₁ hlevel₁.1 (by decide) hpick₁
  have hlevel₂ : s₂.vmgr.current.level_files 0 = [] ∧ s₂.vmgr.current.level_files 1 = [g] ∧
      s₂.vmgr.current.level_files 2 = s.vmgr.current.level_files 2 := by
    simp [hlevels₂, hlevel₁]
  have hbig : g.file_size = t.file_size := by
    have hg : g ∈ s₂.vmgr.current.level_files 1 := by simp [hlevel₂]
    rw [(hinv₂.live 1 g hg).meta_eq, htab₂]
    rfl
  have hpick₂ : s₂.pickCompactionWork false (fun _ => none) =
      some ⟨⟨[⟨(1 : Fin kMaxLevel).val, g⟩], (2 : Fin kMaxLevel).val⟩, fun _ => none⟩ := by
    have hprogress : s₂.compaction_in_progress = false := by
      rw [hinv₂.in_progress, hc₂]
      rfl
    have hover : ¬ g.file_size ≤ kLevelSizeBase * 2 := by omega
    simp [Store.pickCompactionWork, hprogress, hlevel₂, Store.pickLevel, hover]
  obtain ⟨s₃, g', hreach₃, hinv₃, hb₃, hc₃, htab₃, -, hlevels₃⟩ :=
    push_single ht hscan hinv₂ hb₂ htab₂ hlevel₂.2.1 (by decide) hpick₂
  refine ⟨s₃, g', (hreach₁.trans hreach₂).trans hreach₃, hinv₃, hb₃, hc₃, ?_, ?_, ?_, htab₃⟩
  · simp [hlevels₃, hlevel₂]
  · simp [hlevels₃]
  · simp [hlevels₃, hlevel₂]

end

theorem value_le_size {entries : List (TsKey × InternalEntry)} {t : SSTable}
    (ht : finishTable entries = some t) {e : TsKey × InternalEntry} (he : e ∈ entries) :
    e.2.value.length ≤ t.file_size := by
  obtain ⟨file, hfile, rfl⟩ := Option.map_eq_some_iff.mp ht
  cases hbloom : (entries.map fun e => encodeKey e.1).foldlM BloomFilter.add (BloomFilter.new 10) with
  | none =>
    rw [buildSSTable, addAll_eq_none entries (b := SSTableBuilder.new 4096) hbloom] at hfile
    contradiction
  | some bloom =>
    rw [buildSSTable_eq hbloom] at hfile
    obtain rfl := Option.some.inj hfile
    have hflat := cutBlocks_flatten 4096 entries []
    rw [List.nil_append] at hflat
    rw [← hflat] at he
    obtain ⟨b, hb, heb⟩ := List.mem_flatten.mp he
    have hentry : e.2.value.length ≤ (encodeEntry e.1 e.2).length := by
      simp only [encodeEntry, List.length_append, List.length_cons]
      omega
    have hblock : (encodeEntry e.1 e.2).length ≤ (encodeBlock b).length :=
      (List.sublist_flatten_of_mem (List.mem_map_of_mem (f := fun e : TsKey × InternalEntry =>
        encodeEntry e.1 e.2) heb)).length_le
    have hrecord : (encodeBlock b).length ≤ (blockRecord b).length := by
      rw [blockRecord, encodeBlockRecord, List.length_append]
      omega
    have htext : (blockRecord b).length ≤ (blocksText (cutBlocks 4096 [] entries)).length :=
      (List.sublist_flatten_of_mem (List.mem_map_of_mem hb)).length_le
    have hall : (blocksText (cutBlocks 4096 [] entries)).length ≤
        (fileText (cutBlocks 4096 [] entries) bloom).length := by
      rw [fileText, List.length_append]
      omega
    exact (((hentry.trans hblock).trans hrecord).trans htext).trans hall

/-- Two entries of one key, each over 2 MiB, flushed and compacted one after the other: L2 gets
both, in two files. -/
theorem deep_level_overlaps :
    ∃ s, Reach Store.step (StoreScans sstScanned) (Store.start (ascii "db") 0) s ∧
      ¬ (s.vmgr.current.level_files 2).Pairwise Apart := by
  set key : TsKey := ⟨ascii "cpu", 5⟩
  set entry : InternalEntry := ⟨List.replicate (kLevelSizeBase * 2 + 1) 0, .kValue⟩ with hentry
  obtain ⟨t, ht⟩ : ∃ t, finishTable [(key, entry)] = some t := by
    have hsome := (buildSSTable_isSome_iff 4096 [(key, entry)]).mpr (by decide)
    obtain ⟨file, hfile⟩ := Option.isSome_iff_exists.mp hsome
    exact ⟨_, by rw [finishTable, hfile]; rfl⟩
  have hscan : sstScanned key = true := by decide +kernel
  have hsize : kLevelSizeBase * 2 < t.file_size := by
    have hvalue := value_le_size ht (List.mem_singleton_self _)
    rw [hentry, List.length_replicate] at hvalue
    omega
  have hrange : ∀ s : Store, StoreInv sstScanned s → ∀ g ∈ s.vmgr.current.level_files 2,
      s.tableAt g = t → g.smallest = key ∧ g.largest = key := by
    intro s hinv g hg htab
    have hmeta := (hinv.live 2 g hg).meta_eq
    rw [htab] at hmeta
    rw [hmeta, SSTable.fileMeta, SSTable.minKey, SSTable.maxKey, finishTable_entries ht]
    exact ⟨rfl, rfl⟩
  obtain ⟨s₁, g₁, hreach₁, hinv₁, hb₁, hc₁, h0, h1, hlevel₁, htab₁⟩ :=
    spill ht hscan hsize (storeInv_start (ascii "db") 0) rfl rfl (start_level _ _ 0) (start_level _ _ 1)
  obtain ⟨s₂, g₂, hreach₂, hinv₂, -, -, -, -, hlevel₂, htab₂⟩ := spill ht hscan hsize hinv₁ hb₁ hc₁ h0 h1
  have hone := hrange s₁ hinv₁ g₁ (by simp [hlevel₁]) htab₁
  have htwo := hrange s₂ hinv₂ g₂ (by simp [hlevel₂]) htab₂
  refine ⟨s₂, hreach₁.trans hreach₂, fun hapart => ?_⟩
  rw [hlevel₂, hlevel₁, start_level] at hapart
  have hpair : Apart g₁ g₂ := List.pairwise_pair.mp hapart
  unfold Apart at hpair
  rw [hone.1, hone.2, htwo.1, htwo.2] at hpair
  exact hpair.elim (lt_irrefl key) (lt_irrefl key)

end MiniTsdb
