import MiniTsdb.Proofs.DamagedManifest
import MiniTsdb.Proofs.EngineDisk
import MiniTsdb.Proofs.Registry
import MiniTsdb.Proofs.CompactionRest

/-! No table is forgotten on disk: every one is of the version, on its way into it, or noted to
be deleted. The converse of what keeps the files of the version. -/

namespace MiniTsdb
open Lib

variable {scanned : TsKey → Bool}

section
variable {vm : VersionManager} {l : Fin kMaxLevel} {f : FileMeta}

theorem obsolete_applyDelete (vm : VersionManager) (d : ℤ × ℕ) :
    vm.obsolete_files ⊆ (vm.applyDelete d).obsolete_files := by
  unfold VersionManager.applyDelete
  cases levelIndex d.1 with
  | none => exact List.Subset.refl _
  | some l => exact List.subset_append_left _ _

theorem ordered_applyDelete (h : vm.current.Ordered) (d : ℤ × ℕ) : (vm.applyDelete d).current.Ordered := by
  intro l
  rw [applyDelete_level]
  exact (h l).filter _

/-- A file stays in the version or goes to the obsolete list. -/
theorem applyDelete_accounts (h : vm.current.Ordered) (d : ℤ × ℕ) (hf : f ∈ vm.current.level_files l) :
    f ∈ (vm.applyDelete d).current.level_files l ∨ f.file_name ∈ (vm.applyDelete d).obsolete_files := by
  by_cases hd : levelIndex d.1 = some l ∧ d.2 = f.file_number
  · right
    have hfind : (vm.current.level_files l).find? (fun g => g.file_number == d.2) = some f := by
      cases hg : (vm.current.level_files l).find? fun g => g.file_number == d.2 with
      | none => simpa [hd.2] using List.find?_eq_none.mp hg f hf
      | some g =>
        have hnumber : g.file_number = d.2 := by simpa using List.find?_some hg
        rw [(h l).inj (List.mem_of_find?_eq_some hg) hf (hnumber.trans hd.2)]
    unfold VersionManager.applyDelete
    rw [hd.1]
    dsimp only
    rw [hfind]
    simp
  · left
    rw [applyDelete_level, List.mem_filter]
    refine ⟨hf, ?_⟩
    rw [Bool.not_eq_true', Bool.eq_false_iff]
    intro hdel
    simp only [Bool.and_eq_true, beq_iff_eq] at hdel
    exact hd hdel

theorem foldl_applyDelete_accounts (ds : List (ℤ × ℕ)) (h : vm.current.Ordered) :
    (∀ name ∈ vm.obsolete_files, name ∈ (ds.foldl VersionManager.applyDelete vm).obsolete_files) ∧
      ∀ l, ∀ f ∈ vm.current.level_files l,
        f ∈ (ds.foldl VersionManager.applyDelete vm).current.level_files l ∨
          f.file_name ∈ (ds.foldl VersionManager.applyDelete vm).obsolete_files := by
  induction ds generalizing vm with
  | nil => exact ⟨fun _ hname => hname, fun l f hf => Or.inl hf⟩
  | cons d ds ih =>
    obtain ⟨hsub, hrest⟩ := ih (ordered_applyDelete h d)
    refine ⟨fun name hname => hsub name (obsolete_applyDelete vm d hname), fun l f hf => ?_⟩
    rcases applyDelete_accounts h d hf with hkept | hgone
    · exact hrest l f hkept
    · exact Or.inr (hsub _ hgone)

theorem applyUnlocked_accounts (edit : VersionEdit) (h : vm.current.Ordered) :
    (∀ name ∈ vm.obsolete_files, name ∈ (vm.applyUnlocked edit).obsolete_files) ∧
      ∀ l, ∀ f ∈ vm.current.level_files l, f ∈ (vm.applyUnlocked edit).current.level_files l ∨
        f.file_name ∈ (vm.applyUnlocked edit).obsolete_files := by
  obtain ⟨hsub, hrest⟩ := foldl_applyDelete_accounts edit.deleted_files h
  have hobsolete : (vm.applyUnlocked edit).obsolete_files =
      (edit.deleted_files.foldl VersionManager.applyDelete vm).obsolete_files :=
    foldl_applyAdd_obsolete edit.added_files _
  rw [hobsolete]
  refine ⟨hsub, fun l f hf => (hrest l f hf).imp_left fun hkept => ?_⟩
  rw [(foldl_applyDelete edit.deleted_files vm).2 l, List.mem_filter] at hkept
  exact mem_applyUnlocked.mpr (Or.inl ⟨hf, (Bool.not_eq_true' _).mp hkept.2⟩)

end

def Store.waiting (s : Store) : List Bytes :=
  s.vmgr.obsolete_files ++ s.pending_delete.map PendingDelete.file_name

/-- A file of the version, one that is on its way into it, or one that is to be deleted. -/
def Store.Known (s : Store) (n : ℕ) : Prop :=
  (∃ l, ∃ f ∈ s.vmgr.current.level_files l, f.file_number = n) ∨ n ∈ s.unpublished ∨
    s.vmgr.newFileName n ∈ s.waiting

/-- Every file of the directory is a table that is known. -/
def Accounted (s : Store) : Prop := ∀ e ∈ s.dir, ∃ n t, e = (sstName n, some t) ∧ s.Known n

variable {s s' : Store}

theorem Store.Known.same {n : ℕ} (h : s.Known n) (hcurrent : s'.vmgr.current = s.vmgr.current)
    (hdb : s'.vmgr.db_dir = s.vmgr.db_dir) (hunpublished : ∀ n ∈ s.unpublished, n ∈ s'.unpublished)
    (hwaiting : s'.waiting = s.waiting) : s'.Known n := by
  unfold Store.Known
  rw [hcurrent, VersionManager.newFileName, hdb, hwaiting]
  exact h.imp_right (Or.imp_left (hunpublished n))

theorem Accounted.same (h : Accounted s) (hdir : s'.dir = s.dir)
    (hcurrent : s'.vmgr.current = s.vmgr.current) (hdb : s'.vmgr.db_dir = s.vmgr.db_dir)
    (hunpublished : ∀ n ∈ s.unpublished, n ∈ s'.unpublished) (hwaiting : s'.waiting = s.waiting) :
    Accounted s' := by
  intro e he
  rw [hdir] at he
  obtain ⟨n, t, heq, hknown⟩ := h e he
  exact ⟨n, t, heq, hknown.same hcurrent hdb hunpublished hwaiting⟩

theorem Accounted.write {t : SSTable} (h : Accounted s)
    (hdir : s'.dir = writeTable s.dir (sstName s.vmgr.next_file_number) t)
    (hcurrent : s'.vmgr.current = s.vmgr.current) (hdb : s'.vmgr.db_dir = s.vmgr.db_dir)
    (hunpublished : s'.unpublished.Perm (s.vmgr.next_file_number :: s.unpublished))
    (hwaiting : s'.waiting = s.waiting) : Accounted s' := by
  intro e he
  rw [hdir] at he
  rcases List.mem_append.mp he with hold | hnew
  · obtain ⟨n, t', heq, hknown⟩ := h e (List.mem_of_mem_filter hold)
    refine ⟨n, t', heq, hknown.same hcurrent hdb (fun m hm => ?_) hwaiting⟩
    exact hunpublished.symm.subset (List.mem_cons_of_mem _ hm)
  · exact ⟨_, t, List.mem_singleton.mp hnew,
      Or.inr (Or.inl (hunpublished.symm.subset List.mem_cons_self))⟩

theorem not_mem_of_removed {db_dir : Bytes} {paths : List Bytes} {dir : SstDir}
    {e : Bytes × Option SSTable} (he : e ∈ paths.foldl (removeTable db_dir) dir) :
    joinPath db_dir e.1 ∉ paths := by
  induction paths generalizing dir with
  | nil => exact List.not_mem_nil
  | cons path paths ih =>
    intro hmem
    rcases List.mem_cons.mp hmem with rfl | hmem
    · have hin := (foldl_removeTable_sublist db_dir paths _).subset he
      simp [removeTable] at hin
    · exact ih he hmem

theorem accounted_tryDelete (h : Accounted s) (held : List Bytes) :
    Accounted (s.tryDeletePendingFiles held) := by
  have hc := cleaned_tryDelete s held
  intro e he
  obtain ⟨n, t, rfl, hknown⟩ := h e (hc.dir.subset he)
  refine ⟨n, t, rfl, hknown.imp_right (Or.imp id fun hwaiting => ?_)⟩
  rw [Store.tryDeletePendingFiles, ← List.foldl_map (f := PendingDelete.file_name)
    (g := removeTable s.vmgr.db_dir)] at he
  have hstays := not_mem_of_removed he
  rcases List.mem_append.mp hwaiting with hobsolete | hpending
  · exact List.mem_append_left _ hobsolete
  · obtain ⟨item, hitem, hname⟩ := List.mem_map.mp hpending
    refine List.mem_append_right _ (List.mem_map.mpr ⟨item, List.mem_filter.mpr ⟨hitem, ?_⟩, hname⟩)
    by_contra hdropped
    refine hstays (List.mem_map.mpr ⟨item, List.mem_filter.mpr ⟨hitem, ?_⟩, hname⟩)
    exact (Bool.not_eq_true' _).mpr (Bool.eq_false_iff.mpr hdropped)

theorem accounted_cleanup (h : Accounted s) (held : List Bytes) :
    Accounted (s.cleanupObsoleteFiles held) := by
  obtain ⟨heq, -, -, hnames⟩ := retireFiles_spec s.vmgr.obsolete_files
    { s with vmgr := { s.vmgr with obsolete_files := [] } }
  unfold Store.cleanupObsoleteFiles VersionManager.consumeObsoleteFiles
  dsimp only
  apply accounted_tryDelete
  intro e he
  rw [heq] at he
  obtain ⟨n, t, rfl, hknown⟩ := h e he
  refine ⟨n, t, rfl, ?_⟩
  rw [heq]
  refine hknown.imp_right (Or.imp id fun hwaiting => ?_)
  show s.vmgr.newFileName n ∈ [] ++ List.map PendingDelete.file_name _
  rw [List.nil_append, hnames]
  exact List.perm_append_comm.subset hwaiting

theorem waiting_cleanup (s : Store) : (s.cleanupObsoleteFiles []).waiting = [] := by
  obtain ⟨heq, -, -, -⟩ := retireFiles_spec s.vmgr.obsolete_files
    { s with vmgr := { s.vmgr with obsolete_files := [] } }
  unfold Store.cleanupObsoleteFiles VersionManager.consumeObsoleteFiles Store.tryDeletePendingFiles Store.waiting
  dsimp only
  rw [heq]
  simp

theorem accounted_afterFlush {n : ℕ} {t : SSTable} (h : Accounted s) (hinv : StoreInv scanned s)
    (hb : s.built = some (n, t)) : Accounted (s.afterFlush n t) := by
  obtain ⟨hsub, -⟩ := applyUnlocked_accounts (flushEdit (s.flushFile n t)) hinv.ordered
  intro e he
  obtain ⟨m, t', rfl, hknown⟩ := h e he
  refine ⟨m, t', rfl, ?_⟩
  rcases hknown with ⟨l, f, hf, hnumber⟩ | hunpublished | hwaiting
  · refine Or.inl ⟨l, f, ?_, hnumber⟩
    rw [afterFlush_level hinv hb]
    exact List.mem_append_left _ hf
  · rw [afterFlush_unpublished hb] at hunpublished
    rcases List.mem_cons.mp hunpublished with rfl | hrest
    · refine Or.inl ⟨0, s.flushFile m t, ?_, rfl⟩
      rw [afterFlush_level hinv hb, if_pos rfl]
      exact List.mem_append_right _ List.mem_cons_self
    · exact Or.inr (Or.inl hrest)
  · refine Or.inr (Or.inr ?_)
    rw [afterFlush_path]
    rcases List.mem_append.mp hwaiting with hobsolete | hpending
    · exact List.mem_append_left _ (hsub _ hobsolete)
    · exact List.mem_append_right _ hpending

theorem accounted_afterCompaction {run : CompactionRun} (h : Accounted s) (hinv : StoreInv scanned s)
    (hrun : s.compaction = some run) (hrest : run.rest = some []) :
    Accounted (s.afterCompaction run) := by
  obtain ⟨u, v, p, upper, newer, hshape, hstate⟩ := hinv.run run hrun
  unfold RunState at hstate
  rw [hrest] at hstate
  obtain ⟨outs, houts, -⟩ := hstate
  obtain ⟨hsub, hkeeps⟩ := applyUnlocked_accounts run.result.edit hinv.ordered
  intro e he
  obtain ⟨n, t, rfl, hknown⟩ := h e he
  refine ⟨n, t, rfl, ?_⟩
  rcases hknown with ⟨l, f, hf, rfl⟩ | hunpublished | hwaiting
  · rcases hkeeps l f hf with hkept | hgone
    · exact Or.inl ⟨l, f, hkept, rfl⟩
    · refine Or.inr (Or.inr (List.mem_append_left _ ?_))
      rw [afterCompaction_path, ← (hinv.live l f hf).path]
      exact hgone
  · rw [afterCompaction_unpublished hrun] at hunpublished
    rcases List.mem_append.mp hunpublished with hrest | hadded
    · exact Or.inr (Or.inl hrest)
    · -- an output is a file of the job's lower level now
      rw [mem_addedNumbers_out houts] at hadded
      obtain ⟨o, ho, rfl⟩ := List.mem_map.mp hadded
      refine Or.inl ⟨v, o.1, ?_, rfl⟩
      rw [afterCompaction_level hinv hshape houts, if_neg (level_ne hshape).symm, if_pos rfl]
      exact List.mem_append_right _ (List.mem_map_of_mem ho)
  · refine Or.inr (Or.inr ?_)
    rw [afterCompaction_path]
    rcases List.mem_append.mp hwaiting with hobsolete | hpending
    · exact List.mem_append_left _ (hsub _ hobsolete)
    · exact List.mem_append_right _ hpending

theorem accounted_step {a : StoreAction} (h : Accounted s) (hinv : StoreInv scanned s)
    (hs : s.step a = some s') : Accounted s' := by
  cases store_kind hs with
  | build hnone ht =>
    exact h.write rfl rfl rfl (List.Perm.of_eq (afterBuild_unpublished hnone _)) rfl
  | commitFlush hc =>
    obtain ⟨n, t, hb, rfl⟩ := commitFlush_eq hinv hc
    exact accounted_afterFlush h hinv hb
  | @pick force ttl_map work hwork =>
    have hidle := (pick_level hwork).1
    rw [hinv.in_progress] at hidle
    have hnone : s.compaction = none := by simpa using hidle
    refine h.same rfl rfl rfl (fun n hn => ?_) rfl
    rw [Store.unpublished, hnone] at hn
    exact hn
  | @skip _ _ held => exact accounted_tryDelete h held
  | refused hrun hrest hlevel => exact absurd hlevel (hinv.output_level hrun)
  | @read run _ _ _ hrun hrest _ =>
    refine h.same rfl rfl rfl (fun n hn => ?_) rfl
    obtain ⟨u, v, p, upper, newer, -, hstate⟩ := hinv.run run hrun
    unfold RunState at hstate
    rw [hrest] at hstate
    rw [Store.unpublished, hrun, Option.map_some, hstate] at hn
    rcases List.mem_append.mp hn with hbuilt | hnone
    · exact List.mem_append_left _ hbuilt
    · contradiction
  | output hrun hrest hne ht => exact h.write rfl rfl rfl (afterOutput_unpublished hrun _ _) rfl
  | @commit run cleanup_obsolete held _ hrun hc =>
    obtain ⟨hrest, -, rfl⟩ := commitCompaction_eq hinv hrun hc
    have hnext := accounted_afterCompaction h hinv hrun hrest
    cases cleanup_obsolete with
    | false => exact hnext
    | true => exact accounted_cleanup hnext held
  | @cleanup held => exact accounted_cleanup h held
  | @shutdown held =>
    rw [shutdown_eq hinv]
    exact accounted_cleanup h held

/-- What is opened again has the tables of the version and no others, or has taken in all. -/
theorem accounted_reopened {target : ℕ} (h : Accounted s) (hinv : StoreInv scanned s) (hdisk : DiskInv s)
    (hlogged : Logged s.vmgr.db_dir s.vmgr.current s.files)
    (hsmall : s.vmgr.current.IsEmpty → ∀ n t, (sstName n, some t) ∈ s.dir → n < 2 ^ 64) :
    Accounted (s.reopened.store target) := by
  by_cases hempty : s.vmgr.current.IsEmpty
  · have hr := reopen_scan hdisk hlogged hempty (hsmall hempty)
    intro e he
    have he : e ∈ s.dir := hr.dir ▸ he
    obtain ⟨n, t, rfl, -⟩ := h e he
    exact ⟨n, t, rfl, Or.inl ⟨0, _, (hr.zero _).mpr ⟨n, t, he, rfl⟩, rfl⟩⟩
  · have hr := reopen_version hinv hlogged hempty
    intro e he
    have he : e ∈ s.collected := hr.dir ▸ he
    obtain ⟨he, hlive⟩ := List.mem_filter.mp he
    obtain ⟨n, t, rfl, -⟩ := h e he
    have hlive : sstName n ∈ s.vmgr.current.liveFiles := by simpa [isSst_sstName] using hlive
    obtain ⟨l, f, hf, hname⟩ := mem_liveFiles_iff.mp hlive
    rw [(hinv.live l f hf).path, VersionManager.newFileName, baseName_newFileName] at hname
    refine ⟨n, t, rfl, Or.inl ⟨l, f, ?_, sstName_injective hname⟩⟩
    show f ∈ s.reopened.vm.current.level_files l
    rw [hr.recovered.current]
    exact hf

variable {e e' : Engine}

theorem accounted_engineStep {a : EngineAction} (h : Accounted e.store) (hinv : EngineInv e)
    (hdisk : EngineDisk e) (hok : e.ReadsBack a) (hs : e.step a = some e') : Accounted e'.store := by
  by_cases hcrash : a = .crash
  · subst hcrash
    rw [step_crash hs, crash_store]
    refine accounted_reopened h hinv.store hdisk.disk hdisk.logged fun hempty => ?_
    exact ((hok.2 rfl).resolve_left (not_not.mpr hempty)).1
  · rcases store_step hs hcrash with hsame | ⟨b, -, -, hstep, -⟩
    · rw [hsame]
      exact h
    · exact accounted_step h hinv.store hstep

theorem accounted_run {db_dir : Bytes} {limit : Int64} {target : ℕ}
    (h : Reach Engine.step Engine.ReadsBack (Engine.start db_dir limit target) e) :
    Accounted e.store ∧ EngineInv e ∧ EngineDisk e := by
  refine h.invariant (I := fun e => Accounted e.store ∧ EngineInv e ∧ EngineDisk e)
    ⟨?_, engineInv_start db_dir limit target, engineDisk_start db_dir limit target⟩ ?_
  · rw [start_open, Store.start, start_eq]
    intro e he
    contradiction
  · rintro e a e' ⟨haccounted, hinv, hdisk⟩ hok hs
    refine ⟨accounted_engineStep haccounted hinv hdisk hok hs, ?_⟩
    by_cases hcrash : a = .crash
    · subst hcrash
      rw [step_crash hs]
      exact engineInv_crash hinv hdisk (hok.2 rfl)
    · exact ⟨engineInv_step hinv hs hcrash, engineDisk_step hdisk hinv hok.1 hs hcrash⟩

/-- The actions that delete what is obsolete, while nobody holds a reader. -/
def EngineAction.sweeps : EngineAction → Bool
  | .cleanup [] | .commit true [] | .shutdown [] => true
  | _ => false

theorem waiting_sweep {a : EngineAction} (hinv : EngineInv e) (ha : a.sweeps = true)
    (hs : e.step a = some e') : e'.store.waiting = [] := by
  cases step_kind hs with
  | @store _ b s hb hstep =>
    cases a with
    | cleanup held =>
      cases held with
      | nil =>
        cases hb
        rw [← Option.some.inj hstep]
        exact waiting_cleanup e.store
      | cons name held => contradiction
    | _ => contradiction
  | @commit cleanup_obsolete held s _ hstep =>
    obtain ⟨rfl, rfl⟩ : cleanup_obsolete = true ∧ held = [] := by
      cases cleanup_obsolete <;> cases held <;> first | contradiction | exact ⟨rfl, rfl⟩
    cases store_kind hstep with
    | commit hrun hc =>
      obtain ⟨-, -, hs⟩ := commitCompaction_eq hinv.store hrun hc
      show s.waiting = []
      rw [hs, if_pos rfl]
      exact waiting_cleanup _
  | @shutdown held _ _ hd =>
    cases held with
    | nil =>
      obtain ⟨s, hstep, rfl⟩ := shutdown_spec hd
      rw [← Option.some.inj hstep]
      show (e.store.shutdown []).waiting = []
      rw [shutdown_eq hinv.store]
      exact waiting_cleanup e.store
    | cons name held => contradiction
  | enter hops => cases a <;> contradiction
  | closing hc => cases a <;> contradiction
  | _ => contradiction

/-- In every state of a run whose manifest parses back, crashes between its steps included, each
file of the directory is a table of the version, one on its way into it, or one noted to be
deleted; and what deletes files with no reader held, while no flush and no compaction has files
on their way, leaves exactly those of the version. -/
theorem no_orphan_tables (db_dir : Bytes) (limit : Int64) (target : ℕ)
    (h : Reach Engine.step Engine.ReadsBack (Engine.start db_dir limit target) e) :
    Accounted e.store ∧ ∀ a e', a.sweeps = true → e.ReadsBack a → e.step a = some e' →
      e'.store.unpublished = [] → ∀ name, name ∈ e'.store.dir.map Prod.fst ↔
        ∃ l, ∃ f ∈ e'.store.vmgr.current.level_files l, sstName f.file_number = name := by
  obtain ⟨haccounted, hinv, -⟩ := accounted_run h
  refine ⟨haccounted, fun a e' ha hok hs hidle name => ?_⟩
  obtain ⟨hnext, hinv', -⟩ := accounted_run (h.step hok hs)
  have hwaiting := waiting_sweep hinv ha hs
  constructor
  · intro hname
    obtain ⟨entry, hentry, rfl⟩ := List.mem_map.mp hname
    obtain ⟨n, t, rfl, hknown⟩ := hnext entry hentry
    rcases hknown with ⟨l, f, hf, rfl⟩ | hunpublished | hlisted
    · exact ⟨l, f, hf, rfl⟩
    · rw [hidle] at hunpublished
      contradiction
    · rw [hwaiting] at hlisted
      contradiction
  · rintro ⟨l, f, hf, rfl⟩
    have hlive := hinv'.store.live l f hf
    obtain ⟨entry, hentry, -⟩ := Option.bind_eq_some_iff.mp hlive.disk
    have hpath : joinPath e'.store.vmgr.db_dir entry.1 = f.file_name := by
      simpa using List.find?_some hentry
    rw [hlive.path] at hpath
    exact List.mem_map.mpr ⟨entry, List.mem_of_find?_eq_some hentry, joinPath_inj hpath⟩

/-- Four flushes, and the compaction that takes them in up to its commit. -/
def fourFlushesMerged : List EngineAction :=
  ([1, 2, 3, 4] : List Int64).flatMap oneFlush ++ [.pick false, .readInputs, .writeOutput]

theorem no_orphan_tables_compacted : ∃ e e',
    Reach Engine.step Engine.ReadsBack (Engine.start (ascii "db") 1000 0) e ∧
      e.step (.commit true []) = some e' ∧ (e'.store.dir.map Prod.fst).length = 1 ∧
      ∀ name, name ∈ e'.store.dir.map Prod.fst ↔
        ∃ l, ∃ f ∈ e'.store.vmgr.current.level_files l, sstName f.file_number = name := by
  have hrun : ((fourFlushesMerged.foldlM (guarded Engine.step fun e a => a.isCrash = false ∧ e.LogsBack a)
      (Engine.start (ascii "db") 1000 0)).map fun e => (decide (e.LogsBack (.commit true [])),
        (e.step (.commit true [])).map fun e => ((e.store.dir.map Prod.fst).length, e.store.unpublished))) =
      some (true, some (1, [])) := by decide +kernel
  obtain ⟨e, he, hstate⟩ := Option.map_eq_some_iff.mp hrun
  obtain ⟨hback, hnext⟩ := Prod.mk.inj hstate
  obtain ⟨e', he', hend⟩ := Option.map_eq_some_iff.mp hnext
  obtain ⟨hlength, hidle⟩ := Prod.mk.inj hend
  have hreach := readsBack_of_foldlM he
  exact ⟨e, e', hreach, he', hlength, (no_orphan_tables (ascii "db") 1000 0 hreach).2 _ e' rfl
    ⟨of_decide_eq_true hback, fun heq => by contradiction⟩ he' hidle⟩

end MiniTsdb
