import MiniTsdb.Proofs.StoreRuns

/-! What a compaction commit does to look-ups, and to the order in which a search meets the
versions of a key. -/

namespace MiniTsdb
open Lib

/-- The versions of a key that were flushed, newest first. -/
def Store.history (s : Store) (key : TsKey) : List InternalEntry :=
  s.flushed.filterMap fun entries => entries.lookup key

/-- A search meets flushed versions only, and meets them in the order of their age. -/
def Store.InOrder (s : Store) : Prop := ∀ key, (s.met key).Sublist (s.history key)

theorem inOrder_step {scanned : TsKey → Bool} {s s' : Store} {a : StoreAction} (h : StoreInv scanned s) (hord : s.InOrder)
    (hs : s.step a = some s') : s'.InOrder := by
  intro key
  have hold := hord key
  have hmet := met_step h hs
  cases a with
  | commitFlush =>
    obtain ⟨n, t, -, -, hflushed, hmet⟩ := hmet
    rw [hmet key, Store.history, hflushed, List.filterMap_cons]
    unfold SSTable.getEntry
    cases t.entries.lookup key with
    | none => exact hold
    | some e => exact hold.cons_cons e
  | commit cleanup_obsolete held =>
    obtain ⟨-, hflushed, run, -, hmet⟩ := hmet
    obtain ⟨hbefore, hafter⟩ := hmet key
    rw [hafter, Store.history, hflushed]
    refine List.Sublist.trans ?_ hold
    rw [hbefore]
    exact ((leftOver_sublist _ _ _).append_right _).append_left _
  | build entries =>
    obtain ⟨-, -, hflushed, hmet⟩ := hmet
    rw [hmet key, Store.history, hflushed]
    exact hold
  | _ =>
    obtain ⟨-, hflushed, hmet⟩ := hmet
    rw [hmet key, Store.history, hflushed]
    exact hold

theorem inOrder_start (db_dir : Bytes) (target : ℕ) : (Store.start db_dir target).InOrder := by
  intro key
  rw [met_start]
  exact List.nil_sublist _

/-- Flushed entries ascend, and the record reader of a job is complete. -/
def StoreOk (s : Store) : StoreAction → Prop
  | .build entries => Ascending Prod.fst entries
  | .read reader => ∀ run, s.compaction = some run → ReaderComplete s run.work.job reader
  | _ => True

theorem StoreOk.scans {s : Store} {a : StoreAction} (h : StoreOk s a) :
    StoreScans (fun _ => true) s a := by
  cases a with
  | read reader => exact fun run hrun => (h run hrun).scans
  | _ => exact h

/-- Every run keeps the invariant and the order of versions. -/
theorem store_reach {db_dir : Bytes} {target : ℕ} {s : Store}
    (h : Reach Store.step StoreOk (Store.start db_dir target) s) :
    StoreInv (fun _ => true) s ∧ s.InOrder :=
  h.invariant (I := fun s => StoreInv (fun _ => true) s ∧ s.InOrder)
    ⟨storeInv_start db_dir target, inOrder_start db_dir target⟩
    fun _ _ _ hi hok hs => ⟨storeInv_step hi.1 hok.scans hs, inOrder_step hi.1 hi.2 hs⟩

/-- A key that the filter keeps finds the same entry before and after a commit. -/
theorem head?_leftOver {k : TsKey → Bool} {key : TsKey} (h : k key = true)
    (newest versions deeper : List InternalEntry) :
    (newest ++ (leftOver k key versions ++ deeper)).head? =
      (newest ++ (versions ++ deeper)).head? := by
  rw [leftOver, if_pos h]
  cases newest with
  | cons e newest => rfl
  | nil => cases versions <;> rfl

/-- A compaction commit finds its inputs in place, changes no look-up of a key its filter
keeps, and leaves the versions of every key in the order of their age. -/
theorem compaction_preserves_lookups (db_dir : Bytes) (target : ℕ) {s s' : Store}
    {run : CompactionRun} {cleanup_obsolete : Bool} {held : List Bytes}
    (h : Reach Store.step StoreOk (Store.start db_dir target) s) (hrun : s.compaction = some run)
    (hs : s.step (.commit cleanup_obsolete held) = some s') :
    s.isCompactionInputValid run.work.job = true ∧
      (∀ key, keepsKey run.work.ttl_snapshot key = true →
        getFromSSTables s'.captureLevels key = getFromSSTables s.captureLevels key) ∧
      ∀ key, (meets s'.captureLevels key).Sublist (s'.history key) ∧
        getFromSSTables s'.captureLevels key = (meets s'.captureLevels key).head? := by
  obtain ⟨hinv, hord⟩ := store_reach h
  have hord' := inOrder_step hinv hord hs
  obtain ⟨r, hr, hcommit⟩ := Option.bind_eq_some_iff.mp hs
  obtain rfl := Option.some.inj (hrun.symm.trans hr)
  obtain ⟨hinv', -, -, hmet⟩ := commit_spec hinv hrun hcommit
  refine ⟨(commitCompaction_eq hinv hrun hcommit).2.1, fun key hkeep => ?_, fun key => ?_⟩
  · obtain ⟨hbefore, hafter⟩ := hmet key
    rw [getFromSSTables_eq hinv'.live, getFromSSTables_eq hinv.live, hbefore, hafter]
    exact head?_leftOver (k := run.keeps fun _ => true) hkeep _ _ _
  · rw [getFromSSTables_eq hinv'.live, meets_eq hinv'.live]
    exact ⟨hord' key, rfl⟩

/-- The reader that finds every record of a file. -/
def Store.diskReader (s : Store) (path : Bytes) : List Record :=
  ((openTable s.vmgr.db_dir s.dir path).map SSTable.records).getD []

theorem readerComplete_diskReader (s : Store) (job : CompactionJob) :
    ReaderComplete s job s.diskReader := by
  intro input _ t ht
  rw [Store.diskReader, ht]
  rfl

/-- Two flushes of one key, and a job that merges them. -/
def pickedTwo : Option Store :=
  [StoreAction.build [(⟨ascii "cpu", 5⟩, ⟨ascii "old", .kValue⟩)], .commitFlush,
    .build [(⟨ascii "cpu", 5⟩, ⟨ascii "new", .kValue⟩), (⟨ascii "mem", 1⟩, ⟨[], .kDeletion⟩)],
    .commitFlush, .pick true fun _ => none].foldlM Store.step (Store.start (ascii "db") 0)

theorem compaction_preserves_lookups_two :
    ∃ (s : Store) (run : CompactionRun) (s' : Store), s.compaction = some run ∧ s.step (.commit true []) = some s' ∧
      getFromSSTables s'.captureLevels ⟨ascii "cpu", 5⟩ = some ⟨ascii "new", .kValue⟩ ∧
      s.isCompactionInputValid run.work.job = true ∧
      (∀ key, keepsKey run.work.ttl_snapshot key = true →
        getFromSSTables s'.captureLevels key = getFromSSTables s.captureLevels key) ∧
      ∀ key, (meets s'.captureLevels key).Sublist (s'.history key) ∧
        getFromSSTables s'.captureLevels key = (meets s'.captureLevels key).head? := by
  have hrun : (pickedTwo.bind fun s => (s.step (.read s.diskReader)).bind fun s =>
      (s.step .output).bind fun s => (s.step (.commit true [])).map fun s' =>
        getFromSSTables s'.captureLevels ⟨ascii "cpu", 5⟩) =
      some (some ⟨ascii "new", .kValue⟩) := by decide +kernel
  obtain ⟨s₁, h₁, hrun⟩ := Option.bind_eq_some_iff.mp hrun
  obtain ⟨s₂, h₂, hrun⟩ := Option.bind_eq_some_iff.mp hrun
  obtain ⟨s₃, h₃, hrun⟩ := Option.bind_eq_some_iff.mp hrun
  obtain ⟨s₄, h₄, hget⟩ := Option.map_eq_some_iff.mp hrun
  have hreach : Reach Store.step StoreOk (Store.start (ascii "db") 0) s₁ := by
    refine reach_foldlM ?_ h₁
    intro a ha s
    simp only [List.mem_cons, List.not_mem_nil, or_false] at ha
    rcases ha with rfl | rfl | rfl | rfl | rfl
    · exact List.pairwise_singleton _ _
    · trivial
    · exact List.pairwise_pair.mpr (by decide +kernel)
    · trivial
    · trivial
  have hread : StoreOk s₁ (.read s₁.diskReader) :=
    fun run _ => readerComplete_diskReader s₁ run.work.job
  have hwrite : StoreOk s₂ .output := trivial
  have hreach₃ := (hreach.step hread h₂).step hwrite h₃
  obtain ⟨run, hr, -⟩ := Option.bind_eq_some_iff.mp h₄
  exact ⟨s₃, run, s₄, hr, h₄, hget, compaction_preserves_lookups (ascii "db") 0 hreach₃ hr h₄⟩

end MiniTsdb
