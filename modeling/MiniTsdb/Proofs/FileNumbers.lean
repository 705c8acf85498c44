import MiniTsdb.Lib.Runs
import MiniTsdb.Proofs.Tables
import MiniTsdb.Spec.FileNumbers

/-! Over any history the counter stays above the number of every file in a level, so no
live table is written over. Below the largest number the 64 bits change nothing, and the
manager is the unbounded one. -/

namespace MiniTsdb
open Lib

theorem sizeAdd_one {n : ℕ} (h : n < kMaxFileNumber) : sizeAdd n 1 = n + 1 := by
  apply sizeAdd_eq
  unfold kMaxFileNumber at h
  omega

theorem bumpLast64_eq {added : List (ℤ × FileMeta)}
    (h : ∀ a ∈ added, a.2.file_number < kMaxFileNumber) (next : ℕ) :
    bumpLast64 next added = bumpLast next added := by
  unfold bumpLast64 bumpLast
  cases hlast : added.getLast? with
  | none => rfl
  | some last => simp [sizeAdd_one (h last (List.mem_of_getLast? hlast))]

namespace VersionManager

theorem newFileNumber64_eq {vm : VersionManager} (h : vm.next_file_number < kMaxFileNumber) :
    vm.newFileNumber64 = vm.newFileNumber := by
  simp [newFileNumber64, newFileNumber, sizeAdd_one h]

theorem markFileNumberUsed64_eq (vm : VersionManager) {number : ℕ} (h : number < kMaxFileNumber) :
    vm.markFileNumberUsed64 number = vm.markFileNumberUsed number := by
  simp [markFileNumberUsed64, markFileNumberUsed, sizeAdd_one h]

theorem applyUnlocked64_eq (vm : VersionManager) {e : VersionEdit}
    (h : ∀ a ∈ e.added_files, a.2.file_number < kMaxFileNumber) :
    vm.applyUnlocked64 e = vm.applyUnlocked e := by
  rw [applyUnlocked64, bumpLast64_eq h, ← applyUnlocked_next]

theorem logAndApply64_eq (vm : VersionManager) (files : Files) {e : VersionEdit}
    (h : ∀ a ∈ e.added_files, a.2.file_number < kMaxFileNumber) :
    vm.logAndApply64 files e = vm.logAndApply files e := by
  rw [logAndApply64, applyUnlocked64_eq _ h]
  rfl

theorem replayLines64_eq {lines : List ManifestLine}
    (h : ∀ n ∈ recoveredNumbers lines, n < kMaxFileNumber) (vm : VersionManager) :
    vm.replayLines64 lines = vm.replayLines lines := by
  induction lines generalizing vm with
  | nil => rfl
  | cons line lines ih =>
    cases line with
    | nextFile n => exact ih h _
    | add level file =>
      have hfile : file.file_number < kMaxFileNumber := h _ List.mem_cons_self
      have hrest : ∀ n ∈ recoveredNumbers lines, n < kMaxFileNumber := by
        intro n hn
        exact h n (List.mem_cons_of_mem _ hn)
      rw [replayLines64, replayLines, replayLine64, replayLine, applyUnlocked64_eq vm (by simpa using hfile)]
      exact ih hrest _
    | del level number =>
      rw [replayLines64, replayLines, replayLine64, replayLine, applyUnlocked64_eq vm (by simp)]
      exact ih h _
    | bad message => rfl
    | ignored => exact ih h _

theorem recoverFromManifest64_eq {vm : VersionManager} {files : Files}
    (h : vm.RecoversNumbered files) :
    vm.recoverFromManifest64 files = vm.recoverFromManifest files := by
  unfold recoverFromManifest64 recoverFromManifest
  dsimp only
  cases htext : files (vm.recoveryPath files) with
  | none => rfl
  | some text => exact replayLines64_eq (h text htext) _

theorem init64_eq {db_dir : Bytes} {files : Files}
    (h : (opening db_dir).RecoversNumbered files) : init64 db_dir files = init db_dir files :=
  recoverFromManifest64_eq h

end VersionManager

theorem lt_bumpLast {added : List (ℤ × FileMeta)}
    (h : added.Pairwise fun a b => a.2.file_number ≤ b.2.file_number) (next : ℕ)
    {a : ℤ × FileMeta} (ha : a ∈ added) : a.2.file_number < bumpLast next added := by
  obtain ⟨front, last, rfl⟩ :=
    (List.eq_nil_or_concat' added).resolve_left (List.ne_nil_of_mem ha)
  have hlast : a.2.file_number ≤ last.2.file_number := by
    rcases List.mem_append.mp ha with hfront | hlast
    · exact (List.pairwise_append.mp h).2.2 a hfront last List.mem_cons_self
    · obtain rfl := List.mem_singleton.mp hlast
      exact le_rfl
  rw [bumpLast, List.getLast?_concat]
  dsimp only
  split_ifs <;> omega

theorem below_edit {vm : VersionManager} (h : vm.Below) {e : VersionEdit} (he : e.Numbered) :
    (vm.applyUnlocked64 e).Below := by
  rw [VersionManager.applyUnlocked64_eq vm he.below]
  apply below_applyUnlocked h
  intro l f hf
  obtain ⟨level, -, hmem⟩ := VersionEdit.mem_addedAt.mp hf
  exact lt_bumpLast he.ascending vm.next_file_number hmem

theorem below_raised {vm : VersionManager} (h : vm.Below) {next : ℕ} (hle : vm.next_file_number ≤ next) :
    { vm with next_file_number := next }.Below :=
  fun l f hf => lt_of_lt_of_le (h l f hf) hle

theorem below_markFileNumberUsed {vm : VersionManager} (h : vm.Below) (number : ℕ) :
    (vm.markFileNumberUsed number).Below := by
  unfold VersionManager.markFileNumberUsed
  split_ifs with hn
  · exact below_raised h (Nat.le_succ_of_le hn)
  · exact h

theorem below_call {s : NumberState} {c : NumberCall} (h : s.vm.Below) (hc : s.Stays c) :
    (s.call c).vm.Below := by
  cases c with
  | newFileNumber =>
    change s.vm.newFileNumber64.2.Below
    rw [VersionManager.newFileNumber64_eq hc]
    exact below_raised h (Nat.le_succ _)
  | markFileNumberUsed number =>
    change (s.vm.markFileNumberUsed64 number).Below
    rw [VersionManager.markFileNumberUsed64_eq _ hc]
    exact below_markFileNumberUsed h number
  | apply edit => exact below_edit h hc
  | logAndApply edit =>
    have hnamed : { s.vm with manifest_name := s.vm.manifestPath }.Below := h
    exact below_edit hnamed hc
  | writeSnapshotManifest => exact h
  | recoverFromManifest =>
    change (s.vm.recoverFromManifest64 s.files).1.Below
    rw [VersionManager.recoverFromManifest64_eq hc]
    exact below_recoverFromManifest h s.files
  | restart =>
    change (VersionManager.init64 s.vm.db_dir s.files).1.Below
    rw [VersionManager.init64_eq hc]
    exact below_recoverFromManifest (fun l f hf => absurd hf List.not_mem_nil) s.files
  | disk files => exact h

theorem below_history {db_dir : Bytes} {files : Files} {s : NumberState}
    (h : Reach NumberState.step NumberState.Stays ⟨.new db_dir, files⟩ s) : s.vm.Below := by
  apply h.invariant (I := fun s => s.vm.Below)
  · exact fun l f hf => absurd hf List.not_mem_nil
  · intro s c s' hs hc hstep
    obtain rfl : s.call c = s' := Option.some.inj hstep
    exact below_call hs hc

/-- The calls between two openings. -/
def NumberCall.running : NumberCall → Bool
  | recoverFromManifest => false
  | restart => false
  | _ => true

theorem next_le_call {s : NumberState} {c : NumberCall} (hc : s.Stays c) (hrunning : c.running = true) :
    s.vm.next_file_number ≤ (s.call c).vm.next_file_number := by
  have hedit : ∀ (vm : VersionManager) {e : VersionEdit}, e.Numbered →
      vm.next_file_number ≤ (vm.applyUnlocked64 e).next_file_number := fun vm e he => by
    rw [VersionManager.applyUnlocked64_eq vm he.below, applyUnlocked_next]
    exact le_bumpLast _ _
  cases c with
  | newFileNumber =>
    change s.vm.next_file_number ≤ s.vm.newFileNumber64.2.next_file_number
    rw [VersionManager.newFileNumber64_eq hc]
    exact Nat.le_succ _
  | markFileNumberUsed number =>
    change s.vm.next_file_number ≤ (s.vm.markFileNumberUsed64 number).next_file_number
    rw [VersionManager.markFileNumberUsed64_eq _ hc, VersionManager.markFileNumberUsed]
    split_ifs with hn
    · exact Nat.le_succ_of_le hn
    · exact le_rfl
  | apply edit => exact hedit _ hc
  | logAndApply edit => exact hedit { s.vm with manifest_name := s.vm.manifestPath } hc
  | writeSnapshotManifest => exact le_rfl
  | recoverFromManifest | restart => contradiction
  | disk files => exact le_rfl

/-- Between two openings no number is given out twice: a later one is greater. -/
theorem numbers_increase {s s' : NumberState} (hroom : s.vm.next_file_number < kMaxFileNumber)
    (h : Reach NumberState.step (fun s c => s.Stays c ∧ c.running = true) (s.call .newFileNumber) s') :
    s.vm.newFileNumber64.1 < s'.vm.newFileNumber64.1 := by
  have hfirst : (s.call .newFileNumber).vm.next_file_number = s.vm.next_file_number + 1 := by
    change s.vm.newFileNumber64.2.next_file_number = _
    rw [VersionManager.newFileNumber64_eq hroom]
    rfl
  have hlater : s.vm.next_file_number + 1 ≤ s'.vm.next_file_number := by
    refine h.invariant (I := fun t => s.vm.next_file_number + 1 ≤ t.vm.next_file_number) hfirst.ge ?_
    intro t c t' ht hok hstep
    obtain rfl : t.call c = t' := Option.some.inj hstep
    exact ht.trans (next_le_call hok.1 hok.2)
  exact hlater

/-- The path of a new table is not that of a live file which stands under its own number. -/
theorem new_path_free {db_dir : Bytes} {files : Files} {s : NumberState}
    (h : Reach NumberState.step NumberState.Stays ⟨.new db_dir, files⟩ s) {l : Fin kMaxLevel} {f : FileMeta}
    (hf : f ∈ s.vm.current.level_files l) (hpath : f.file_name = s.vm.newFileName f.file_number) :
    s.vm.newFileName s.vm.newFileNumber64.1 ≠ f.file_name := by
  rw [hpath]
  intro heq
  exact (below_history h l f hf).ne (path_injective heq).symm

/-- In every history whose edits add files in ascending order, and whose numbers stay below
`2 ^ 64 - 1`, each file of each level has a number below the counter. A table built under
the next number leaves the table under the number of a live file as it is. -/
theorem live_numbers_below_counter {db_dir : Bytes} {files : Files} {s : NumberState}
    (h : Reach NumberState.step NumberState.Stays ⟨.new db_dir, files⟩ s) :
    ∀ l, ∀ f ∈ s.vm.current.level_files l,
      f.file_number < s.vm.next_file_number ∧
        s.vm.newFileName s.vm.newFileNumber64.1 ≠ s.vm.newFileName f.file_number ∧
        ∀ (dir : SstDir) (t : SSTable),
          openTable s.vm.db_dir (writeTable dir (sstName s.vm.newFileNumber64.1) t)
              (s.vm.newFileName f.file_number) =
            openTable s.vm.db_dir dir (s.vm.newFileName f.file_number) := by
  intro l f hf
  have hlt := below_history h l f hf
  have hne : f.file_number ≠ s.vm.newFileNumber64.1 := hlt.ne
  refine ⟨hlt, ?_, ?_⟩
  · intro hpath
    exact hne (path_injective hpath).symm
  · intro dir t
    apply openTable_writeTable_of_ne
    intro hname
    exact hne (sstName_injective hname)

def twoFiles : VersionEdit :=
  ⟨[(0, ⟨1, ascii "d/000001.sst", 10, ⟨[99], 1⟩, ⟨[99], 2⟩⟩),
    (0, ⟨2, ascii "d/000002.sst", 10, ⟨[99], 1⟩, ⟨[99], 2⟩⟩)], []⟩

theorem live_numbers_below_counter_of_a_restart :
    let s := [.newFileNumber, .newFileNumber, .logAndApply twoFiles, .restart].foldl
      NumberState.call ⟨.new (ascii "d"), fun _ => none⟩
    (s.vm.current.level_files 0).map FileMeta.file_number = [1, 2] ∧
      ∀ f ∈ s.vm.current.level_files 0, f.file_number < s.vm.next_file_number := by
  intro s
  have h : Reach NumberState.step NumberState.Stays ⟨.new (ascii "d"), fun _ => none⟩ s := by
    apply Reach.step (a := .restart) _ (by decide) rfl
    apply Reach.step (a := .logAndApply twoFiles) _ (by decide) rfl
    apply Reach.step (a := .newFileNumber) _ (by decide) rfl
    exact Reach.start.step (a := .newFileNumber) (by decide) rfl
  refine ⟨by decide, ?_⟩
  intro f hf
  exact (live_numbers_below_counter h 0 f hf).1

end MiniTsdb
