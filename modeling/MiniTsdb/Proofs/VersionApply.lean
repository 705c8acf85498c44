import MiniTsdb.Spec.Version

/-! What an edit does to a level. Deletes and adds of one edit are applied one after
the other by the code; here they become one filter and one append, and, as long as
added numbers are new, a level stays in ascending order of distinct numbers. -/

namespace MiniTsdb
open Lib

/-- The edit deletes file `n` from level `l`. -/
def VersionEdit.deletes (e : VersionEdit) (l : Fin kMaxLevel) (n : ℕ) : Bool :=
  e.deleted_files.any fun d => levelIndex d.1 == some l && d.2 == n

/-- The files the edit adds to level `l`. -/
def VersionEdit.addedAt (e : VersionEdit) (l : Fin kMaxLevel) : List FileMeta :=
  (e.added_files.filter fun a => levelIndex a.1 == some l).map Prod.snd

theorem VersionEdit.mem_addedAt {e : VersionEdit} {l : Fin kMaxLevel} {f : FileMeta} :
    f ∈ e.addedAt l ↔ ∃ level, levelIndex level = some l ∧ (level, f) ∈ e.added_files := by
  simp [VersionEdit.addedAt, and_comm]

theorem levelIndex_val (l : Fin kMaxLevel) : levelIndex (l.val : ℤ) = some l := by
  have h : (0 : ℤ) ≤ (l.val : ℤ) ∧ (l.val : ℤ) < (kMaxLevel : ℤ) :=
    ⟨by exact_mod_cast Nat.zero_le _, by exact_mod_cast l.isLt⟩
  simp only [levelIndex, dif_pos h, Int.toNat_natCast]

theorem levelIndex_eq_iff {level : ℤ} {l : Fin kMaxLevel} :
    levelIndex level = some l ↔ level = l.val := by
  refine ⟨fun h => ?_, fun h => h ▸ levelIndex_val l⟩
  unfold levelIndex at h
  split_ifs at h with hrange
  rw [← Option.some.inj h]
  exact (Int.toNat_of_nonneg hrange.1).symm

@[simp] theorem Version.set_self (v : Version) (l : Fin kMaxLevel) (fs : List FileMeta) :
    (v.set l fs).level_files l = fs := by simp [Version.set]

theorem Version.set_of_ne (v : Version) {l l' : Fin kMaxLevel} (h : l' ≠ l) (fs : List FileMeta) :
    (v.set l fs).level_files l' = v.level_files l' := by simp [Version.set, h]

theorem applyDelete_level (vm : VersionManager) (d : ℤ × ℕ) (l : Fin kMaxLevel) :
    (vm.applyDelete d).current.level_files l =
      (vm.current.level_files l).filter fun f =>
        !(levelIndex d.1 == some l && d.2 == f.file_number) := by
  unfold VersionManager.applyDelete
  cases hd : levelIndex d.1 with
  | none => simp
  | some l' =>
    by_cases hl : l = l'
    · subst hl
      simp [bne, BEq.comm]
    · have hne : (l' == l) = false := by simpa using fun h => hl h.symm
      simp [Version.set_of_ne _ hl, hne]

theorem applyAdd_level (vm : VersionManager) (a : ℤ × FileMeta) (l : Fin kMaxLevel) :
    (vm.applyAdd a).current.level_files l =
      vm.current.level_files l ++ (if levelIndex a.1 = some l then [a.2] else []) := by
  unfold VersionManager.applyAdd
  cases ha : levelIndex a.1 with
  | none => simp
  | some l' =>
    by_cases hl : l = l'
    · subst hl; simp
    · have hne : ¬ l' = l := fun h => hl h.symm
      simp [Version.set_of_ne _ hl, hne]

/-- Nothing but the levels and the obsolete list moves. -/
structure SameFrame (vm vm' : VersionManager) : Prop where
  db_dir : vm'.db_dir = vm.db_dir
  manifest_name : vm'.manifest_name = vm.manifest_name
  next_file_number : vm'.next_file_number = vm.next_file_number

theorem applyDelete_frame (vm : VersionManager) (d : ℤ × ℕ) : SameFrame vm (vm.applyDelete d) := by
  unfold VersionManager.applyDelete
  split <;> exact ⟨rfl, rfl, rfl⟩

theorem applyAdd_frame (vm : VersionManager) (a : ℤ × FileMeta) : SameFrame vm (vm.applyAdd a) := by
  unfold VersionManager.applyAdd
  split <;> exact ⟨rfl, rfl, rfl⟩

theorem SameFrame.trans {a b c : VersionManager} (h₁ : SameFrame a b) (h₂ : SameFrame b c) :
    SameFrame a c :=
  ⟨h₂.db_dir.trans h₁.db_dir, h₂.manifest_name.trans h₁.manifest_name,
    h₂.next_file_number.trans h₁.next_file_number⟩

theorem foldl_applyDelete (ds : List (ℤ × ℕ)) (vm : VersionManager) :
    SameFrame vm (ds.foldl VersionManager.applyDelete vm) ∧
      ∀ l, (ds.foldl VersionManager.applyDelete vm).current.level_files l =
        (vm.current.level_files l).filter fun f =>
          !(ds.any fun d => levelIndex d.1 == some l && d.2 == f.file_number) := by
  induction ds generalizing vm with
  | nil => exact ⟨⟨rfl, rfl, rfl⟩, fun l => by simp⟩
  | cons d ds ih =>
    obtain ⟨hframe, hlevel⟩ := ih (vm.applyDelete d)
    refine ⟨(applyDelete_frame vm d).trans hframe, fun l => ?_⟩
    rw [List.foldl_cons, hlevel, applyDelete_level, List.filter_filter]
    congr 1
    funext f
    rw [List.any_cons, Bool.not_or, Bool.and_comm]

theorem foldl_applyAdd (as : List (ℤ × FileMeta)) (vm : VersionManager) :
    SameFrame vm (as.foldl VersionManager.applyAdd vm) ∧
      ∀ l, (as.foldl VersionManager.applyAdd vm).current.level_files l =
        vm.current.level_files l ++
          (as.filter fun a => levelIndex a.1 == some l).map Prod.snd := by
  induction as generalizing vm with
  | nil => exact ⟨⟨rfl, rfl, rfl⟩, fun l => by simp⟩
  | cons a as ih =>
    obtain ⟨hframe, hlevel⟩ := ih (vm.applyAdd a)
    refine ⟨(applyAdd_frame vm a).trans hframe, fun l => ?_⟩
    rw [List.foldl_cons, hlevel, applyAdd_level, List.append_assoc]
    congr 1
    by_cases ha : levelIndex a.1 = some l <;> simp [ha]

theorem applyUnlocked_level (vm : VersionManager) (e : VersionEdit) (l : Fin kMaxLevel) :
    (vm.applyUnlocked e).current.level_files l =
      sortFiles ((vm.current.level_files l).filter (fun f => !e.deletes l f.file_number) ++
        e.addedAt l) := by
  have hdel := (foldl_applyDelete e.deleted_files vm).2 l
  have hadd := (foldl_applyAdd e.added_files
    (e.deleted_files.foldl VersionManager.applyDelete vm)).2 l
  change sortFiles ((e.added_files.foldl VersionManager.applyAdd
    (e.deleted_files.foldl VersionManager.applyDelete vm)).current.level_files l) = _
  rw [hadd, hdel]
  rfl

theorem applyUnlocked_db_dir (vm : VersionManager) (e : VersionEdit) :
    (vm.applyUnlocked e).db_dir = vm.db_dir :=
  ((foldl_applyDelete e.deleted_files vm).1.trans (foldl_applyAdd e.added_files _).1).db_dir

theorem applyUnlocked_manifest_name (vm : VersionManager) (e : VersionEdit) :
    (vm.applyUnlocked e).manifest_name = vm.manifest_name :=
  ((foldl_applyDelete e.deleted_files vm).1.trans (foldl_applyAdd e.added_files _).1).manifest_name

theorem applyUnlocked_next (vm : VersionManager) (e : VersionEdit) :
    (vm.applyUnlocked e).next_file_number = bumpLast vm.next_file_number e.added_files := by
  have hframe := (foldl_applyDelete e.deleted_files vm).1.trans (foldl_applyAdd e.added_files _).1
  change bumpLast (e.added_files.foldl VersionManager.applyAdd _).next_file_number _ = _
  rw [hframe.next_file_number]

theorem mem_applyUnlocked {vm : VersionManager} {e : VersionEdit} {l : Fin kMaxLevel}
    {f : FileMeta} :
    f ∈ (vm.applyUnlocked e).current.level_files l ↔
      (f ∈ vm.current.level_files l ∧ e.deletes l f.file_number = false) ∨ f ∈ e.addedAt l := by
  rw [applyUnlocked_level, sortFiles, mem_sortBy, List.mem_append, List.mem_filter,
    Bool.not_eq_true']

theorem le_bumpLast (next : ℕ) (added : List (ℤ × FileMeta)) : next ≤ bumpLast next added := by
  unfold bumpLast
  split
  · exact le_refl next
  · split_ifs <;> omega

/-- Added numbers that were given out before leave the counter alone. -/
theorem bumpLast_of_lt {next : ℕ} {added : List (ℤ × FileMeta)}
    (h : ∀ a ∈ added, a.2.file_number < next) : bumpLast next added = next := by
  unfold bumpLast
  split
  · rfl
  · rename_i last hlast
    exact if_neg (not_le.mpr (h last (List.mem_of_getLast? hlast)))

/-- An edit retires the names of the files it deletes. -/
theorem mem_applyUnlocked_obsolete {vm : VersionManager} {e : VersionEdit} {name : Bytes}
    (h : name ∈ (vm.applyUnlocked e).obsolete_files) :
    name ∈ vm.obsolete_files ∨ ∃ l, ∃ f ∈ vm.current.level_files l,
      e.deletes l f.file_number = true ∧ f.file_name = name := by
  have hadds : ∀ (as : List (ℤ × FileMeta)) (vm : VersionManager),
      (as.foldl VersionManager.applyAdd vm).obsolete_files = vm.obsolete_files := by
    intro as
    induction as with
    | nil => exact fun _ => rfl
    | cons a as ih =>
      intro vm
      rw [List.foldl_cons, ih]
      unfold VersionManager.applyAdd
      split <;> rfl
  have hdels : ∀ (ds : List (ℤ × ℕ)) (vm : VersionManager),
      name ∈ (ds.foldl VersionManager.applyDelete vm).obsolete_files →
      name ∈ vm.obsolete_files ∨ ∃ d ∈ ds, ∃ l, levelIndex d.1 = some l ∧
        ∃ f ∈ vm.current.level_files l, f.file_number = d.2 ∧ f.file_name = name := by
    intro ds
    induction ds with
    | nil => exact fun _ hm => Or.inl hm
    | cons d ds ih =>
      intro vm hm
      rcases ih (vm.applyDelete d) hm with hm | ⟨d', hd', l, hl, f, hf, hn, hname⟩
      · unfold VersionManager.applyDelete at hm
        cases hl : levelIndex d.1 with
        | none => rw [hl] at hm; exact Or.inl hm
        | some l =>
          rw [hl] at hm
          rcases List.mem_append.mp hm with hm | hm
          · exact Or.inl hm
          · right
            obtain ⟨f, hfind, hname⟩ := Option.map_eq_some_iff.mp (Option.mem_toList.mp hm)
            exact ⟨d, List.mem_cons_self, l, hl, f, List.mem_of_find?_eq_some hfind,
              by simpa using List.find?_some hfind, hname⟩
      · right
        rw [applyDelete_level] at hf
        exact ⟨d', List.mem_cons_of_mem d hd', l, hl, f, List.mem_of_mem_filter hf, hn, hname⟩
  change name ∈ (e.added_files.foldl VersionManager.applyAdd _).obsolete_files at h
  rw [hadds] at h
  rcases hdels e.deleted_files vm h with h | ⟨d, hd, l, hl, f, hf, hn, hname⟩
  · exact Or.inl h
  · right
    refine ⟨l, f, hf, ?_, hname⟩
    rw [VersionEdit.deletes, List.any_eq_true]
    exact ⟨d, hd, by simp [hl, hn]⟩

/-- Every level is in ascending order of distinct file numbers. -/
def Version.Ordered (v : Version) : Prop := ∀ l, Ascending FileMeta.file_number (v.level_files l)

theorem Version.ordered_empty : Version.empty.Ordered := fun _ => ascending_nil

/-- The numbers an edit adds to a level are distinct and not in use there afterwards. -/
def VersionEdit.NewIn (e : VersionEdit) (v : Version) : Prop :=
  ∀ l, ((e.addedAt l).map FileMeta.file_number).Nodup ∧
    ∀ f ∈ v.level_files l, e.deletes l f.file_number = false →
      f.file_number ∉ (e.addedAt l).map FileMeta.file_number

theorem ordered_applyUnlocked {vm : VersionManager} {e : VersionEdit} (h : vm.current.Ordered)
    (hnew : e.NewIn vm.current) : (vm.applyUnlocked e).current.Ordered := by
  intro l
  rw [applyUnlocked_level]
  apply ascending_sortBy
  rw [List.map_append, List.nodup_append]
  refine ⟨((h l).filter _).nodup_map, (hnew l).1, ?_⟩
  rintro n hn n' hn' rfl
  obtain ⟨f, hf, rfl⟩ := List.mem_map.mp hn
  rw [List.mem_filter, Bool.not_eq_true'] at hf
  exact (hnew l).2 f hf.1 hf.2 hn'

/-- Ordered versions with the same files are the same, list by list. -/
theorem Version.Ordered.ext {v v' : Version} (h : v.Ordered) (h' : v'.Ordered)
    (hmem : ∀ l f, f ∈ v.level_files l ↔ f ∈ v'.level_files l) : v = v' := by
  obtain ⟨fs⟩ := v
  obtain ⟨fs'⟩ := v'
  congr 1
  funext l
  exact (h l).ext (h' l) (hmem l)

/-- Every file number is below the counter. -/
def VersionManager.Below (vm : VersionManager) : Prop :=
  ∀ l, ∀ f ∈ vm.current.level_files l, f.file_number < vm.next_file_number

end MiniTsdb
