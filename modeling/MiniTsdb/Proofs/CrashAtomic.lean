import MiniTsdb.Proofs.ManifestCut
import MiniTsdb.Proofs.StartupScan

/-! A crash while an edit is being logged. The text of an edit has no commit marker:
recovery is atomic exactly for the cuts that show all of its lines or nothing of them. -/

namespace MiniTsdb
open Lib

/-- An edit as flush and compaction commit it. -/
structure CommitEdit (v : Version) (e : VersionEdit) : Prop where
  deleted_live : ∀ d ∈ e.deleted_files, ∃ l, levelIndex d.1 = some l ∧
    ∃ f ∈ v.level_files l, f.file_number = d.2
  deleted_nodup : e.deleted_files.Nodup
  added_level : ∀ a ∈ e.added_files, ∃ l, levelIndex a.1 = some l
  added_nodup : e.addedNumbers.Nodup
  added_fresh : ∀ n ∈ e.addedNumbers, ∀ l, ∀ f ∈ v.level_files l, f.file_number ≠ n

/-- A logged version, an edit about to be committed, and a directory that holds the
tables of both (and possibly others). -/
structure Committing (db_dir : Bytes) (files : Files) (dir : SstDir) (vm : VersionManager)
    (e : VersionEdit) : Prop where
  logged : Logged db_dir vm.current files
  ordered : vm.current.Ordered
  edit : CommitEdit vm.current e
  names : (dir.map Prod.fst).Nodup
  live : ∀ l, ∀ f ∈ vm.current.level_files l, OnDisk db_dir dir f
  added : ∀ a ∈ e.added_files, OnDisk db_dir dir a.2

/-- The added files can be written to a manifest line. -/
def VersionEdit.Writable (e : VersionEdit) : Prop :=
  ∀ a ∈ e.added_files, a.2.file_size < 2 ^ 64 ∧ IsToken a.2.smallest.measurement ∧
    IsToken a.2.largest.measurement

/-- What the engine starts with after `n` bytes of the edit's text reached the manifest. -/
def afterCrash (db_dir : Bytes) (files : Files) (dir : SstDir) (vm : VersionManager)
    (e : VersionEdit) (n : ℕ) : Startup :=
  startup db_dir (cutFiles db_dir files (editText e vm.next_file_number) n) dir

/-- The version before the edit or the one after it, with its tables. -/
def CrashAtomic (db_dir : Bytes) (files : Files) (dir : SstDir) (vm : VersionManager)
    (e : VersionEdit) (n : ℕ) : Prop :=
  let r := afterCrash db_dir files dir vm e n
  (r.vm.current = vm.current ∨ r.vm.current = (vm.applyUnlocked e).current) ∧
    ∀ l, ∀ f ∈ r.vm.current.level_files l, ∃ t, (baseName f.file_name, some t) ∈ r.dir

/-- The lines shown delete every file and add none. -/
def NothingLeft (v : Version) (shown : VersionEdit) : Prop :=
  shown.added_files = [] ∧ ∀ l, ∀ f ∈ v.level_files l, shown.deletes l f.file_number = true

/-- The tables of the directory, all of them taken into L0, are the version before the
edit or the one after it. -/
def ScanGivesBack (v : Version) (e : VersionEdit) (dir : SstDir) : Prop :=
  (e.added_files = [] ∧ (∀ l, l ≠ 0 → v.level_files l = []) ∧
    ∀ x ∈ dir, isSst x.1 = true → x.2.isSome → ∃ f ∈ v.level_files 0, x.1 = sstName f.file_number) ∨
  (v.IsEmpty ∧ (∀ a ∈ e.added_files, levelIndex a.1 = some 0) ∧
    ∀ x ∈ dir, isSst x.1 = true → x.2.isSome →
      ∃ a ∈ e.added_files, x.1 = sstName a.2.file_number)

/-- What the cut line is read as deletes no file of the version and adds none. -/
def NoEffect (v : Version) (read : Option EditItem) : Prop :=
  ∀ item ∈ read, ∃ d, item = .del d ∧
    ∀ l, levelIndex d.1 = some l → ∀ f ∈ v.level_files l, f.file_number ≠ d.2

/-- The cuts that are safe. -/
def SafeCut (v : Version) (e : VersionEdit) (dir : SstDir) (n : ℕ) : Prop :=
  (NothingLeft v (editOf (shownItems e.items n)) → ScanGivesBack v e dir) ∧
  (¬ NothingLeft v (editOf (shownItems e.items n)) → (shown e.items n).2 = none ∨
    (shown e.items n).1 = [] ∧ NoEffect v ((shown e.items n).2.bind fun c => c.1.cutRead c.2))

theorem mem_editOf_deleted {items : List EditItem} {d : ℤ × ℕ} :
    d ∈ (editOf items).deleted_files ↔ EditItem.del d ∈ items := by
  simp only [editOf, List.mem_filterMap]
  constructor
  · rintro ⟨x, hx, hd⟩
    cases x with
    | del d' => rwa [← Option.some.inj hd]
    | add a => contradiction
  · exact fun h => ⟨.del d, h, rfl⟩

theorem mem_editOf_added {items : List EditItem} {a : ℤ × FileMeta} :
    a ∈ (editOf items).added_files ↔ EditItem.add a ∈ items := by
  simp only [editOf, List.mem_filterMap]
  constructor
  · rintro ⟨x, hx, ha⟩
    cases x with
    | del d => contradiction
    | add a' => rwa [← Option.some.inj ha]
  · exact fun h => ⟨.add a, h, rfl⟩

theorem mem_items_del {e : VersionEdit} {d : ℤ × ℕ} :
    EditItem.del d ∈ e.items ↔ d ∈ e.deleted_files := by simp [VersionEdit.items]

theorem mem_items_add {e : VersionEdit} {a : ℤ × FileMeta} :
    EditItem.add a ∈ e.items ↔ a ∈ e.added_files := by simp [VersionEdit.items]

theorem editOf_items_self (e : VersionEdit) : editOf e.items = e := by
  obtain ⟨as, ds⟩ := e
  simp [editOf, VersionEdit.items, List.filterMap_append, List.filterMap_map]

theorem deletes_iff {e : VersionEdit} {l : Fin kMaxLevel} {n : ℕ} :
    e.deletes l n = true ↔ ∃ level, levelIndex level = some l ∧ (level, n) ∈ e.deleted_files := by
  simp only [VersionEdit.deletes, List.any_eq_true, Bool.and_eq_true, beq_iff_eq]
  constructor
  · rintro ⟨⟨level, n'⟩, hmem, hl, rfl⟩
    exact ⟨level, hl, hmem⟩
  · rintro ⟨level, hl, hmem⟩
    exact ⟨(level, n), hmem, hl, rfl⟩

theorem levelIndex_inj {a b : ℤ} {l : Fin kMaxLevel} (ha : levelIndex a = some l)
    (hb : levelIndex b = some l) : a = b := by
  rw [levelIndex_eq_iff.mp ha, levelIndex_eq_iff.mp hb]

/-- A cut line names another number, or a file with another last timestamp. -/
theorem cutRead_del {d : ℤ × ℕ} {m : ℕ} (hm : m + 1 < (EditItem.del d).line.length)
    {y : EditItem} (h : (EditItem.del d).cutRead m = some y) : ∃ p, y = .del (d.1, p) ∧ p ≠ d.2 := by
  obtain ⟨r, hr, rfl⟩ := Option.map_eq_some_iff.mp h
  refine ⟨r.1, rfl, ((readUnsigned_take hr).2 ?_).ne⟩
  rw [line_length, List.length_append] at hm
  simp only [EditItem.number] at hm
  have hpos : 0 < (decimal d.2).length := List.length_pos_of_ne_nil (decimal_ne_nil _)
  omega

theorem cutRead_add {a : ℤ × FileMeta} {m : ℕ} (hm : m + 1 < (EditItem.add a).line.length)
    {y : EditItem} (h : (EditItem.add a).cutRead m = some y) :
    ∃ f, y = .add (a.1, f) ∧ f.file_number = a.2.file_number ∧ f ≠ a.2 := by
  obtain ⟨r, hr, rfl⟩ := Option.map_eq_some_iff.mp h
  have hpos : 0 < (decimalInt a.2.largest.timestamp.toInt).length :=
    List.length_pos_of_ne_nil (decimalInt_isToken _).1
  refine ⟨_, rfl, rfl, fun heq => (readSigned_take hr).2 ?_ ?_⟩
  · rw [line_length, List.length_append] at hm
    simp only [EditItem.number] at hm
    omega
  · have hts : Int64.ofInt r.1 = a.2.largest.timestamp := by
      have := congrArg (fun f => f.largest.timestamp) heq
      exact this
    have hrange := readSigned_range hr
    rw [← hts, Int64.toInt_ofInt_of_le (by omega) (by omega)]

section Cut

variable {db_dir : Bytes} {files : Files} {dir : SstDir} {vm : VersionManager} {e : VersionEdit}
  {n : ℕ}

/-- The lines that are read: whole lines of the edit, and what a cut one is read as. -/
theorem shownItems_cases (e : VersionEdit) (n : ℕ) :
    ((shown e.items n).2 = none ∧ shownItems e.items n = e.items) ∨
    ∃ x m rest, (shown e.items n).2 = some (x, m) ∧ m + 1 < x.line.length ∧
      e.items = (shown e.items n).1 ++ x :: rest ∧
      shownItems e.items n = (shown e.items n).1 ++ (x.cutRead m).toList := by
  have hsplit := shown_split e.items n
  unfold shownItems
  cases hc : (shown e.items n).2 with
  | none =>
    rw [hc] at hsplit
    exact Or.inl ⟨rfl, by rw [show (shown e.items n).1 = e.items from hsplit]; simp⟩
  | some c =>
    rw [hc] at hsplit
    obtain ⟨⟨rest, hitems⟩, hm⟩ := hsplit
    exact Or.inr ⟨c.1, c.2, rest, rfl, hm, hitems, rfl⟩

/-- The number of an added file. -/
def EditItem.addedNumber : EditItem → Option ℕ
  | .add a => some a.2.file_number
  | .del _ => none

theorem cutRead_kind {x y : EditItem} {m : ℕ} (hm : m + 1 < x.line.length)
    (h : x.cutRead m = some y) :
    ((∃ a, x = .add a) ↔ ∃ a, y = .add a) ∧ y.addedNumber = x.addedNumber := by
  cases x with
  | del d =>
    obtain ⟨p, rfl, -⟩ := cutRead_del hm h
    simp [EditItem.addedNumber]
  | add a =>
    obtain ⟨f, rfl, hnum, -⟩ := cutRead_add hm h
    simp [EditItem.addedNumber, hnum]

theorem delsFirst_shown (e : VersionEdit) (n : ℕ) : DelsFirst (shownItems e.items n) := by
  have hfirst := delsFirst_items e
  rcases shownItems_cases e n with ⟨-, hw⟩ | ⟨x, m, rest, -, hm, hitems, hw⟩
  · rw [hw]; exact hfirst
  · rw [hw]
    rw [hitems] at hfirst
    obtain ⟨hpre, -, hcross⟩ := List.pairwise_append.mp hfirst
    refine List.pairwise_append.mpr ⟨hpre, ?_, fun z hz y hy hadd => ?_⟩
    · cases x.cutRead m <;> simp
    · have hy' : x.cutRead m = some y := by simpa using hy
      exact (cutRead_kind hm hy').1.mp (hcross z hz x List.mem_cons_self hadd)

theorem addedNumbers_editOf (items : List EditItem) :
    (editOf items).addedNumbers = items.filterMap EditItem.addedNumber := by
  unfold VersionEdit.addedNumbers editOf
  rw [List.map_filterMap]
  congr 1
  funext x
  cases x <;> rfl

theorem addedNumbers_shown (e : VersionEdit) (n : ℕ) :
    (editOf (shownItems e.items n)).addedNumbers.Sublist e.addedNumbers := by
  conv_rhs => rw [← editOf_items_self e]
  rw [addedNumbers_editOf, addedNumbers_editOf]
  rcases shownItems_cases e n with ⟨-, hw⟩ | ⟨x, m, rest, -, hm, hitems, hw⟩
  · rw [hw]
  · have hsub : ((x.cutRead m).toList.filterMap EditItem.addedNumber).Sublist
        ([x].filterMap EditItem.addedNumber) := by
      cases hy : x.cutRead m with
      | none => exact List.nil_sublist _
      | some y =>
        have hnum := (cutRead_kind hm hy).2
        simp only [Option.toList_some, List.filterMap_cons, hnum]
        exact List.Sublist.refl _
    rw [hw]
    conv_rhs => rw [hitems, show x :: rest = [x] ++ rest from rfl]
    rw [List.filterMap_append, List.filterMap_append, List.filterMap_append]
    exact (List.Sublist.refl _).append (hsub.trans (List.sublist_append_left _ _))

theorem newIn_shown (h : CommitEdit vm.current e) :
    (editOf (shownItems e.items n)).NewIn vm.current :=
  newIn_of_fresh (h.added_nodup.sublist (addedNumbers_shown e n)) fun k hk =>
    h.added_fresh k ((addedNumbers_shown e n).subset hk)

theorem isInt32_levelIndex {level : ℤ} {l : Fin kMaxLevel} (h : levelIndex level = some l) :
    IsInt32 level := by
  unfold levelIndex at h
  split_ifs at h with hr
  have h7 : (kMaxLevel : ℤ) = 7 := rfl
  unfold IsInt32
  omega

theorem readable_add {a : ℤ × FileMeta} {l : Fin kMaxLevel} (hl : levelIndex a.1 = some l)
    (hname : a.2.file_name = joinPath db_dir (sstName a.2.file_number)) (hnumber : a.2.file_number < 2 ^ 64)
    (hsize : a.2.file_size < 2 ^ 64) (hsmall : IsToken a.2.smallest.measurement)
    (hlarge : IsToken a.2.largest.measurement) : EditItem.Readable db_dir (.add a) := by
  have hbase : baseName a.2.file_name = sstName a.2.file_number := by
    rw [hname, baseName_newFileName]
  refine ⟨isInt32_levelIndex hl, hnumber, hsize, ⟨?_, hsmall, hlarge⟩, ?_⟩
  · rw [hbase]; exact sstName_isToken _
  · rw [FileMeta.rebase, hbase, ← hname]

theorem readable_items (h : Committing db_dir files dir vm e) (hw : e.Writable) :
    ∀ item ∈ e.items, item.Readable db_dir := by
  intro item hitem
  cases item with
  | del d =>
    obtain ⟨l, hl, f, hf, hnum⟩ := h.edit.deleted_live d (mem_items_del.mp hitem)
    exact ⟨isInt32_levelIndex hl, hnum ▸ (h.live l f hf).number⟩
  | add a =>
    have ha := mem_items_add.mp hitem
    obtain ⟨l, hl⟩ := h.edit.added_level a ha
    obtain ⟨hsize, hsmall, hlarge⟩ := hw a ha
    exact readable_add hl (h.added a ha).name (h.added a ha).number hsize hsmall hlarge

/-- An edit that leads back to the version adds nothing and deletes nothing. -/
theorem no_effect_of_same {e' : VersionEdit} (hlevel : ∀ a ∈ e'.added_files, ∃ l, levelIndex a.1 = some l)
    (hfresh : ∀ k ∈ e'.addedNumbers, ∀ l, ∀ f ∈ vm.current.level_files l, f.file_number ≠ k)
    (h : (vm.applyUnlocked e').current = vm.current) :
    e'.added_files = [] ∧ ∀ l, ∀ f ∈ vm.current.level_files l,
      e'.deletes l f.file_number = false := by
  have hmem : ∀ l f, f ∈ vm.current.level_files l ↔
      (f ∈ vm.current.level_files l ∧ e'.deletes l f.file_number = false) ∨ f ∈ e'.addedAt l := by
    intro l f
    conv_lhs => rw [← h]
    exact mem_applyUnlocked
  constructor
  · refine List.eq_nil_iff_forall_not_mem.mpr fun a ha => ?_
    obtain ⟨l, hl⟩ := hlevel a ha
    have hat : a.2 ∈ e'.addedAt l := VersionEdit.mem_addedAt.mpr ⟨a.1, hl, ha⟩
    exact hfresh _ (mem_addedNumbers hat) l a.2 ((hmem l a.2).mpr (Or.inr hat)) rfl
  · intro l f hf
    rcases (hmem l f).mp hf with ⟨-, hdel⟩ | hadd
    · exact hdel
    · exact absurd rfl (hfresh _ (mem_addedNumbers hadd) l f hf)

theorem same_of_no_effect {e' : VersionEdit} (hord : vm.current.Ordered)
    (hadd : e'.added_files = [])
    (hdel : ∀ l, ∀ f ∈ vm.current.level_files l, e'.deletes l f.file_number = false) :
    (vm.applyUnlocked e').current = vm.current := by
  have hat : ∀ l, e'.addedAt l = [] := fun l => by rw [VersionEdit.addedAt, hadd]; rfl
  have hnew : e'.NewIn vm.current := fun l => by
    rw [hat]; exact ⟨List.nodup_nil, fun f _ _ => List.not_mem_nil⟩
  refine (ordered_applyUnlocked hord hnew).ext hord fun l f => ?_
  rw [mem_applyUnlocked, hat]
  constructor
  · rintro (⟨hf, -⟩ | hf)
    · exact hf
    · contradiction
  · exact fun hf => Or.inl ⟨hf, hdel l f hf⟩

theorem items_nodup {v : Version} (h : CommitEdit v e) : e.items.Nodup := by
  have hadd : e.added_files.Nodup := List.Nodup.of_map _ h.added_nodup
  refine List.nodup_append.mpr ⟨?_, ?_, ?_⟩
  · exact h.deleted_nodup.map fun _ _ he => EditItem.del.inj he
  · exact hadd.map fun _ _ he => EditItem.add.inj he
  · intro x hx y hy
    obtain ⟨d, -, rfl⟩ := List.mem_map.mp hx
    obtain ⟨a, -, rfl⟩ := List.mem_map.mp hy
    exact EditItem.noConfusion

/-- A cut line is missing: the file it deletes is still there, or the file it adds is not. -/
theorem not_after_of_cut (h : CommitEdit vm.current e) {x : EditItem} {m : ℕ} {rest : List EditItem}
    (hm : m + 1 < x.line.length) (hitems : e.items = (shown e.items n).1 ++ x :: rest)
    (hw : shownItems e.items n = (shown e.items n).1 ++ (x.cutRead m).toList) :
    (∃ d l f, x = .del d ∧ f ∈ vm.current.level_files l ∧ e.deletes l f.file_number = true ∧
      (editOf (shownItems e.items n)).deletes l f.file_number = false) ∨
    (∃ a l, x = .add a ∧ a.2 ∈ e.addedAt l ∧
      a.2 ∉ (editOf (shownItems e.items n)).addedAt l) := by
  have honce : x ∉ (shown e.items n).1 := fun hx => by
    have hnodup := items_nodup h
    rw [hitems] at hnodup
    exact (List.nodup_append.mp hnodup).2.2 x hx x List.mem_cons_self rfl
  cases x with
  | del d =>
    have hd : d ∈ e.deleted_files := mem_items_del.mp (by rw [hitems]; simp)
    obtain ⟨l, hl, f, hf, hnum⟩ := h.deleted_live d hd
    refine Or.inl ⟨d, l, f, rfl, hf, ?_, ?_⟩
    · exact deletes_iff.mpr ⟨d.1, hl, by rw [hnum]; exact hd⟩
    · rw [← Bool.not_eq_true, deletes_iff]
      rintro ⟨level, hl', hmem⟩
      obtain rfl := levelIndex_inj hl hl'
      rw [hnum, mem_editOf_deleted, hw, List.mem_append] at hmem
      rcases hmem with hpre | hcut
      · exact honce hpre
      · have hy : (EditItem.del d).cutRead m = some (.del (d.1, d.2)) := by simpa using hcut
        obtain ⟨p, hp, hne⟩ := cutRead_del hm hy
        simp only [EditItem.del.injEq, Prod.mk.injEq, true_and] at hp
        exact hne hp.symm
  | add a =>
    have ha : a ∈ e.added_files := mem_items_add.mp (by rw [hitems]; simp)
    obtain ⟨l, hl⟩ := h.added_level a ha
    refine Or.inr ⟨a, l, rfl, VersionEdit.mem_addedAt.mpr ⟨a.1, hl, ha⟩, fun hat => ?_⟩
    obtain ⟨level, hl', hmem⟩ := VersionEdit.mem_addedAt.mp hat
    rw [mem_editOf_added, hw, List.mem_append] at hmem
    obtain rfl := levelIndex_inj hl hl'
    rcases hmem with hpre | hcut
    · exact honce hpre
    · have hy : (EditItem.add a).cutRead m = some (.add (a.1, a.2)) := by simpa using hcut
      obtain ⟨f, hp, -, hne⟩ := cutRead_add hm hy
      simp only [EditItem.add.injEq, Prod.mk.injEq] at hp
      exact hne hp.2.symm

/-- With nothing left, no `del` line is cut, so every delete that is read is one of the edit. -/
theorem deletes_of_nothingLeft (h : CommitEdit vm.current e)
    (hnothing : NothingLeft vm.current (editOf (shownItems e.items n))) {l : Fin kMaxLevel}
    {k : ℕ} (hdel : (editOf (shownItems e.items n)).deletes l k = true) :
    e.deletes l k = true := by
  obtain ⟨level, hl, hmem⟩ := deletes_iff.mp hdel
  refine deletes_iff.mpr ⟨level, hl, mem_items_del.mp ?_⟩
  rw [mem_editOf_deleted] at hmem
  rcases shownItems_cases e n with ⟨-, hw⟩ | ⟨x, m, rest, -, hm, hitems, hw⟩
  · rwa [hw] at hmem
  · rw [hw, List.mem_append] at hmem
    rcases hmem with hpre | hcut
    · rw [hitems]; exact List.mem_append_left _ hpre
    · have hy : x.cutRead m = some (.del (level, k)) := by simpa using hcut
      rcases not_after_of_cut h hm hitems hw with ⟨d, l', f, rfl, hf, -, hkept⟩ | ⟨a, l', rfl, -, -⟩
      · rw [hnothing.2 l' f hf] at hkept; contradiction
      · obtain ⟨g, hg, -⟩ := cutRead_add hm hy; contradiction

theorem shown_level (h : CommitEdit vm.current e) :
    ∀ a ∈ (editOf (shownItems e.items n)).added_files, ∃ l, levelIndex a.1 = some l := by
  intro a ha
  rw [mem_editOf_added] at ha
  rcases shownItems_cases e n with ⟨-, hw⟩ | ⟨x, m, rest, -, hm, hitems, hw⟩
  · rw [hw] at ha
    exact h.added_level a (mem_items_add.mp ha)
  · rw [hw, List.mem_append] at ha
    rcases ha with hpre | hy
    · exact h.added_level a (mem_items_add.mp (by rw [hitems]; exact List.mem_append_left _ hpre))
    · have hy' : x.cutRead m = some (.add a) := by simpa using hy
      cases x with
      | del d => obtain ⟨p, hp, -⟩ := cutRead_del hm hy'; contradiction
      | add b =>
        obtain ⟨f, hp, -, -⟩ := cutRead_add hm hy'
        obtain rfl := EditItem.add.inj hp
        exact h.added_level b (mem_items_add.mp (by rw [hitems]; simp))

theorem isEmpty_iff_nothingLeft (h : CommitEdit vm.current e) :
    (vm.applyUnlocked (editOf (shownItems e.items n))).current.IsEmpty ↔
      NothingLeft vm.current (editOf (shownItems e.items n)) := by
  constructor
  · intro hempty
    have hnone : ∀ l f, f ∉ (vm.applyUnlocked (editOf (shownItems e.items n))).current.level_files l :=
      fun l f hf => by rw [hempty l] at hf; contradiction
    constructor
    · refine List.eq_nil_iff_forall_not_mem.mpr fun a ha => ?_
      obtain ⟨l, hl⟩ := shown_level h a ha
      exact hnone l a.2 (mem_applyUnlocked.mpr (Or.inr (VersionEdit.mem_addedAt.mpr ⟨a.1, hl, ha⟩)))
    · intro l f hf
      by_contra hdel
      exact hnone l f (mem_applyUnlocked.mpr (Or.inl ⟨hf, by simpa using hdel⟩))
  · rintro ⟨hadd, hdel⟩ l
    refine List.eq_nil_iff_forall_not_mem.mpr fun f hf => ?_
    rcases mem_applyUnlocked.mp hf with ⟨hold, hkept⟩ | hnew
    · rw [hdel l f hold] at hkept; contradiction
    · obtain ⟨level, -, hmem⟩ := VersionEdit.mem_addedAt.mp hnew
      rw [hadd] at hmem
      contradiction

theorem shown_whole (e : VersionEdit) (n : ℕ) : ∀ item ∈ (shown e.items n).1, item ∈ e.items := by
  intro item hitem
  have hsplit := shown_split e.items n
  split at hsplit
  · exact hsplit ▸ hitem
  · obtain ⟨⟨rest, hitems⟩, -⟩ := hsplit
    rw [hitems]
    exact List.mem_append_left _ hitem

/-- The lines lead back to the version before only if they are nothing of the edit. -/
theorem shown_same_iff (h : Committing db_dir files dir vm e) :
    (vm.applyUnlocked (editOf (shownItems e.items n))).current = vm.current ↔
      (shown e.items n).1 = [] ∧
        NoEffect vm.current ((shown e.items n).2.bind fun c => c.1.cutRead c.2) := by
  have hedit := h.edit
  set read := (shown e.items n).2.bind fun c => c.1.cutRead c.2 with hread
  have hw : shownItems e.items n = (shown e.items n).1 ++ read.toList := rfl
  constructor
  · intro hsame
    obtain ⟨hadd, hdel⟩ := no_effect_of_same (shown_level hedit)
      (fun k hk => hedit.added_fresh k ((addedNumbers_shown e n).subset hk)) hsame
    -- a line that is read adds nothing, and deletes no file of the version
    have hitem : ∀ item ∈ shownItems e.items n, ∃ d, item = .del d ∧
        ∀ l, levelIndex d.1 = some l → ∀ f ∈ vm.current.level_files l, f.file_number ≠ d.2 := by
      intro item hmem
      cases item with
      | del d =>
        refine ⟨d, rfl, fun l hl f hf hnum => ?_⟩
        have hdeletes : (editOf (shownItems e.items n)).deletes l f.file_number = true :=
          deletes_iff.mpr ⟨d.1, hl, by rw [hnum]; exact mem_editOf_deleted.mpr hmem⟩
        rw [hdel l f hf] at hdeletes
        contradiction
      | add a =>
        have ha := mem_editOf_added.mpr hmem
        rw [hadd] at ha
        contradiction
    refine ⟨List.eq_nil_iff_forall_not_mem.mpr fun item hmem => ?_, fun y hy => ?_⟩
    · obtain ⟨d, rfl, hnot⟩ := hitem item (hw ▸ List.mem_append_left _ hmem)
      obtain ⟨l, hl, f, hf, hnum⟩ := hedit.deleted_live d (mem_items_del.mp (shown_whole e n _ hmem))
      exact hnot l hl f hf hnum
    · exact hitem y (hw ▸ List.mem_append_right _ (Option.mem_toList.mpr hy))
  · rintro ⟨hpre, hnoeffect⟩
    rw [hpre, List.nil_append] at hw
    refine same_of_no_effect h.ordered ?_ fun l f hf => ?_
    · refine List.eq_nil_iff_forall_not_mem.mpr fun a ha => ?_
      rw [mem_editOf_added, hw] at ha
      obtain ⟨d, hd, -⟩ := hnoeffect _ (Option.mem_toList.mp ha)
      contradiction
    · rw [← Bool.not_eq_true, deletes_iff]
      rintro ⟨level, hl, hmem⟩
      rw [mem_editOf_deleted, hw] at hmem
      obtain ⟨d, hd, hnot⟩ := hnoeffect _ (Option.mem_toList.mp hmem)
      obtain rfl := EditItem.del.inj hd
      exact hnot l hl f hf rfl

/-- With a line cut, the lines do not lead to the version after. -/
theorem shown_ne_after (h : CommitEdit vm.current e) {c : EditItem × ℕ} (hcut : (shown e.items n).2 = some c) :
    (vm.applyUnlocked (editOf (shownItems e.items n))).current ≠ (vm.applyUnlocked e).current := by
  rcases shownItems_cases e n with ⟨hnone, -⟩ | ⟨x, m, rest, -, hm, hitems, hw⟩
  · rw [hnone] at hcut
    contradiction
  intro hafter
  have hmem : ∀ l f, f ∈ (vm.applyUnlocked (editOf (shownItems e.items n))).current.level_files l ↔
      f ∈ (vm.applyUnlocked e).current.level_files l := fun l f => by rw [hafter]
  rcases not_after_of_cut h hm hitems hw with
    ⟨d, l, f, -, hf, hgone, hkept⟩ | ⟨a, l, -, hadded, hmissing⟩
  · rcases mem_applyUnlocked.mp ((hmem l f).mp (mem_applyUnlocked.mpr (Or.inl ⟨hf, hkept⟩)))
      with ⟨-, hdel⟩ | hadd
    · rw [hgone] at hdel; contradiction
    · exact h.added_fresh _ (mem_addedNumbers hadd) l f hf rfl
  · rcases mem_applyUnlocked.mp ((hmem l a.2).mpr (mem_applyUnlocked.mpr (Or.inr hadded)))
      with ⟨hold, -⟩ | hadd
    · exact h.added_fresh _ (mem_addedNumbers hadded) l a.2 hold rfl
    · exact hmissing hadd

/-- The lines lead to the version before or after only if they are all
of the edit or nothing of it. -/
theorem shown_version_iff (h : Committing db_dir files dir vm e) :
    ((vm.applyUnlocked (editOf (shownItems e.items n))).current = vm.current ∨
      (vm.applyUnlocked (editOf (shownItems e.items n))).current =
        (vm.applyUnlocked e).current) ↔
    ((shown e.items n).2 = none ∨
      (shown e.items n).1 = [] ∧
        NoEffect vm.current ((shown e.items n).2.bind fun c => c.1.cutRead c.2)) := by
  rw [← shown_same_iff h]
  constructor
  · rintro (hsame | hafter)
    · exact Or.inr hsame
    · left
      by_contra hcut
      obtain ⟨c, hc⟩ := Option.ne_none_iff_exists'.mp hcut
      exact shown_ne_after h.edit hc hafter
  · rintro (hnone | hsame)
    · rcases shownItems_cases e n with ⟨-, hw⟩ | ⟨x, m, rest, hcut, -⟩
      · rw [hw, editOf_items_self]
        exact Or.inr rfl
      · rw [hnone] at hcut
        contradiction
    · exact Or.inl hsame

/-- With nothing left, recovery scans the directory. -/
theorem scan_version_iff (h : Committing db_dir files dir vm e)
    (hnothing : NothingLeft vm.current (editOf (shownItems e.items n))) {s : Startup}
    (hs : s.vm.current.IsEmpty) (hdb : s.vm.db_dir = db_dir) (hdir : s.dir = dir) :
    (s.scanDirectory.vm.current = vm.current ∨
      s.scanDirectory.vm.current = (vm.applyUnlocked e).current) ↔
    ScanGivesBack vm.current e dir := by
  subst hdb hdir
  have hedit := h.edit
  obtain ⟨hframe, -⟩ := scanDirectory_frame s
  -- every table is scanned into L0, under its path
  have hscanned : ∀ x ∈ s.dir, isSst x.1 = true → x.2.isSome →
      ∃ f ∈ s.scanDirectory.vm.current.level_files 0, f.file_name = joinPath s.vm.db_dir x.1 := by
    intro x hx hsst hsome
    obtain ⟨t, ht⟩ := Option.isSome_iff_exists.mp hsome
    obtain ⟨f, hf, hname⟩ := exists_scanned (s := s) (mem_scanOrder.mpr ⟨hx, hsst⟩) ht
    exact ⟨f, hframe ▸ hf, hname⟩
  have hlevels : ∀ l, l ≠ 0 → s.scanDirectory.vm.current.level_files l = [] := by
    intro l hl
    refine List.eq_nil_iff_forall_not_mem.mpr fun f hf => ?_
    rw [hframe] at hf
    have := scanned_level _ s hl hf
    rw [hs l] at this
    contradiction
  have htable : ∀ f, OnDisk s.vm.db_dir s.dir f →
      ∃ g ∈ s.scanDirectory.vm.current.level_files 0, g.file_name = f.file_name := by
    intro f hf
    obtain ⟨t, ht, -⟩ := hf.table
    obtain ⟨g, hg, hname⟩ := hscanned _ ht (isSst_sstName _) rfl
    exact ⟨g, hg, by rw [hname, hf.name]⟩
  have hnumber : ∀ f g, OnDisk s.vm.db_dir s.dir f → OnDisk s.vm.db_dir s.dir g →
      f.file_name = g.file_name → f.file_number = g.file_number := by
    intro f g hf hg hname
    rw [hf.name, hg.name] at hname
    exact sstName_inj hf.number hg.number (joinPath_inj hname)
  have hadded : ∀ a ∈ e.added_files, a.2.file_number ∈ e.addedNumbers := fun a ha =>
    List.mem_map.mpr ⟨a, ha, rfl⟩
  constructor
  · rintro (hsame | hafter)
    · left
      refine ⟨List.eq_nil_iff_forall_not_mem.mpr fun a ha => ?_, fun l hl => ?_, ?_⟩
      · obtain ⟨g, hg, hname⟩ := htable a.2 (h.added a ha)
        rw [hsame] at hg
        exact hedit.added_fresh _ (hadded a ha) 0 g hg
          (hnumber g a.2 (h.live 0 g hg) (h.added a ha) hname)
      · rw [← hsame]; exact hlevels l hl
      · intro x hx hsst hsome
        obtain ⟨f, hf, hname⟩ := hscanned x hx hsst hsome
        rw [hsame] at hf
        refine ⟨f, hf, ?_⟩
        rw [(h.live 0 f hf).name] at hname
        exact (joinPath_inj hname).symm
    · have hmem : ∀ f ∈ s.scanDirectory.vm.current.level_files 0, ∃ a ∈ e.added_files, f = a.2 := by
        intro f hf
        rw [hafter] at hf
        rcases mem_applyUnlocked.mp hf with ⟨hold, hkept⟩ | hnew
        · rw [deletes_of_nothingLeft hedit hnothing (hnothing.2 0 f hold)] at hkept
          contradiction
        · obtain ⟨level, -, ha⟩ := VersionEdit.mem_addedAt.mp hnew
          exact ⟨_, ha, rfl⟩
      right
      refine ⟨fun l => List.eq_nil_iff_forall_not_mem.mpr fun f hf => ?_, fun a ha => ?_, ?_⟩
      · obtain ⟨g, hg, hname⟩ := htable f (h.live l f hf)
        obtain ⟨a, ha, rfl⟩ := hmem g hg
        exact hedit.added_fresh _ (hadded a ha) l f hf
          (hnumber f a.2 (h.live l f hf) (h.added a ha) hname.symm)
      · obtain ⟨l, hl⟩ := hedit.added_level a ha
        have hat : a.2 ∈ e.addedAt l := VersionEdit.mem_addedAt.mpr ⟨a.1, hl, ha⟩
        have hin : a.2 ∈ s.scanDirectory.vm.current.level_files l := by
          rw [hafter]; exact mem_applyUnlocked.mpr (Or.inr hat)
        by_cases h0 : l = 0
        · rw [hl, h0]
        · rw [hlevels l h0] at hin; contradiction
      · intro x hx hsst hsome
        obtain ⟨f, hf, hname⟩ := hscanned x hx hsst hsome
        obtain ⟨a, ha, rfl⟩ := hmem f hf
        refine ⟨a, ha, ?_⟩
        rw [(h.added a ha).name] at hname
        exact (joinPath_inj hname).symm
  · rintro (⟨-, hl0, hall⟩ | ⟨hempty, hl0, hall⟩)
    · left
      obtain ⟨hord, hmem, hrest⟩ := scan_exact hs h.names
        (p := fun f => f ∈ vm.current.level_files 0) (fun f hf => h.live 0 f hf) hall
      refine hord.ext h.ordered fun l f => ?_
      by_cases h0 : l = 0
      · subst h0; exact hmem f
      · rw [hrest l h0, hl0 l h0]
    · right
      obtain ⟨hord, hmem, hrest⟩ := scan_exact hs h.names
        (p := fun f => ∃ a ∈ e.added_files, f = a.2)
        (fun f hf => by obtain ⟨a, ha, rfl⟩ := hf; exact h.added a ha)
        (fun x hx hsst hsome => by
          obtain ⟨a, ha, hname⟩ := hall x hx hsst hsome
          exact ⟨a.2, ⟨a, ha, rfl⟩, hname⟩)
      have hnew := newIn_of_fresh hedit.added_nodup hedit.added_fresh
      refine hord.ext (ordered_applyUnlocked h.ordered hnew) fun l f => ?_
      rw [mem_applyUnlocked, hempty l]
      by_cases h0 : l = 0
      · subst h0
        rw [hmem f, VersionEdit.mem_addedAt]
        constructor
        · rintro ⟨a, ha, rfl⟩
          exact Or.inr ⟨a.1, hl0 a ha, ha⟩
        · rintro (⟨hf, -⟩ | ⟨level, -, ha⟩)
          · contradiction
          · exact ⟨_, ha, rfl⟩
      · rw [hrest l h0]
        refine iff_of_false List.not_mem_nil ?_
        rintro (⟨hf, -⟩ | hf)
        · contradiction
        · obtain ⟨level, hl, ha⟩ := VersionEdit.mem_addedAt.mp hf
          rw [hl0 _ ha] at hl
          exact h0 (Option.some.inj hl).symm

end Cut

def oneEntryTable (ts : Int64) : SSTable := ⟨[(⟨ascii "cpu", ts⟩, ⟨[], .kValue⟩)], 80⟩

def oneEntryFile (number : ℕ) (ts : Int64) : FileMeta :=
  (oneEntryTable ts).fileMeta number (joinPath (ascii "db") (sstName number))

def flushTwo : VersionEdit := ⟨[(0, oneEntryFile 1 5), (0, oneEntryFile 2 6)], []⟩

def compactTwo : VersionEdit := ⟨[(1, oneEntryFile 3 6)], [(0, 1), (0, 2)]⟩

/-- The manager and the files after the two flushes were logged. -/
def flushed : VersionManager × Files := (recoveryStart (ascii "db")).logAndApply (fun _ => none) flushTwo

def threeTables : SstDir :=
  [(sstName 1, some (oneEntryTable 5)), (sstName 2, some (oneEntryTable 6)),
    (sstName 3, some (oneEntryTable 6))]

theorem committing_compactTwo :
    Committing (ascii "db") flushed.2 threeTables flushed.1 compactTwo := by
  have hnew : flushTwo.NewIn (recoveryStart (ascii "db")).current :=
    newIn_of_fresh (by decide +kernel) fun _ _ _ _ hf => absurd hf List.not_mem_nil
  obtain ⟨hlogged, happly⟩ := logged_logAndApply
    (show (recoveryStart (ascii "db")).db_dir = ascii "db" from rfl) rfl
    Version.ordered_empty (logged_start (ascii "db")) hnew (by decide +kernel)
  have hord := ordered_applyUnlocked
    (show (recoveryStart (ascii "db")).current.Ordered from Version.ordered_empty) hnew
  have hlevels : ∀ l, ∀ f ∈ flushed.1.current.level_files l,
      l = 0 ∧ (f = oneEntryFile 1 5 ∨ f = oneEntryFile 2 6) := by decide +kernel
  have hdisk : ∀ n ts, n < 2 ^ 64 → (sstName n, some (oneEntryTable ts)) ∈ threeTables →
      OnDisk (ascii "db") threeTables (oneEntryFile n ts) :=
    fun n ts hn hmem => ⟨hn, rfl, _, hmem, rfl⟩
  refine ⟨hlogged, ?_, ⟨?_, ?_, ?_, ?_, ?_⟩, ?_, fun l f hf => ?_, fun a ha => ?_⟩
  · exact happly ▸ hord
  · decide +kernel
  · decide
  · decide +kernel
  · decide +kernel
  · decide +kernel
  · decide +kernel
  · rcases (hlevels l f hf).2 with rfl | rfl
    · exact hdisk 1 5 (by norm_num) (by decide +kernel)
    · exact hdisk 2 6 (by norm_num) (by decide +kernel)
  · obtain rfl : a = (1, oneEntryFile 3 6) := List.mem_singleton.mp ha
    exact hdisk 3 6 (by norm_num) (by decide +kernel)

end MiniTsdb
