import MiniTsdb.Proofs.ManifestLine
import MiniTsdb.Proofs.VersionApply

/-! Recovery applies an edit line by line, the running manager applied it as one
batch. Both end in the same levels, and what recovery holds is always below its counter. -/

namespace MiniTsdb
open Lib

/-- A `del` or `add` line of an edit. -/
inductive EditItem
  | del (d : ℤ × ℕ)
  | add (a : ℤ × FileMeta)
  deriving DecidableEq, Repr

def EditItem.line : EditItem → Bytes
  | .del d => delLine d
  | .add a => addLine a

def EditItem.parsed : EditItem → ManifestLine
  | .del d => .del d.1 d.2
  | .add a => .add a.1 a.2

def VersionEdit.items (e : VersionEdit) : List EditItem :=
  e.deleted_files.map .del ++ e.added_files.map .add

theorem items_parsed (e : VersionEdit) :
    e.items.map EditItem.parsed = e.deleted_files.map (fun d => .del d.1 d.2) ++
      e.added_files.map (fun a => .add a.1 a.2) := by
  simp [VersionEdit.items, Function.comp_def, EditItem.parsed]

theorem editText_eq (e : VersionEdit) (next : ℕ) :
    editText e next = (e.items.map EditItem.line).flatten ++ nextFileLine next := by
  simp [editText, VersionEdit.items, Function.comp_def, EditItem.line]

def editLines (e : VersionEdit) (next : ℕ) : List ManifestLine :=
  e.items.map EditItem.parsed ++ [.nextFile next]

/-- The lines of an edit read back as what was written. -/
structure EditReadsBack (db_dir : Bytes) (e : VersionEdit) (next : ℕ) : Prop where
  deleted : ∀ d ∈ e.deleted_files, parseManifest db_dir (delLine d) = [.del d.1 d.2]
  added : ∀ a ∈ e.added_files, parseManifest db_dir (addLine a) = [.add a.1 a.2]
  next_file : parseManifest db_dir (nextFileLine next) = [.nextFile next]

instance (db_dir : Bytes) (e : VersionEdit) (next : ℕ) : Decidable (EditReadsBack db_dir e next) :=
  decidable_of_iff
    ((∀ d ∈ e.deleted_files, parseManifest db_dir (delLine d) = [.del d.1 d.2]) ∧
      (∀ a ∈ e.added_files, parseManifest db_dir (addLine a) = [.add a.1 a.2]) ∧
      parseManifest db_dir (nextFileLine next) = [.nextFile next])
    ⟨fun h => ⟨h.1, h.2.1, h.2.2⟩, fun h => ⟨h.deleted, h.added, h.next_file⟩⟩

theorem terminated_delLine (d : ℤ × ℕ) : Terminated (delLine d) :=
  Or.inr ⟨ascii "del " ++ (decimalInt d.1 ++ blank :: decimal d.2), by simp [delLine]⟩

theorem terminated_addLine (a : ℤ × FileMeta) : Terminated (addLine a) :=
  Or.inr ⟨ascii "add" ++ (addFields a ++ decimalInt a.2.largest.timestamp.toInt),
    by simp [addLine_eq]⟩

theorem terminated_nextFileLine (n : ℕ) : Terminated (nextFileLine n) :=
  Or.inr ⟨ascii "next_file " ++ decimal n, by simp [nextFileLine]⟩

theorem parseManifest_append (db_dir : Bytes) {s : Bytes} (h : Terminated s) (t : Bytes) :
    parseManifest db_dir (s ++ t) = parseManifest db_dir s ++ parseManifest db_dir t := by
  simp [parseManifest, getLines_append h]

theorem parseManifest_lines {α : Type} (db_dir : Bytes) (write : α → Bytes)
    (read : α → ManifestLine) (xs : List α) (hterm : ∀ x, Terminated (write x))
    (hread : ∀ x ∈ xs, parseManifest db_dir (write x) = [read x]) (rest : Bytes) :
    parseManifest db_dir ((xs.map write).flatten ++ rest) =
      xs.map read ++ parseManifest db_dir rest := by
  induction xs with
  | nil => rfl
  | cons x xs ih =>
    have hx := hread x List.mem_cons_self
    have hxs := ih fun y hy => hread y (List.mem_cons_of_mem x hy)
    rw [List.map_cons, List.flatten_cons, List.append_assoc, parseManifest_append db_dir (hterm x),
      hx, hxs]
    rfl

theorem terminated_flatten {α : Type} (write : α → Bytes) (xs : List α)
    (hterm : ∀ x, Terminated (write x)) : Terminated (xs.map write).flatten := by
  induction xs with
  | nil => exact Or.inl rfl
  | cons x xs ih =>
    rw [List.map_cons, List.flatten_cons]
    exact terminated_append (hterm x) ih

theorem terminated_editText (e : VersionEdit) (next : ℕ) : Terminated (editText e next) :=
  terminated_append (terminated_flatten delLine _ terminated_delLine)
    (terminated_append (terminated_flatten addLine _ terminated_addLine)
      (terminated_nextFileLine next))

theorem parseManifest_editText {db_dir : Bytes} {e : VersionEdit} {next : ℕ}
    (h : EditReadsBack db_dir e next) :
    parseManifest db_dir (editText e next) = editLines e next := by
  rw [editText, parseManifest_lines db_dir delLine _ _ terminated_delLine h.deleted,
    parseManifest_lines db_dir addLine _ _ terminated_addLine h.added, h.next_file, editLines,
    items_parsed, List.append_assoc]

def VersionManager.applyEdits (vm : VersionManager) (es : List VersionEdit) : VersionManager :=
  es.foldl VersionManager.applyUnlocked vm

theorem replayLines_append {lines rest : List ManifestLine} {vm vm' : VersionManager}
    (h : lines.foldlM VersionManager.replayLine vm = .ok vm') :
    vm.replayLines (lines ++ rest) = vm'.replayLines rest := by
  induction lines generalizing vm with
  | nil =>
    obtain rfl : vm = vm' := by simpa [pure, Except.pure] using h
    rfl
  | cons line lines ih =>
    rw [List.foldlM_cons] at h
    cases hl : vm.replayLine line with
    | error m => simp [hl, bind, Except.bind] at h
    | ok vm₁ =>
      rw [hl] at h
      rw [List.cons_append, VersionManager.replayLines, hl]
      exact ih h

theorem replayLines_of_foldlM {lines : List ManifestLine} {vm vm' : VersionManager}
    (h : lines.foldlM VersionManager.replayLine vm = .ok vm') :
    vm.replayLines lines = ({ vm' with obsolete_files := [] }, .ok) := by
  have hall : vm.replayLines (lines ++ []) = vm'.replayLines [] := replayLines_append h
  rwa [List.append_nil] at hall

theorem replay_dels (ds : List (ℤ × ℕ)) (vm : VersionManager) :
    (ds.map fun d => ManifestLine.del d.1 d.2).foldlM VersionManager.replayLine vm =
      .ok (vm.applyEdits (ds.map fun d => ⟨[], [d]⟩)) := by
  induction ds generalizing vm with
  | nil => rfl
  | cons d ds ih => exact ih (vm.applyUnlocked ⟨[], [d]⟩)

theorem replay_adds (as : List (ℤ × FileMeta)) (vm : VersionManager) :
    (as.map fun a => ManifestLine.add a.1 a.2).foldlM VersionManager.replayLine vm =
      .ok (vm.applyEdits (as.map fun a => ⟨[a], []⟩)) := by
  induction as generalizing vm with
  | nil => rfl
  | cons a as ih => exact ih (vm.applyUnlocked ⟨[a], []⟩)

theorem addedAt_cons (a : ℤ × FileMeta) (as : List (ℤ × FileMeta)) (ds : List (ℤ × ℕ))
    (l : Fin kMaxLevel) :
    VersionEdit.addedAt ⟨a :: as, ds⟩ l =
      VersionEdit.addedAt ⟨[a], []⟩ l ++ VersionEdit.addedAt ⟨as, []⟩ l := by
  unfold VersionEdit.addedAt
  rw [← List.map_append, ← List.filter_append]
  rfl

@[simp] theorem addedAt_nil (ds : List (ℤ × ℕ)) (l : Fin kMaxLevel) :
    VersionEdit.addedAt ⟨[], ds⟩ l = [] := rfl

@[simp] theorem deletes_nil (as : List (ℤ × FileMeta)) (l : Fin kMaxLevel) (n : ℕ) :
    VersionEdit.deletes ⟨as, []⟩ l n = false := rfl

theorem deletes_cons (d : ℤ × ℕ) (ds : List (ℤ × ℕ)) (as : List (ℤ × FileMeta))
    (l : Fin kMaxLevel) (n : ℕ) :
    VersionEdit.deletes ⟨as, d :: ds⟩ l n =
      (VersionEdit.deletes ⟨[], [d]⟩ l n || VersionEdit.deletes ⟨as, ds⟩ l n) := by
  simp [VersionEdit.deletes]

theorem applyEdits_dels (ds : List (ℤ × ℕ)) {vm : VersionManager} (h : vm.current.Ordered) :
    (vm.applyEdits (ds.map fun d => ⟨[], [d]⟩)).current.Ordered ∧
      ∀ l f, f ∈ (vm.applyEdits (ds.map fun d => ⟨[], [d]⟩)).current.level_files l ↔
        f ∈ vm.current.level_files l ∧ VersionEdit.deletes ⟨[], ds⟩ l f.file_number = false := by
  induction ds generalizing vm with
  | nil => exact ⟨h, fun l f => by simp [VersionManager.applyEdits]⟩
  | cons d ds ih =>
    have hone : (vm.applyUnlocked ⟨[], [d]⟩).current.Ordered :=
      ordered_applyUnlocked h fun l => ⟨List.nodup_nil, fun f _ _ => List.not_mem_nil⟩
    obtain ⟨hord, hmem⟩ := ih hone
    refine ⟨hord, fun l f => ?_⟩
    have hone_mem := @mem_applyUnlocked vm ⟨[], [d]⟩ l f
    rw [addedAt_nil] at hone_mem
    rw [deletes_cons, Bool.or_eq_false_iff, ← and_assoc]
    refine (hmem l f).trans (and_congr_left fun _ => hone_mem.trans ?_)
    simp

theorem newIn_cons {a : ℤ × FileMeta} {as : List (ℤ × FileMeta)} {vm : VersionManager}
    (h : VersionEdit.NewIn ⟨a :: as, []⟩ vm.current) :
    VersionEdit.NewIn ⟨[a], []⟩ vm.current ∧
      VersionEdit.NewIn ⟨as, []⟩ (vm.applyUnlocked ⟨[a], []⟩).current := by
  constructor
  · intro l
    obtain ⟨hnodup, hunused⟩ := h l
    rw [addedAt_cons, List.map_append] at hnodup hunused
    refine ⟨(List.nodup_append.mp hnodup).1, fun f hf _ hm => ?_⟩
    exact hunused f hf rfl (List.mem_append_left _ hm)
  · intro l
    obtain ⟨hnodup, hunused⟩ := h l
    rw [addedAt_cons, List.map_append] at hnodup hunused
    obtain ⟨-, hnodup', hdisj⟩ := List.nodup_append.mp hnodup
    refine ⟨hnodup', fun f hf _ hm => ?_⟩
    rcases mem_applyUnlocked.mp hf with ⟨hold, -⟩ | hadd
    · exact hunused f hold rfl (List.mem_append_right _ hm)
    · exact hdisj _ (List.mem_map_of_mem hadd) _ hm rfl

theorem applyEdits_adds (as : List (ℤ × FileMeta)) {vm : VersionManager} (h : vm.current.Ordered)
    (hnew : VersionEdit.NewIn ⟨as, []⟩ vm.current) :
    (vm.applyEdits (as.map fun a => ⟨[a], []⟩)).current.Ordered ∧
      ∀ l f, f ∈ (vm.applyEdits (as.map fun a => ⟨[a], []⟩)).current.level_files l ↔
        f ∈ vm.current.level_files l ∨ f ∈ VersionEdit.addedAt ⟨as, []⟩ l := by
  induction as generalizing vm with
  | nil => exact ⟨h, fun l f => by simp [VersionManager.applyEdits]⟩
  | cons a as ih =>
    obtain ⟨hone, hrest⟩ := newIn_cons hnew
    obtain ⟨hord, hmem⟩ := ih (ordered_applyUnlocked h hone) hrest
    refine ⟨hord, fun l f => ?_⟩
    have hone_mem := @mem_applyUnlocked vm ⟨[a], []⟩ l f
    rw [addedAt_cons, List.mem_append, ← or_assoc]
    refine (hmem l f).trans (or_congr_left (hone_mem.trans ?_))
    simp

/-- Line by line or in one batch: the levels are the same. -/
theorem replay_items {vm r : VersionManager} (hsame : r.current = vm.current)
    (h : vm.current.Ordered) {e : VersionEdit} (hnew : e.NewIn vm.current) :
    ∃ r', (e.items.map EditItem.parsed).foldlM VersionManager.replayLine r = .ok r' ∧
      r'.current = (vm.applyUnlocked e).current := by
  obtain ⟨hord₁, hmem₁⟩ := applyEdits_dels e.deleted_files (show r.current.Ordered from hsame ▸ h)
  set r₁ := r.applyEdits (e.deleted_files.map fun d => ⟨[], [d]⟩)
  have hnew₁ : VersionEdit.NewIn ⟨e.added_files, []⟩ r₁.current := by
    intro l
    refine ⟨(hnew l).1, fun f hf _ => ?_⟩
    obtain ⟨hf, hd⟩ := (hmem₁ l f).mp hf
    exact (hnew l).2 f (hsame ▸ hf) hd
  obtain ⟨hord₂, hmem₂⟩ := applyEdits_adds e.added_files hord₁ hnew₁
  refine ⟨r₁.applyEdits (e.added_files.map fun a => ⟨[a], []⟩), ?_, ?_⟩
  · rw [items_parsed, List.foldlM_append, replay_dels]
    exact replay_adds e.added_files r₁
  · refine hord₂.ext (ordered_applyUnlocked h hnew) fun l f => ?_
    rw [hmem₂, hmem₁, mem_applyUnlocked, hsame]
    rfl

theorem replay_edit {vm r : VersionManager} (hsame : r.current = vm.current)
    (h : vm.current.Ordered) {e : VersionEdit} (hnew : e.NewIn vm.current) (next : ℕ) :
    ∃ r', (editLines e next).foldlM VersionManager.replayLine r = .ok r' ∧
      r'.current = (vm.applyUnlocked e).current := by
  obtain ⟨r', hr', hcurrent⟩ := replay_items hsame h hnew
  refine ⟨if next > r'.next_file_number then { r' with next_file_number := next } else r', ?_, ?_⟩
  · rw [editLines, List.foldlM_append, hr']
    rfl
  · split_ifs <;> exact hcurrent

theorem below_applyUnlocked {vm : VersionManager} (h : vm.Below) {e : VersionEdit}
    (hadd : ∀ l, ∀ f ∈ e.addedAt l, f.file_number < bumpLast vm.next_file_number e.added_files) :
    (vm.applyUnlocked e).Below := by
  intro l f hf
  rw [applyUnlocked_next]
  rcases mem_applyUnlocked.mp hf with ⟨hold, -⟩ | hnew
  · exact lt_of_lt_of_le (h l f hold) (le_bumpLast _ _)
  · exact hadd l f hnew

/-- Whatever recovery read so far has numbers below its counter. -/
theorem below_replayLine {vm vm' : VersionManager} (h : vm.Below) {line : ManifestLine}
    (hl : vm.replayLine line = .ok vm') : vm'.Below := by
  cases line with
  | nextFile n =>
    obtain rfl : _ = vm' := Except.ok.inj hl
    split_ifs with hn
    · exact fun l f hf => lt_trans (h l f hf) hn
    · exact h
  | add level file =>
    obtain rfl : _ = vm' := Except.ok.inj hl
    refine below_applyUnlocked h fun l f hf => ?_
    obtain ⟨lv, -, hmem⟩ := VersionEdit.mem_addedAt.mp hf
    obtain ⟨-, rfl⟩ : lv = level ∧ f = file := by simpa using hmem
    change f.file_number < if f.file_number ≥ vm.next_file_number then f.file_number + 1
      else vm.next_file_number
    split_ifs <;> omega
  | del level n =>
    obtain rfl : _ = vm' := Except.ok.inj hl
    exact below_applyUnlocked h fun l f hf => absurd hf List.not_mem_nil
  | bad m => simp [VersionManager.replayLine] at hl
  | ignored =>
    obtain rfl : vm = vm' := Except.ok.inj hl
    exact h

theorem paths_replayLine {vm vm' : VersionManager} {line : ManifestLine}
    (hl : vm.replayLine line = .ok vm') :
    vm'.db_dir = vm.db_dir ∧ vm'.manifest_name = vm.manifest_name := by
  cases line with
  | nextFile n =>
    obtain rfl : _ = vm' := Except.ok.inj hl
    split_ifs <;> exact ⟨rfl, rfl⟩
  | add level file =>
    obtain rfl : _ = vm' := Except.ok.inj hl
    exact ⟨applyUnlocked_db_dir vm _, applyUnlocked_manifest_name vm _⟩
  | del level n =>
    obtain rfl : _ = vm' := Except.ok.inj hl
    exact ⟨applyUnlocked_db_dir vm _, applyUnlocked_manifest_name vm _⟩
  | bad m => simp [VersionManager.replayLine] at hl
  | ignored =>
    obtain rfl : vm = vm' := Except.ok.inj hl
    exact ⟨rfl, rfl⟩

/-- What every line preserves, the whole replay preserves. -/
theorem foldlM_replayLine_invariant {P : VersionManager → Prop}
    (hline : ∀ vm vm' line, P vm → vm.replayLine line = .ok vm' → P vm')
    {lines : List ManifestLine} {vm vm' : VersionManager} (h : P vm)
    (hl : lines.foldlM VersionManager.replayLine vm = .ok vm') : P vm' := by
  induction lines generalizing vm with
  | nil =>
    obtain rfl : vm = vm' := by simpa [pure, Except.pure] using hl
    exact h
  | cons line lines ih =>
    rw [List.foldlM_cons] at hl
    cases hvm : vm.replayLine line with
    | error m => simp [hvm, bind, Except.bind] at hl
    | ok vm₁ =>
      rw [hvm] at hl
      exact ih (hline vm vm₁ line h hvm) hl

theorem below_foldlM {lines : List ManifestLine} {vm vm' : VersionManager} (h : vm.Below)
    (hl : lines.foldlM VersionManager.replayLine vm = .ok vm') : vm'.Below :=
  foldlM_replayLine_invariant (fun _ _ _ hb => below_replayLine hb) h hl

theorem paths_foldlM {lines : List ManifestLine} {vm vm' : VersionManager}
    (hl : lines.foldlM VersionManager.replayLine vm = .ok vm') :
    vm'.db_dir = vm.db_dir ∧ vm'.manifest_name = vm.manifest_name :=
  foldlM_replayLine_invariant (P := fun r => r.db_dir = vm.db_dir ∧
    r.manifest_name = vm.manifest_name)
    (fun _ _ _ hp hline => ⟨(paths_replayLine hline).1.trans hp.1,
      (paths_replayLine hline).2.trans hp.2⟩) ⟨rfl, rfl⟩ hl

theorem replayLines_invariant {P : VersionManager → Prop} {lines : List ManifestLine}
    (hline : ∀ line ∈ lines, ∀ vm vm', P vm → vm.replayLine line = .ok vm' → P vm')
    (hdone : ∀ vm : VersionManager, P vm → P { vm with obsolete_files := [] })
    {vm : VersionManager} (h : P vm) : P (vm.replayLines lines).1 := by
  induction lines generalizing vm with
  | nil => exact hdone vm h
  | cons line lines ih =>
    rw [VersionManager.replayLines]
    cases hl : vm.replayLine line with
    | ok vm' =>
      exact ih (fun line' hmem => hline line' (List.mem_cons_of_mem line hmem))
        (hline line List.mem_cons_self vm vm' h hl)
    | error message => exact h

/-- Recovery keeps what it found when there is no manifest, and starts over otherwise. -/
theorem below_recoverFromManifest {vm : VersionManager} (h : vm.Below) (files : Files) :
    (vm.recoverFromManifest files).1.Below := by
  unfold VersionManager.recoverFromManifest
  dsimp only
  split
  · exact h
  · apply replayLines_invariant (P := VersionManager.Below)
    · exact fun _ _ _ _ hp hline => below_replayLine hp hline
    · exact fun _ hp => hp
    · exact fun l f hf => absurd hf List.not_mem_nil

/-- Lines that delete nothing make nothing obsolete. -/
theorem replayLines_no_del {lines : List ManifestLine} (hdel : ∀ l n, .del l n ∉ lines)
    {vm : VersionManager} (h : vm.obsolete_files = []) : (vm.replayLines lines).1.obsolete_files = [] := by
  refine replayLines_invariant (P := fun vm => vm.obsolete_files = []) ?_ (fun _ _ => rfl) h
  intro line hmem vm vm' hvm hline
  cases line with
  | nextFile n =>
    obtain rfl : _ = vm' := Except.ok.inj hline
    split_ifs <;> exact hvm
  | add level file =>
    obtain rfl : _ = vm' := Except.ok.inj hline
    refine List.eq_nil_iff_forall_not_mem.mpr fun name hname => ?_
    rcases mem_applyUnlocked_obsolete hname with hname | ⟨l, f, -, hdeletes, -⟩
    · rw [hvm] at hname
      contradiction
    · contradiction
  | del level n => exact absurd hmem (hdel level n)
  | bad m => contradiction
  | ignored =>
    obtain rfl : vm = vm' := Except.ok.inj hline
    exact hvm

theorem replayLines_obsolete {lines : List ManifestLine} {vm : VersionManager}
    (h : (vm.replayLines lines).2 = .ok) : (vm.replayLines lines).1.obsolete_files = [] := by
  induction lines generalizing vm with
  | nil => rfl
  | cons line lines ih =>
    rw [VersionManager.replayLines] at h ⊢
    cases hl : vm.replayLine line with
    | ok vm' =>
      rw [hl] at h
      exact ih h
    | error message =>
      rw [hl] at h
      contradiction

theorem init_db_dir (db_dir : Bytes) (files : Files) :
    (VersionManager.init db_dir files).1.db_dir = db_dir := by
  unfold VersionManager.init VersionManager.recoverFromManifest
  dsimp only
  split
  · rfl
  · exact replayLines_invariant (P := fun vm => vm.db_dir = db_dir)
      (fun _ _ _ _ hp hline => (paths_replayLine hline).1.trans hp) (fun _ hp => hp) rfl

theorem init_obsolete {db_dir : Bytes} {files : Files}
    (h : (VersionManager.init db_dir files).2 = .ok) :
    (VersionManager.init db_dir files).1.obsolete_files = [] := by
  unfold VersionManager.init VersionManager.recoverFromManifest at h ⊢
  dsimp only at h ⊢
  split
  · rfl
  · rename_i text htext
    rw [htext] at h
    exact replayLines_obsolete h

end MiniTsdb
