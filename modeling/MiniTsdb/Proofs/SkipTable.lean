import MiniTsdb.Proofs.HandOver
import MiniTsdb.Spec.SkipTable

/-! The memtable on its skip list answers as the memtable that is the bottom level alone. -/

namespace MiniTsdb
open Lib

namespace SkipList
variable {κ ν : Type*}

def pairOf (sl : SkipList κ ν) (n : ℕ) : κ × ν := (sl.keyOf n, sl.valueOf n)

theorem walkLoop_eq (sl : SkipList κ ν) (go : κ → Bool) {p turns : ℕ} {nodes : List ℕ}
    (hlinked : Linked (sl.level 0) p nodes) (hturns : nodes.length ≤ turns) :
    sl.walkLoop go turns nodes.head? =
      some ((nodes.map sl.pairOf).takeWhile fun node => go node.1) := by
  induction nodes generalizing p turns with
  | nil => cases turns <;> rfl
  | cons n nodes ih =>
    cases turns with
    | zero => simp at hturns
    | succ turns =>
      have hrest := ih hlinked.2 (Nat.le_of_succ_le_succ hturns)
      have hnext : sl.nextOf n = nodes.head? := hlinked.2.head?
      have hpair : sl.pairOf n = ((sl.nodes n).key, (sl.nodes n).value) := rfl
      rw [List.head?_cons, walkLoop, hnext, hrest, List.map_cons, List.takeWhile_cons, hpair]
      cases go (sl.nodes n).key <;> rfl

theorem countLoop_eq (sl : SkipList κ ν) {p turns : ℕ} {nodes : List ℕ}
    (hlinked : Linked (sl.level 0) p nodes) (hturns : nodes.length ≤ turns) (count : ℕ) :
    sl.countLoop turns nodes.head? count = some (count + nodes.length) := by
  induction nodes generalizing p turns count with
  | nil => cases turns <;> rfl
  | cons n nodes ih =>
    cases turns with
    | zero => simp at hturns
    | succ turns =>
      have hnext : (sl.nodes n).next_ 0 = nodes.head? := hlinked.2.head?
      simp only [List.head?_cons, countLoop, hnext, ih hlinked.2 (Nat.le_of_succ_le_succ hturns),
        List.length_cons]
      congr 1
      omega

section
variable [LinearOrder κ] {sl : SkipList κ ν} {levels : ℕ → List ℕ} (h : Holds sl levels)
include h

theorem Holds.count_eq : sl.count = some (levels 0).length := by
  have hhead : (sl.nodes 0).next_ 0 = (levels 0).head? := (h.linked 0).head?
  rw [count, hhead, sl.countLoop_eq (h.linked 0) (h.length_lt 0).le, Nat.zero_add]

theorem Holds.atLeast_eq (start : κ) : (sl.atLeast start (levels 0)).map sl.pairOf =
    ((levels 0).map sl.pairOf).dropWhile fun node => decide (node.1 < start) := by
  rw [List.dropWhile_map]
  exact congrArg (List.map sl.pairOf) (h.ascending.dropWhile_lt start).symm

/-- A walk visits the bottom level from its start to the first key at which it stops. -/
theorem Holds.walk_eq (cmp : Comparator κ) (start : κ) (go : κ → Bool) :
    sl.walk cmp start go = some ((((levels 0).map sl.pairOf).dropWhile fun node =>
      decide (node.1 < start)).takeWhile fun node => go node.1) := by
  obtain ⟨prev, hfind, -⟩ := h.find cmp start
  have hlinked := h.linked 0
  rw [← h.split start 0] at hlinked
  have hlength : (sl.atLeast start (levels 0)).length ≤ sl.size :=
    (List.length_filter_le _ _).trans (h.length_lt 0).le
  rw [walk, hfind, Option.bind_some, sl.walkLoop_eq go hlinked.drop hlength, h.atLeast_eq]

end

end SkipList

namespace SkipTable

/-- The bottom level of the skip list is the table, and both count the same bytes. -/
structure Refines (t : SkipTable) (m : MemTable) : Prop where
  table : ∃ levels, t.table_.Holds levels ∧ (levels 0).map t.table_.pairOf = m.table
  usage : t.mem_usage_ = m.mem_usage

variable {t : SkipTable} {m : MemTable}

theorem refines_new : new.Refines .new := ⟨⟨_, SkipList.holds_new, rfl⟩, rfl⟩

theorem represents_table {sl : SkipList TsKey InternalEntry} {levels : ℕ → List ℕ}
    (htable : (levels 0).map sl.pairOf = m.table) : sl.Represents levels m.getEntry := by
  intro key entry
  rw [← mem_table_iff_getEntry, ← htable, List.mem_map]
  simp [SkipList.pairOf]

theorem Refines.insert (h : t.Refines m) (op : Operation) {height : ℕ}
    (hheight : 1 ≤ height ∧ height ≤ SkipList.kMaxLevel) :
    ∃ sl levels, t.table_.insert SkipList.tsKey op.key op.entry height = some sl ∧ sl.Holds levels ∧
      (levels 0).map sl.pairOf = (m.apply op).table := by
  obtain ⟨levels, hholds, htable⟩ := h.table
  obtain ⟨sl, levels', hinsert, hnext, hrep⟩ :=
    hholds.insert SkipList.tsKey (represents_table htable) op.key op.entry hheight
  refine ⟨sl, levels', hinsert, hnext, ?_⟩
  apply Ascending.ext (f := Prod.fst)
  · exact List.pairwise_map.mpr hnext.ascending
  · exact (m.apply op).ascending
  · intro ⟨key, entry⟩
    have hbottom : (key, entry) ∈ (levels' 0).map sl.pairOf ↔
        ∃ n ∈ levels' 0, sl.keyOf n = key ∧ sl.valueOf n = entry := by simp [SkipList.pairOf]
    rw [mem_table_iff_getEntry, getEntry_apply, hbottom, ← hrep key entry]
    by_cases hkey : key = op.key
    · simp [hkey]
    · simp [hkey]

theorem Refines.apply (h : t.Refines m) (op : Operation) {height : ℕ}
    (hheight : 1 ≤ height ∧ height ≤ SkipList.kMaxLevel) :
    ∃ t', t.apply height op = some t' ∧ t'.Refines (m.apply op) := by
  obtain ⟨sl, levels, hinsert, hholds, htable⟩ := h.insert op hheight
  cases op with
  | put measurement timestamp value =>
    refine ⟨_, Option.map_eq_some_iff.mpr ⟨sl, hinsert, rfl⟩, ⟨levels, hholds, htable⟩, ?_⟩
    simp [h.usage, MemTable.apply, MemTable.put]
  | delete measurement timestamp =>
    refine ⟨_, Option.map_eq_some_iff.mpr ⟨sl, hinsert, rfl⟩, ⟨levels, hholds, htable⟩, ?_⟩
    simp [h.usage, MemTable.apply, MemTable.delete]

theorem Refines.applyAll (h : t.Refines m) {calls : List (Operation × ℕ)}
    (hheights : ∀ call ∈ calls, 1 ≤ call.2 ∧ call.2 ≤ SkipList.kMaxLevel) :
    ∃ t', t.applyAll calls = some t' ∧ t'.Refines ((calls.map Prod.fst).foldl MemTable.apply m) := by
  induction calls generalizing t m with
  | nil => exact ⟨t, rfl, h⟩
  | cons call calls ih =>
    obtain ⟨hfirst, hrest⟩ := List.forall_mem_cons.mp hheights
    obtain ⟨t₁, happly, hnext⟩ := h.apply call.1 hfirst
    obtain ⟨t₂, hall, hend⟩ := ih hnext hrest
    refine ⟨t₂, ?_, hend⟩
    rw [SkipTable.applyAll, List.foldlM_cons, happly]
    exact hall

/-- The functions of the memtable answer on the skip list as on its bottom level. -/
structure Answers (t : SkipTable) (m : MemTable) : Prop where
  usage : t.mem_usage_ = m.mem_usage
  getEntry : ∀ measurement timestamp,
    t.getEntry measurement timestamp = some (m.getEntry ⟨measurement, timestamp⟩)
  get : ∀ measurement timestamp,
    t.get measurement timestamp = some ((m.getEntry ⟨measurement, timestamp⟩).bind InternalEntry.read)
  rangeQueryEntries : ∀ measurement t_start t_end,
    t.rangeQueryEntries measurement t_start t_end = some (m.rangeQueryEntries measurement t_start t_end)
  rangeQuery : ∀ measurement t_start t_end, t.rangeQuery measurement t_start t_end =
    some ((m.rangeQueryEntries measurement t_start t_end).filter fun record => !record.deleted)
  isEmpty : t.isEmpty = some m.isEmpty
  iterateEntries : t.iterateEntries = some m.iterateEntries
  iterate : t.iterate = some (m.iterateEntries.filterMap fun node =>
    node.2.read.map fun value => (node.1, value))
  count : t.count = some m.count

theorem lt_eq_compare (start : TsKey) : (fun node : TsKey × InternalEntry => decide (node.1 < start)) =
    fun node => tsKeyComparator node.1 start == .lt := by
  funext node
  rw [Bool.eq_iff_iff]
  simp [tsKeyComparator_lt_iff]

theorem Refines.walk_eq (h : t.Refines m) (start : TsKey) (go : TsKey → Bool) :
    t.table_.walk SkipList.tsKey start go =
      some ((m.findGreaterOrEqual start).takeWhile fun node => go node.1) := by
  obtain ⟨levels, hholds, htable⟩ := h.table
  rw [hholds.walk_eq, htable, lt_eq_compare]
  rfl

theorem Refines.answers (h : t.Refines m) : t.Answers m := by
  obtain ⟨levels, hholds, htable⟩ := h.table
  have hentry : ∀ measurement timestamp,
      t.getEntry measurement timestamp = some (m.getEntry ⟨measurement, timestamp⟩) := fun _ _ =>
    (hholds.get_eq SkipList.tsKey (represents_table htable) _).1
  have hrange : ∀ measurement t_start t_end, t.rangeQueryEntries measurement t_start t_end =
      some (m.rangeQueryEntries measurement t_start t_end) := by
    intro measurement t_start t_end
    unfold SkipTable.rangeQueryEntries MemTable.rangeQueryEntries
    split_ifs
    · rfl
    · rw [h.walk_eq]
      rfl
  have hall : t.table_.walk SkipList.tsKey .default (fun _ => true) = some m.iterateEntries := by
    rw [h.walk_eq]
    exact congrArg some (List.takeWhile_eq_self_iff.mpr fun _ _ => rfl)
  refine ⟨h.usage, hentry, fun measurement timestamp => ?_, hrange, fun measurement t_start t_end => ?_,
    ?_, hall, ?_, ?_⟩
  · rw [SkipTable.get, hentry, Option.map_some]
    cases m.getEntry ⟨measurement, timestamp⟩ <;> rfl
  · rw [SkipTable.rangeQuery, hrange, Option.map_some]
  · obtain ⟨prev, hfind, -⟩ := hholds.find SkipList.tsKey .default
    have hrest := hholds.atLeast_eq .default
    rw [htable, lt_eq_compare] at hrest
    rw [SkipTable.isEmpty, hfind, MemTable.isEmpty, MemTable.findGreaterOrEqual, ← hrest, List.isEmpty_map]
    cases t.table_.atLeast .default (levels 0) <;> rfl
  · rw [SkipTable.iterate, hall, Option.map_some]
    congr 2
    funext node
    unfold InternalEntry.read
    cases node.2.isDeletion <;> rfl
  · rw [SkipTable.count, hholds.count_eq, MemTable.count, ← htable, List.length_map]

/-- For every sequence of operations and of the heights that `RandomHeight` may draw, the
memtable on its skip list runs to the end of every loop and answers as its bottom level. -/
theorem memtable_refines_bottom (calls : List (Operation × ℕ))
    (hheights : ∀ call ∈ calls, 1 ≤ call.2 ∧ call.2 ≤ SkipList.kMaxLevel) :
    ∃ t, new.applyAll calls = some t ∧ t.Answers (memTableOf (calls.map Prod.fst)) := by
  obtain ⟨t, hall, hrefines⟩ := refines_new.applyAll hheights
  exact ⟨t, hall, hrefines.answers⟩

/-- A point overwritten, one deleted and one outside the range, on nodes of three heights. -/
theorem memtable_refines_bottom_cpu : ∃ t,
    new.applyAll [(.put (ascii "cpu") 2 (ascii "v"), 3), (.put (ascii "cpu") 1 (ascii "a"), 1),
      (.put (ascii "mem") 0 (ascii "m"), 12), (.put (ascii "cpu") 2 (ascii "w"), 2),
      (.delete (ascii "cpu") 1, 1)] = some t ∧
    t.rangeQuery (ascii "cpu") 0 5 = some [⟨ascii "cpu", 2, ascii "w", false⟩] ∧ t.count = some 3 := by
  obtain ⟨t, hall, hanswers⟩ := memtable_refines_bottom [(.put (ascii "cpu") 2 (ascii "v"), 3),
    (.put (ascii "cpu") 1 (ascii "a"), 1), (.put (ascii "mem") 0 (ascii "m"), 12),
    (.put (ascii "cpu") 2 (ascii "w"), 2), (.delete (ascii "cpu") 1, 1)] (by decide)
  refine ⟨t, hall, ?_, ?_⟩
  · rw [hanswers.rangeQuery]
    decide +kernel
  · rw [hanswers.count]
    decide +kernel

end SkipTable

end MiniTsdb
