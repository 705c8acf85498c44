import MiniTsdb.Proofs.MemTable
import MiniTsdb.Proofs.Tables

/-! What a flush gets out of a memtable: all that was written, unless a key is below
`TsKey{}`. -/

namespace MiniTsdb
open Lib

/-- The memtable after a list of `Put` and `Delete` calls. -/
def memTableOf (ops : List Operation) : MemTable := ops.foldl MemTable.apply .new

/-- The callback of `IterateEntries` gets each key written, once, in order, with its last
entry; `Count` is the number of its calls, and `Empty` holds where nothing was written. -/
structure HandsOver (ops : List Operation) : Prop where
  entries : ∀ key entry, (key, entry) ∈ (memTableOf ops).iterateEntries ↔ lastIn ops key = some entry
  ascending : Ascending Prod.fst (memTableOf ops).iterateEntries
  count : (memTableOf ops).count = (memTableOf ops).iterateEntries.length
  empty : (memTableOf ops).isEmpty = true ↔ ops = []

theorem getEntry_memTableOf (ops : List Operation) (key : TsKey) :
    (memTableOf ops).getEntry key = lastIn ops key := by
  rw [memTableOf, getEntry_foldl_apply, getEntry_new, Option.or_none]

theorem mem_table_iff_getEntry {m : MemTable} (key : TsKey) (entry : InternalEntry) :
    (key, entry) ∈ m.table ↔ m.getEntry key = some entry := by
  rw [getEntry_eq_lookup]
  exact ⟨m.ascending.lookup_eq_some, mem_of_lookup⟩

theorem mem_table_iff (ops : List Operation) (key : TsKey) (entry : InternalEntry) :
    (key, entry) ∈ (memTableOf ops).table ↔ lastIn ops key = some entry := by
  rw [← getEntry_memTableOf, mem_table_iff_getEntry]

theorem lastIn_isSome {ops : List Operation} {key : TsKey} :
    (lastIn ops key).isSome ↔ ∃ op ∈ ops, op.key = key := by
  simp [lastIn]

theorem iterateEntries_eq {m : MemTable} (h : ∀ e ∈ m.table, TsKey.default ≤ e.1) :
    m.iterateEntries = m.table := by
  unfold MemTable.iterateEntries MemTable.findGreaterOrEqual
  rw [List.dropWhile_eq_self_iff]
  intro hpos hlt
  rw [beq_iff_eq, tsKeyComparator_lt_iff] at hlt
  exact absurd hlt (not_lt.mpr (h _ (List.getElem_mem hpos)))

/-- A memtable hands over what was written to it exactly if no key is below `TsKey{}`. -/
theorem handsOver_iff (ops : List Operation) :
    HandsOver ops ↔ ∀ op ∈ ops, TsKey.default ≤ op.key := by
  refine ⟨fun h op hop => ?_, fun hkeys => ?_⟩
  · -- a key below it is written and not visited
    obtain ⟨entry, hentry⟩ := Option.isSome_iff_exists.mp (lastIn_isSome.mpr ⟨op, hop, rfl⟩)
    have hvisited := h.ascending.lookup_eq_some ((h.entries _ _).mpr hentry)
    rw [lookup_iterateEntries] at hvisited
    by_contra hlow
    rw [if_neg hlow] at hvisited
    contradiction
  · have hall : (memTableOf ops).iterateEntries = (memTableOf ops).table := by
      refine iterateEntries_eq fun e he => ?_
      have hlast := (mem_table_iff ops e.1 e.2).mp he
      obtain ⟨op, hop, hkey⟩ := lastIn_isSome.mp (hlast ▸ rfl : (lastIn ops e.1).isSome)
      exact hkey ▸ hkeys op hop
    refine ⟨fun key entry => ?_, ascending_iterateEntries _, ?_, ?_⟩
    · rw [hall, mem_table_iff]
    · rw [hall]
      rfl
    · change (memTableOf ops).iterateEntries.isEmpty = true ↔ _
      rw [hall, List.isEmpty_iff]
      refine ⟨fun hnil => ?_, fun hnil => hnil ▸ rfl⟩
      -- the key of a first operation would be in the table
      cases ops with
      | nil => rfl
      | cons op ops =>
        obtain ⟨entry, hentry⟩ := Option.isSome_iff_exists.mp
          (lastIn_isSome.mpr ⟨op, List.mem_cons_self (l := ops), rfl⟩)
        rw [← mem_table_iff, hnil] at hentry
        contradiction

/-- An empty measurement before the epoch is counted, and not visited. -/
theorem empty_measurement_dropped :
    ¬ HandsOver [.put [] (-1) (ascii "v")] ∧
      (memTableOf [.put [] (-1) (ascii "v")]).count = 1 ∧
      (memTableOf [.put [] (-1) (ascii "v")]).iterateEntries = [] ∧
      (memTableOf [.put [] (-1) (ascii "v")]).isEmpty = true := by
  refine ⟨fun h => ?_, by decide, by decide, by decide⟩
  have hcount := h.count
  revert hcount
  decide

end MiniTsdb
