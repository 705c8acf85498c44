import MiniTsdb.Proofs.SSTableRoundTrip
import MiniTsdb.Spec.DamagedInputs

/-! What `MakeSSTReader` gets out of an intact file: the entries up to its last sentinel,
`("\xFF", INT64_MAX)`. -/

namespace MiniTsdb
open Lib

theorem sstScanFirst_le (key : TsKey) : sstScanFirst ≤ key := by
  rw [TsKey.le_iff]
  rcases key.measurement.eq_nil_or_concat with hnil | ⟨front, b, hb⟩
  · exact Or.inr ⟨hnil.symm, Int64.minValue_le key.timestamp⟩
  · left
    rw [hb]
    cases front <;> exact List.nil_lt_cons _ _

/-- A scan to the sentinel finds all entries exactly if none is behind it. -/
theorem recordsBetween_all_iff {entries : List (TsKey × InternalEntry)} {last : TsKey} :
    recordsBetween entries sstScanFirst last = (entries.map fun e => toRecord e.1 e.2) ↔
      ∀ e ∈ entries, e.1 ≤ last := by
  have hfilter : recordsBetween entries sstScanFirst last =
      (entries.filter fun e => decide (e.1 ≤ last)).map fun e => toRecord e.1 e.2 := by
    simp [recordsBetween, sstScanFirst_le]
  rw [hfilter]
  refine ⟨fun h => ?_, fun h => ?_⟩
  · have hlen := congrArg List.length h
    rw [List.length_map, List.length_map, List.length_filter_eq_length_iff] at hlen
    exact fun e he => of_decide_eq_true (hlen e he)
  · rw [List.filter_eq_self.mpr fun e he => decide_eq_true (h e he)]

/-- The reader of a compaction returns every entry of a file exactly if no key is behind the
last sentinel. -/
theorem sst_reader_complete_iff {block_size : ℤ} {entries : List (TsKey × InternalEntry)}
    {file : Bytes} (hasc : Ascending Prod.fst entries) (hfits : ∀ e ∈ entries, FitsEntry e)
    (hsizes : ∀ b ∈ cutBlocks block_size [] entries, (encodeBlock b).length < 2 ^ 31)
    (hbuild : buildSSTable block_size entries = some file) :
    makeSSTReader file = some (entries.map fun e => toRecord e.1 e.2) ↔
      ∀ e ∈ entries, e.1 ≤ sstScanLast := by
  have hcount := (buildSSTable_isSome_iff block_size entries).mp (by rw [hbuild]; rfl)
  obtain ⟨file', r, hbuild', hopen, hreads⟩ := roundTrips_of_count hasc hfits hsizes hcount
  obtain rfl := Option.some.inj (hbuild.symm.trans hbuild')
  rw [makeSSTReader, hopen]
  dsimp only
  rw [hreads.scan, Option.some.injEq, recordsBetween_all_iff]

/-- One entry, under a measurement of two bytes from 0xFF on. -/
def behindSentinel : List (TsKey × InternalEntry) := [(⟨[255, 97], 1⟩, ⟨[7], .kValue⟩)]

theorem behindSentinel_built : Ascending Prod.fst behindSentinel ∧
    (∀ e ∈ behindSentinel, FitsEntry e) ∧
    (∀ b ∈ cutBlocks 4096 [] behindSentinel, (encodeBlock b).length < 2 ^ 31) ∧
    ∃ file, buildSSTable 4096 behindSentinel = some file := by
  refine ⟨List.pairwise_singleton _ _, by unfold FitsEntry; decide +kernel, by decide +kernel, ?_⟩
  exact Option.isSome_iff_exists.mp ((buildSSTable_isSome_iff _ _).mpr (by decide))

theorem sst_reader_complete_iff_behind : ∃ file, buildSSTable 4096 behindSentinel = some file ∧
    (makeSSTReader file = some (behindSentinel.map fun e => toRecord e.1 e.2) ↔
      ∀ e ∈ behindSentinel, e.1 ≤ sstScanLast) := by
  obtain ⟨hasc, hfits, hsizes, file, hbuild⟩ := behindSentinel_built
  exact ⟨file, hbuild, sst_reader_complete_iff hasc hfits hsizes hbuild⟩

/-- The entry is built into the file, and the reader returns nothing. -/
theorem behind_sentinel_dropped : Ascending Prod.fst behindSentinel ∧
    (∀ e ∈ behindSentinel, FitsEntry e) ∧
    (∀ b ∈ cutBlocks 4096 [] behindSentinel, (encodeBlock b).length < 2 ^ 31) ∧
    ∃ file, buildSSTable 4096 behindSentinel = some file ∧ makeSSTReader file = some [] ∧
      makeSSTReader file ≠ some (behindSentinel.map fun e => toRecord e.1 e.2) := by
  obtain ⟨hasc, hfits, hsizes, file, hbuild⟩ := behindSentinel_built
  have hread : ((buildSSTable 4096 behindSentinel).bind makeSSTReader) = some [] := by decide +kernel
  rw [hbuild, Option.bind_some] at hread
  refine ⟨hasc, hfits, hsizes, file, hbuild, hread, ?_⟩
  rw [hread]
  decide

end MiniTsdb
