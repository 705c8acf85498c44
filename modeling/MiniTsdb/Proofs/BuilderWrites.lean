import MiniTsdb.Proofs.SSTableRoundTrip
import MiniTsdb.Spec.BuilderWrites

/-! The status of `Finish` is the same whatever the calls on the file do, so it stands for a
complete file only where none of them has failed. -/

namespace MiniTsdb
open Lib

theorem kept_length_le (limit : Option ℕ) (data : Bytes) : (kept limit data).length ≤ data.length := by
  cases limit <;> simp [kept]

theorem kept_eq_of_length {limit : Option ℕ} {data : Bytes}
    (h : (kept limit data).length = data.length) : kept limit data = data := by
  cases limit with
  | none => rfl
  | some n => exact List.take_of_length_le (by simpa [kept] using h)

/-- The limit takes nothing away. -/
def Whole (limit : Option ℕ) (data : Bytes) : Prop := ∀ n, limit = some n → data.length ≤ n

theorem kept_eq_iff {limit : Option ℕ} {data : Bytes} : kept limit data = data ↔ Whole limit data := by
  cases limit <;> simp [kept, Whole]

namespace Outcomes
variable (o : Outcomes)

/-- What is left of the data of consecutive calls. -/
def stream : ℕ → List Bytes → Bytes
  | _, [] => []
  | call, data :: rest => kept (o.taken call) data ++ stream (call + 1) rest

/-- Each of the calls takes all of its data. -/
def AllTaken (call : ℕ) (datas : List Bytes) : Prop :=
  ∀ i data, datas[i]? = some data → Whole (o.taken (call + i)) data

theorem stream_append (call : ℕ) (xs ys : List Bytes) :
    o.stream call (xs ++ ys) = o.stream call xs ++ o.stream (call + xs.length) ys := by
  induction xs generalizing call with
  | nil => rfl
  | cons x xs ih =>
    rw [List.cons_append, stream, stream, ih, List.length_cons, List.append_assoc]
    congr 3
    omega

theorem allTaken_cons {call : ℕ} {data : Bytes} {rest : List Bytes} :
    o.AllTaken call (data :: rest) ↔ Whole (o.taken call) data ∧ o.AllTaken (call + 1) rest := by
  unfold AllTaken
  refine ⟨fun h => ⟨h 0 data rfl, fun i d hi => ?_⟩, fun h i d hi => ?_⟩
  · have hlater := h (i + 1) d hi
    rwa [← Nat.add_assoc, Nat.add_right_comm] at hlater
  · cases i with
    | zero =>
      obtain rfl : data = d := Option.some.inj hi
      exact h.1
    | succ i =>
      have hlater := h.2 i d hi
      rwa [Nat.add_right_comm] at hlater

theorem stream_length_le (call : ℕ) (datas : List Bytes) :
    (o.stream call datas).length ≤ datas.flatten.length := by
  induction datas generalizing call with
  | nil => simp [stream]
  | cons data rest ih =>
    have hfirst := kept_length_le (o.taken call) data
    have hrest := ih (call + 1)
    rw [stream, List.flatten_cons, List.length_append, List.length_append]
    omega

/-- No call makes up for what another one has lost. -/
theorem stream_eq_iff (call : ℕ) (datas : List Bytes) :
    o.stream call datas = datas.flatten ↔ o.AllTaken call datas := by
  induction datas generalizing call with
  | nil => simp [stream, AllTaken]
  | cons data rest ih =>
    rw [allTaken_cons, ← ih, ← kept_eq_iff, stream, List.flatten_cons]
    refine ⟨fun h => ?_, fun h => by rw [h.1, h.2]⟩
    have hlen := congrArg List.length h
    have hfirst := kept_length_le (o.taken call) data
    have hrest := o.stream_length_le (call + 1) rest
    rw [List.length_append, List.length_append] at hlen
    have hdata : kept (o.taken call) data = data := kept_eq_of_length (by omega)
    rw [hdata] at h
    exact ⟨hdata, List.append_cancel_left h⟩

/-- What is in the file in the end. -/
def left (datas : List Bytes) : Bytes := kept o.synced (kept o.flushed (o.stream 0 datas))

def Lossless (datas : List Bytes) : Prop :=
  o.AllTaken 0 datas ∧ Whole o.flushed datas.flatten ∧ Whole o.synced datas.flatten

theorem left_eq_iff (datas : List Bytes) : o.left datas = datas.flatten ↔ o.Lossless datas := by
  unfold left Lossless
  rw [← stream_eq_iff, ← kept_eq_iff, ← kept_eq_iff]
  refine ⟨fun h => ?_, fun ⟨hstream, hflush, hsync⟩ => by rw [hstream, hflush, hsync]⟩
  have hlen := congrArg List.length h
  have hsync := kept_length_le o.synced (kept o.flushed (o.stream 0 datas))
  have hflush := kept_length_le o.flushed (o.stream 0 datas)
  have hstream := o.stream_length_le 0 datas
  have hflushed : kept o.flushed (o.stream 0 datas) = o.stream 0 datas :=
    kept_eq_of_length (by omega)
  have hsynced : kept o.synced (o.stream 0 datas) = o.stream 0 datas :=
    kept_eq_of_length (by rw [hflushed] at hlen hsync; omega)
  rw [hflushed, hsynced] at h
  rw [h] at hflushed hsynced
  exact ⟨h, hflushed, hsynced⟩

end Outcomes

/-- A builder whose calls have left this of their data. -/
def SSTableBuilder.onFile (b : SSTableBuilder) (o : Outcomes) (datas : List Bytes) : FileBuilder :=
  ⟨{ b with file := o.stream 0 datas }, datas.length⟩

namespace FileBuilder
variable (o : Outcomes)

theorem fwrite_onFile (b : SSTableBuilder) (datas : List Bytes) (data : Bytes) :
    (b.onFile o datas).fwrite o data = b.onFile o (datas ++ [data]) := by
  have hstream : o.stream 0 (datas ++ [data]) =
      o.stream 0 datas ++ kept (o.taken datas.length) data := by
    rw [Outcomes.stream_append, Nat.zero_add]
    simp [Outcomes.stream]
  rw [fwrite, SSTableBuilder.onFile, SSTableBuilder.onFile, hstream, List.length_append]
  rfl

theorem flushBlock_onFile (b : SSTableBuilder) (datas : List Bytes) :
    (b.onFile o datas).flushBlock o = b.flushBlock.onFile o
      (datas ++ if b.block_buf.isEmpty then [] else [encodeBlockRecord b.block_buf]) := by
  have hbuf : (b.onFile o datas).builder.block_buf = b.block_buf := rfl
  rw [flushBlock, SSTableBuilder.flushBlock, hbuf]
  split_ifs with hempty
  · rw [List.append_nil]
  · dsimp only
    rw [fwrite_onFile]
    rfl

section
variable {o} {b : SSTableBuilder} {blocks : List (List (TsKey × InternalEntry))}
  {current : List (TsKey × InternalEntry)} (h : Built b blocks current)
include h

theorem flushBlock_blocks : (b.onFile o (blocks.map blockRecord)).flushBlock o =
    b.flushBlock.onFile o ((blocks ++ if current = [] then [] else [current]).map blockRecord) := by
  rw [flushBlock_onFile, h.block_buf, List.map_append]
  by_cases hc : current = []
  · simp [hc, encodeBlock]
  · have hne : ¬ (encodeBlock current).isEmpty = true := by
      rw [List.isEmpty_iff]
      exact encodeBlock_ne_nil hc
    rw [if_neg hne, if_neg hc]
    rfl

theorem add_onFile (hopened : o.opened = true) (e : TsKey × InternalEntry) {bloom : BloomFilter}
    (hbloom : b.bloom.add (encodeKey e.1) = some bloom) :
    (b.onFile o (blocks.map blockRecord)).add o e.1 e.2 =
      some (if asInt32 (encodeBlock (current ++ [e])).length ≥ b.block_size then
        (b.pushed e bloom).flushBlock.onFile o ((blocks ++ [current ++ [e]]).map blockRecord)
      else (b.pushed e bloom).onFile o (blocks.map blockRecord)) := by
  have hpushed := flushBlock_blocks (o := o) (built_pushed h e bloom)
  rw [if_neg (by simp)] at hpushed
  have hadd : (b.onFile o (blocks.map blockRecord)).add o e.1 e.2 =
      some (if asInt32 (b.pushed e bloom).block_buf.length ≥ b.block_size then
        ((b.pushed e bloom).onFile o (blocks.map blockRecord)).flushBlock o
      else (b.pushed e bloom).onFile o (blocks.map blockRecord)) := by
    have hsame : (b.onFile o (blocks.map blockRecord)).builder.bloom = b.bloom := rfl
    rw [add, hopened, hsame, hbloom]
    rfl
  rw [hadd, pushed_block_buf h e, hpushed]

/-- All entries, then the last flush. -/
theorem addAll_onFile (hopened : o.opened = true) {entries : List (TsKey × InternalEntry)}
    {bloom : BloomFilter}
    (hbloom : (entries.map fun e => encodeKey e.1).foldlM BloomFilter.add b.bloom = some bloom) :
    ∃ w b', (b.onFile o (blocks.map blockRecord)).addAll o entries = some w ∧ b'.bloom = bloom ∧
      Built b' (blocks ++ cutBlocks b.block_size current entries) [] ∧
      w.flushBlock o =
        b'.onFile o ((blocks ++ cutBlocks b.block_size current entries).map blockRecord) := by
  induction entries generalizing b blocks current with
  | nil =>
    obtain rfl : b.bloom = bloom := by simpa using hbloom
    exact ⟨_, b.flushBlock, rfl, (flushBlock_bloom b).1, built_flush h, flushBlock_blocks h⟩
  | cons e entries ih =>
    rw [List.map_cons, List.foldlM_cons] at hbloom
    obtain ⟨bloom₁, hone, hrest⟩ := Option.bind_eq_some_iff.mp hbloom
    have hfold : (b.onFile o (blocks.map blockRecord)).addAll o (e :: entries) =
        ((b.onFile o (blocks.map blockRecord)).add o e.1 e.2).bind fun w => w.addAll o entries := rfl
    have hpushed := built_pushed h e bloom₁
    rw [hfold, add_onFile h hopened e hone, cutBlocks]
    split_ifs with hcut
    · have hflush := built_flush hpushed
      rw [if_neg (by simp)] at hflush
      obtain ⟨w, b', hall, hbuilt⟩ := ih hflush ((flushBlock_bloom (b.pushed e bloom₁)).1 ▸ hrest)
      rw [(flushBlock_bloom _).2, List.append_assoc] at hbuilt
      exact ⟨w, b', hall, hbuilt⟩
    · exact ih hpushed hrest

end

theorem addAll_not_opened {o : Outcomes} (h : o.opened = false) (w : FileBuilder)
    (entries : List (TsKey × InternalEntry)) : w.addAll o entries = some w := by
  induction entries generalizing w with
  | nil => rfl
  | cons e entries ih =>
    rw [addAll, List.foldlM_cons, add, h]
    exact ih w

theorem flushBlock_builder_bloom (w : FileBuilder) :
    (w.flushBlock o).builder.bloom = w.builder.bloom := by
  unfold flushBlock
  split_ifs <;> rfl

theorem addAll_eq_none {o : Outcomes} (hopened : o.opened = true) {entries : List (TsKey × InternalEntry)}
    {w : FileBuilder} (hbloom : (entries.map fun e => encodeKey e.1).foldlM BloomFilter.add
      w.builder.bloom = none) : w.addAll o entries = none := by
  induction entries generalizing w with
  | nil => contradiction
  | cons e entries ih =>
    rw [List.map_cons, List.foldlM_cons] at hbloom
    rw [addAll, List.foldlM_cons, add, hopened]
    cases hone : w.builder.bloom.add (encodeKey e.1) with
    | none => rfl
    | some bloom =>
      rw [hone] at hbloom
      dsimp only
      apply ih
      rw [← hbloom]
      split_ifs
      · rw [flushBlock_builder_bloom]
        rfl
      · rfl

end FileBuilder

/-- The data of the `fwrite` calls for blocks and a bloom filter. -/
def fwrites (blocks : List (List (TsKey × InternalEntry))) (bloom : BloomFilter) : List Bytes :=
  blocks.map blockRecord ++ [indexText (indexOf 0 blocks), bloom.encode,
    footerText (blocksText blocks).length
      ((blocksText blocks).length + (indexText (indexOf 0 blocks)).length)]

theorem fwrites_flatten (blocks : List (List (TsKey × InternalEntry))) (bloom : BloomFilter) :
    (fwrites blocks bloom).flatten = fileText blocks bloom := by
  simp [fwrites, fileText, blocksText]

/-- `Finish` returns OK, whatever is left of the data. -/
theorem buildFile_eq {o : Outcomes} (hopened : o.opened = true) (fname : String) (block_size : ℤ)
    {entries : List (TsKey × InternalEntry)} {bloom : BloomFilter}
    (hbloom : (entries.map fun e => encodeKey e.1).foldlM BloomFilter.add (BloomFilter.new 10) =
      some bloom) :
    buildFile o fname block_size entries =
      some (.ok, o.left (fwrites (cutBlocks block_size [] entries) bloom)) := by
  obtain ⟨w, b, hall, rfl, hbuilt, hflush⟩ :=
    FileBuilder.addAll_onFile (o := o) (built_new block_size) hopened hbloom
  change (FileBuilder.new block_size).addAll o entries = some w at hall
  rw [List.nil_append] at hbuilt hflush
  set blocks := cutBlocks block_size [] entries with hblocks
  have hindex : ∀ datas, (b.onFile o datas).builder.indexBuf = indexText (indexOf 0 blocks) := by
    intro datas
    change b.indexBuf = _
    exact indexBuf_eq hbuilt
  have hoffset : ∀ datas, (b.onFile o datas).builder.file_offset = (blocksText blocks).length :=
    fun _ => hbuilt.file_offset
  have hbloom' : ∀ datas, (b.onFile o datas).builder.bloom = b.bloom := fun _ => rfl
  rw [buildFile, hall, Option.map_some, FileBuilder.finish, hopened, hflush]
  dsimp only
  rw [hindex, hoffset, FileBuilder.fwrite_onFile, hbloom', FileBuilder.fwrite_onFile,
    FileBuilder.fwrite_onFile]
  have hdatas : ((blocks.map blockRecord ++ [indexText (indexOf 0 blocks)]) ++ [b.bloom.encode]) ++
      [footerText (blocksText blocks).length
        ((blocksText blocks).length + (indexText (indexOf 0 blocks)).length)] =
      fwrites blocks b.bloom := by
    simp [fwrites]
  rw [← hdatas]
  rfl

/-- What the status stands for: the file is the complete encoding, and a reader that is opened on
it returns every entry. -/
def Complete (block_size : ℤ) (entries : List (TsKey × InternalEntry)) (file : Bytes) : Prop :=
  buildSSTable block_size entries = some file ∧
    (Ascending Prod.fst entries → (∀ e ∈ entries, FitsEntry e) →
      (∀ b ∈ cutBlocks block_size [] entries, (encodeBlock b).length < 2 ^ 31) →
      ∃ r, SSTableReader.open file = some (.ok r) ∧ ∀ e ∈ entries, r.getEntry e.1 = some (some e.2))

theorem complete_of_build {block_size : ℤ} {entries : List (TsKey × InternalEntry)} {file : Bytes}
    (h : buildSSTable block_size entries = some file) : Complete block_size entries file := by
  refine ⟨h, fun hasc hfits hsizes => ?_⟩
  have hcount : entries.length ≤ kMaxBloomKeys := by
    rw [← buildSSTable_isSome_iff block_size, h]
    rfl
  obtain ⟨file', r, hbuild, hopen, hreads⟩ := roundTrips_of_count hasc hfits hsizes hcount
  obtain rfl : file = file' := Option.some.inj (h.symm.trans hbuild)
  exact ⟨r, hopen, hreads.found⟩

/-- `Finish` returns OK only for a complete file exactly if no call on the file that it has opened
loses a byte. -/
theorem finish_complete_iff (o : Outcomes) (fname : String) (block_size : ℤ)
    (entries : List (TsKey × InternalEntry)) :
    (∀ file, buildFile o fname block_size entries = some (.ok, file) →
      Complete block_size entries file) ↔
    (o.opened = true → ∀ bloom, (entries.map fun e => encodeKey e.1).foldlM BloomFilter.add
        (BloomFilter.new 10) = some bloom →
      o.Lossless (fwrites (cutBlocks block_size [] entries) bloom)) := by
  cases hopened : o.opened with
  | false =>
    refine iff_of_true (fun file hbuild => ?_) (by simp)
    rw [buildFile, FileBuilder.addAll_not_opened hopened, Option.map_some, FileBuilder.finish,
      hopened] at hbuild
    simp at hbuild
  | true =>
    refine ⟨fun h _ bloom hbloom => ?_, fun h file hbuild => ?_⟩
    · obtain ⟨hcomplete, -⟩ := h _ (buildFile_eq hopened fname block_size hbloom)
      rw [buildSSTable_eq hbloom, Option.some.injEq, ← fwrites_flatten] at hcomplete
      exact (o.left_eq_iff _).mp hcomplete.symm
    · cases hbloom : (entries.map fun e => encodeKey e.1).foldlM BloomFilter.add (BloomFilter.new 10) with
      | none =>
        have hnone : (FileBuilder.new block_size).addAll o entries = none :=
          FileBuilder.addAll_eq_none hopened hbloom
        rw [buildFile, hnone] at hbuild
        contradiction
      | some bloom =>
        rw [buildFile_eq hopened fname block_size hbloom, (o.left_eq_iff _).mpr (h rfl bloom hbloom),
          fwrites_flatten] at hbuild
        apply complete_of_build
        rw [buildSSTable_eq hbloom, ← (Prod.mk.inj (Option.some.inj hbuild)).2]

/-- On a full disk nothing is written; the status is OK, and the file cannot be opened. -/
theorem full_disk_reported_ok :
    buildFile ⟨true, fun _ => some 0, none, none⟩ "1.sst" 4096 [(⟨[99], 1⟩, ⟨[7], .kValue⟩)] =
      some (.ok, []) ∧
    SSTableReader.open [] = some (.error (.corruption "File too small for footer")) := by
  refine ⟨?_, rfl⟩
  decide +kernel

end MiniTsdb
