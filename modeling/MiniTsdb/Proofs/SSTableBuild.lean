import MiniTsdb.Proofs.Bloom
import MiniTsdb.Proofs.SSTableCodec

/-! What the builder writes: the entries, cut into blocks in order, the index of these
blocks, and a bloom filter of all keys. -/

namespace MiniTsdb
open Lib

/-- The blocks of a list of entries: one ends where its encoding reaches `block_size`. -/
def cutBlocks (block_size : ℤ) : List (TsKey × InternalEntry) → List (TsKey × InternalEntry) →
    List (List (TsKey × InternalEntry))
  | current, [] => if current = [] then [] else [current]
  | current, e :: entries =>
    if asInt32 (encodeBlock (current ++ [e])).length ≥ block_size then
      (current ++ [e]) :: cutBlocks block_size [] entries
    else cutBlocks block_size (current ++ [e]) entries

theorem cutBlocks_flatten (block_size : ℤ) (entries current : List (TsKey × InternalEntry)) :
    (cutBlocks block_size current entries).flatten = current ++ entries := by
  induction entries generalizing current with
  | nil =>
    rw [cutBlocks]
    split_ifs with h
    · rw [h]; rfl
    · simp
  | cons e entries ih =>
    rw [cutBlocks]
    split_ifs
    · rw [List.flatten_cons, ih]; simp
    · rw [ih]; simp

theorem cutBlocks_ne_nil (block_size : ℤ) (entries current : List (TsKey × InternalEntry)) :
    ∀ b ∈ cutBlocks block_size current entries, b ≠ [] := by
  induction entries generalizing current with
  | nil =>
    intro b hb
    rw [cutBlocks] at hb
    split_ifs at hb with h
    · contradiction
    · rw [List.mem_singleton.mp hb]
      exact h
  | cons e entries ih =>
    intro b hb
    rw [cutBlocks] at hb
    split_ifs at hb
    · rcases List.mem_cons.mp hb with rfl | hb
      · simp
      · exact ih [] b hb
    · exact ih _ b hb

def lastKey (block : List (TsKey × InternalEntry)) : TsKey :=
  (block.getLast?.map Prod.fst).getD .default

def blockRecord (block : List (TsKey × InternalEntry)) : Bytes := encodeBlockRecord (encodeBlock block)

/-- Last key, offset and size of each block, the first one at `offset`. -/
def indexOf (offset : ℕ) : List (List (TsKey × InternalEntry)) → List (TsKey × ℕ × ℕ)
  | [] => []
  | b :: blocks => (lastKey b, offset % 2 ^ 64, (blockRecord b).length % 2 ^ 32) ::
      indexOf (offset + (blockRecord b).length) blocks

def blocksText (blocks : List (List (TsKey × InternalEntry))) : Bytes :=
  (blocks.map blockRecord).flatten

theorem blocksText_append (xs ys : List (List (TsKey × InternalEntry))) :
    blocksText (xs ++ ys) = blocksText xs ++ blocksText ys := by
  simp [blocksText]

theorem indexOf_append (xs ys : List (List (TsKey × InternalEntry))) (offset : ℕ) :
    indexOf offset (xs ++ ys) =
      indexOf offset xs ++ indexOf (offset + (blocksText xs).length) ys := by
  induction xs generalizing offset with
  | nil => rfl
  | cons b xs ih =>
    have hlen : (blocksText (b :: xs)).length = (blockRecord b).length + (blocksText xs).length := by
      simp [blocksText]
    rw [List.cons_append, indexOf, ih, hlen, ← Nat.add_assoc]
    rfl

/-- The builder after the blocks `blocks`, with `current` in its buffer. -/
structure Built (b : SSTableBuilder) (blocks : List (List (TsKey × InternalEntry)))
    (current : List (TsKey × InternalEntry)) : Prop where
  file : b.file = blocksText blocks
  file_offset : b.file_offset = (blocksText blocks).length
  block_buf : b.block_buf = encodeBlock current
  last_key : current ≠ [] → b.last_block_key = lastKey current
  last_keys : b.block_last_keys = (indexOf 0 blocks).map fun e => e.1
  offsets : b.block_offsets = (indexOf 0 blocks).map fun e => e.2.1
  sizes : b.block_sizes = (indexOf 0 blocks).map fun e => e.2.2

theorem built_new (block_size : ℤ) : Built (SSTableBuilder.new block_size) [] [] :=
  ⟨rfl, rfl, rfl, fun h => absurd rfl h, rfl, rfl, rfl⟩

theorem built_flush {b : SSTableBuilder} {blocks : List (List (TsKey × InternalEntry))}
    {current : List (TsKey × InternalEntry)} (h : Built b blocks current) :
    Built b.flushBlock (blocks ++ if current = [] then [] else [current]) [] := by
  unfold SSTableBuilder.flushBlock
  by_cases hc : current = []
  · have hbuf : b.block_buf.isEmpty = true := by rw [h.block_buf, hc]; rfl
    rw [if_pos hbuf, if_pos hc, List.append_nil]
    exact ⟨h.file, h.file_offset, by rw [h.block_buf, hc], fun hn => absurd rfl hn, h.last_keys,
      h.offsets, h.sizes⟩
  · have hbuf : ¬ b.block_buf.isEmpty = true := by
      rw [h.block_buf, List.isEmpty_iff]
      exact encodeBlock_ne_nil hc
    have hrecord : encodeBlockRecord b.block_buf = blockRecord current := by
      rw [h.block_buf]; rfl
    have htext : blocksText (blocks ++ [current]) = blocksText blocks ++ blockRecord current := by
      rw [blocksText_append]
      simp [blocksText]
    have hindex : indexOf 0 (blocks ++ [current]) = indexOf 0 blocks ++
        [(lastKey current, (blocksText blocks).length % 2 ^ 64,
          (blockRecord current).length % 2 ^ 32)] := by
      rw [indexOf_append, Nat.zero_add]
      rfl
    rw [if_neg hbuf, if_neg hc]
    refine ⟨?_, ?_, rfl, fun hn => absurd rfl hn, ?_, ?_, ?_⟩
    · rw [htext, ← h.file, ← hrecord]
    · rw [htext, List.length_append, ← h.file_offset, ← hrecord]
    · rw [hindex, List.map_append, ← h.last_keys, ← h.last_key hc]; rfl
    · rw [hindex, List.map_append, ← h.offsets, ← h.file_offset]; rfl
    · rw [hindex, List.map_append, ← h.sizes, ← hrecord]; rfl

theorem flushBlock_bloom (b : SSTableBuilder) :
    b.flushBlock.bloom = b.bloom ∧ b.flushBlock.block_size = b.block_size := by
  unfold SSTableBuilder.flushBlock
  split_ifs <;> exact ⟨rfl, rfl⟩

def SSTableBuilder.pushed (b : SSTableBuilder) (e : TsKey × InternalEntry) (bloom : BloomFilter) :
    SSTableBuilder :=
  { b with
    block_buf := b.block_buf ++ encodeEntry e.1 e.2
    bloom := bloom
    last_block_key := e.1
    num_entries := b.num_entries + 1 }

section
variable {b : SSTableBuilder} {blocks : List (List (TsKey × InternalEntry))}
  {current : List (TsKey × InternalEntry)} (h : Built b blocks current) (e : TsKey × InternalEntry)
include h

theorem pushed_block_buf (bloom : BloomFilter) :
    (b.pushed e bloom).block_buf = encodeBlock (current ++ [e]) := by
  change b.block_buf ++ encodeEntry e.1 e.2 = _
  rw [h.block_buf, encodeBlock_append]
  simp [encodeBlock]

theorem built_pushed (bloom : BloomFilter) : Built (b.pushed e bloom) blocks (current ++ [e]) :=
  ⟨h.file, h.file_offset, pushed_block_buf h e bloom, fun _ => by simp [SSTableBuilder.pushed, lastKey],
    h.last_keys, h.offsets, h.sizes⟩

theorem add_built {bloom : BloomFilter} (hbloom : b.bloom.add (encodeKey e.1) = some bloom) :
    ∃ b', b.add e.1 e.2 = some b' ∧ b'.bloom = bloom ∧ b'.block_size = b.block_size ∧
      if asInt32 (encodeBlock (current ++ [e])).length ≥ b.block_size then
        Built b' (blocks ++ [current ++ [e]]) []
      else Built b' blocks (current ++ [e]) := by
  have hadd : b.add e.1 e.2 = some (if asInt32 (b.pushed e bloom).block_buf.length ≥ b.block_size
      then (b.pushed e bloom).flushBlock else b.pushed e bloom) := by
    rw [SSTableBuilder.add, hbloom]
    rfl
  rw [pushed_block_buf h e] at hadd
  refine ⟨_, hadd, ?_, ?_, ?_⟩
  · split_ifs
    · exact (flushBlock_bloom (b.pushed e bloom)).1
    · rfl
  · split_ifs
    · exact (flushBlock_bloom (b.pushed e bloom)).2
    · rfl
  · split_ifs
    · have hflush := built_flush (built_pushed h e bloom)
      rw [if_neg (by simp)] at hflush
      exact hflush
    · exact built_pushed h e bloom

end

theorem addAll_built (entries : List (TsKey × InternalEntry)) {b : SSTableBuilder}
    {blocks : List (List (TsKey × InternalEntry))} {current : List (TsKey × InternalEntry)}
    (h : Built b blocks current) {bloom : BloomFilter}
    (hbloom : (entries.map fun e => encodeKey e.1).foldlM BloomFilter.add b.bloom = some bloom) :
    ∃ b', b.addAll entries = some b' ∧ b'.flushBlock.bloom = bloom ∧
      Built b'.flushBlock (blocks ++ cutBlocks b.block_size current entries) [] := by
  induction entries generalizing b blocks current with
  | nil =>
    obtain rfl : b.bloom = bloom := by simpa using hbloom
    exact ⟨b, rfl, (flushBlock_bloom b).1, built_flush h⟩
  | cons e entries ih =>
    rw [List.map_cons, List.foldlM_cons] at hbloom
    obtain ⟨bloom₁, hone, hrest⟩ := Option.bind_eq_some_iff.mp hbloom
    obtain ⟨b₁, hadd, hb₁, hsize, hbuilt⟩ := add_built h e hone
    have hfold : b.addAll (e :: entries) = b₁.addAll entries := by
      rw [SSTableBuilder.addAll, List.foldlM_cons, hadd]
      rfl
    rw [hfold, cutBlocks]
    split_ifs at hbuilt ⊢ with hcut
    · obtain ⟨b', hall, hbloom', hbuilt'⟩ := ih hbuilt (hb₁ ▸ hrest)
      rw [List.append_assoc, hsize] at hbuilt'
      exact ⟨b', hall, hbloom', hbuilt'⟩
    · obtain ⟨b', hall, hbloom', hbuilt'⟩ := ih hbuilt (hb₁ ▸ hrest)
      rw [hsize] at hbuilt'
      exact ⟨b', hall, hbloom', hbuilt'⟩

theorem addAll_eq_none (entries : List (TsKey × InternalEntry)) {b : SSTableBuilder}
    (hbloom : (entries.map fun e => encodeKey e.1).foldlM BloomFilter.add b.bloom = none) :
    b.addAll entries = none := by
  induction entries generalizing b with
  | nil => contradiction
  | cons e entries ih =>
    rw [List.map_cons, List.foldlM_cons] at hbloom
    rw [SSTableBuilder.addAll, List.foldlM_cons]
    cases hone : b.bloom.add (encodeKey e.1) with
    | none =>
      rw [SSTableBuilder.add, hone]
      rfl
    | some bloom =>
      rw [hone] at hbloom
      cases hadd : b.add e.1 e.2 with
      | none => rfl
      | some b₁ =>
        have hb₁ : b₁.bloom = bloom := by
          rw [SSTableBuilder.add, hone] at hadd
          obtain rfl := Option.some.inj hadd
          dsimp only
          split_ifs
          · exact (flushBlock_bloom _).1
          · rfl
        exact ih (hb₁ ▸ hbloom)

def indexText (index : List (TsKey × ℕ × ℕ)) : Bytes :=
  encodeVarint (index.length % 2 ^ 32) ++
    (index.map fun e => encodeIndexEntry e.1 e.2.1 e.2.2).flatten

def footerText (index_offset bloom_offset : ℕ) : Bytes :=
  encodeFixed64 index_offset ++ (encodeFixed64 bloom_offset ++ encodeFixed64 kSSTableMagic)

def fileText (blocks : List (List (TsKey × InternalEntry))) (bloom : BloomFilter) : Bytes :=
  blocksText blocks ++ (indexText (indexOf 0 blocks) ++ (bloom.encode ++
    footerText (blocksText blocks).length
      ((blocksText blocks).length + (indexText (indexOf 0 blocks)).length)))

theorem zip_map_parts {α β γ δ : Type} (xs : List α) (f : α → β) (g : α → γ) (h : α → δ) :
    (xs.map f).zip ((xs.map g).zip (xs.map h)) = xs.map fun x => (f x, g x, h x) := by
  induction xs with
  | nil => rfl
  | cons x xs ih => rw [List.map_cons, List.map_cons, List.map_cons, List.zip_cons_cons,
      List.zip_cons_cons, ih]; rfl

theorem indexBuf_eq {b : SSTableBuilder} {blocks : List (List (TsKey × InternalEntry))}
    (h : Built b blocks []) : b.indexBuf = indexText (indexOf 0 blocks) := by
  rw [SSTableBuilder.indexBuf, h.last_keys, h.offsets, h.sizes, zip_map_parts, List.map_map,
    List.length_map]
  rfl

theorem finish_eq {b : SSTableBuilder} {blocks : List (List (TsKey × InternalEntry))}
    (h : Built b.flushBlock blocks []) : b.finish = fileText blocks b.flushBlock.bloom := by
  unfold SSTableBuilder.finish
  dsimp only
  rw [indexBuf_eq h, h.file, h.file_offset]
  rfl

theorem buildSSTable_eq {block_size : ℤ} {entries : List (TsKey × InternalEntry)}
    {bloom : BloomFilter} (hbloom : (entries.map fun e => encodeKey e.1).foldlM BloomFilter.add
      (BloomFilter.new 10) = some bloom) :
    buildSSTable block_size entries = some (fileText (cutBlocks block_size [] entries) bloom) := by
  obtain ⟨b, hall, hb, hbuilt⟩ := addAll_built entries (built_new block_size) hbloom
  rw [buildSSTable, hall, Option.map_some, finish_eq hbuilt, hb]
  rfl

end MiniTsdb
