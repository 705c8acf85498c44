import MiniTsdb.Proofs.BlockCache
import MiniTsdb.Proofs.SSTableRoundTrip
import MiniTsdb.Spec.RandomAccess

/-! Reads that are cut short, interrupted or failing. What was read is what the file has; a
failing read hides a block from one call, and from no later one. -/

namespace MiniTsdb
open Lib

variable {file fname : Bytes} {offset n : ℕ}

def Pread.isFailed : Pread → Bool
  | .failed _ => true
  | _ => false

theorem fill_length {out bytes : Bytes} {done : ℕ} (h : done + bytes.length ≤ out.length) :
    (fill out bytes done).length = out.length := by
  simp only [fill, List.length_append, List.length_take, List.length_drop]
  omega

theorem slice_add (s : Bytes) (pos m k : ℕ) : slice s pos m ++ slice s (pos + m) k = slice s pos (m + k) := by
  rw [slice, slice, slice, ← List.drop_drop, List.take_add]

theorem take_fill {out : Bytes} {done k : ℕ} (hread : out.take done = slice file offset done)
    (hk : offset + done + k ≤ file.length) :
    (fill out (slice file (offset + done) k) done).take (done + k) = slice file offset (done + k) := by
  have hlength : (slice file (offset + done) k).length = k := slice_length hk
  have hfront : (slice file offset done ++ slice file (offset + done) k).length = done + k := by
    rw [List.length_append, hlength, slice_length (by omega)]
  rw [fill, hread, ← List.append_assoc, List.take_append_of_le_length hfront.ge, ← hfront, List.take_length,
    hfront, slice_add]

/-- What a `ReadAt` that has returned says about the file. -/
structure ReadsTo (file : Bytes) (offset n : ℕ) (answers : List Pread) (r : Except Status Bytes)
    (left : List Pread) : Prop where
  left : left <:+ answers
  ok : ∀ out, r = .ok out → out = slice file offset n ∧ (n = 0 ∨ offset + n ≤ file.length)
  error : ∀ status, r = .error status → (∃ a ∈ answers, a.isFailed = true) ∨ file.length < offset + n

theorem ReadsTo.cons {answers left : List Pread} {r : Except Status Bytes} (h : ReadsTo file offset n answers r left)
    (answer : Pread) : ReadsTo file offset n (answer :: answers) r left :=
  ⟨h.left.trans (List.suffix_cons _ _), h.ok, fun status hr => (h.error status hr).imp_left
    fun ⟨a, ha, hfailed⟩ => ⟨a, List.mem_cons_of_mem _ ha, hfailed⟩⟩

theorem readAtLoop_spec {answers left : List Pread} {out : Bytes} {done : ℕ} {r : Except Status Bytes}
    (hlength : out.length = n) (hdone : done ≤ n) (hread : out.take done = slice file offset done)
    (hin : done = 0 ∨ offset + done ≤ file.length)
    (h : readAtLoop fname file offset n answers out done = some (r, left)) :
    ReadsTo file offset n answers r left := by
  induction answers generalizing out done with
  | nil =>
    unfold readAtLoop at h
    split_ifs at h with hmore
    obtain ⟨rfl, rfl⟩ := Prod.mk.inj (Option.some.inj h)
    obtain rfl : done = n := by omega
    rw [← hlength, List.take_length, hlength] at hread
    exact ⟨List.suffix_refl _, fun out hout => ⟨(Except.ok.inj hout) ▸ hread, hin⟩, fun _ hr => by contradiction⟩
  | cons answer answers ih =>
    unfold readAtLoop at h
    split_ifs at h with hmore hhonest
    · cases answer with
      | interrupted => exact (ih hlength hdone hread hin h).cons _
      | failed message =>
        obtain ⟨rfl, rfl⟩ := Prod.mk.inj (Option.some.inj h)
        exact ⟨List.suffix_cons _ _, fun _ hr => by contradiction,
          fun _ _ => Or.inl ⟨_, List.mem_cons_self, rfl⟩⟩
      | read bytes_read =>
        cases bytes_read with
        | zero =>
          obtain ⟨rfl, rfl⟩ := Prod.mk.inj (Option.some.inj h)
          have hend : file.length ≤ offset + done := by simpa [Pread.honest] using hhonest
          exact ⟨List.suffix_cons _ _, fun _ hr => by contradiction, fun _ _ => Or.inr (by omega)⟩
        | succ k =>
          obtain ⟨hchunk, hfile⟩ : k + 1 ≤ min (n - done) (2 ^ 63 - 1) ∧
              offset + done + (k + 1) ≤ file.length := by
            simpa [Pread.honest] using hhonest
          have hk : (slice file (offset + done) (k + 1)).length = k + 1 := slice_length hfile
          have hroom : done + (k + 1) ≤ n := by omega
          have hfilled : (fill out (slice file (offset + done) (k + 1)) done).length = out.length := by
            apply fill_length
            rw [hk, hlength]
            exact hroom
          exact (ih (hfilled.trans hlength) hroom (take_fill hread hfile)
            (Or.inr (by omega)) h).cons _
    · obtain ⟨rfl, rfl⟩ := Prod.mk.inj (Option.some.inj h)
      obtain rfl : done = n := by omega
      rw [← hlength, List.take_length, hlength] at hread
      exact ⟨List.suffix_refl _, fun out hout => ⟨(Except.ok.inj hout) ▸ hread, hin⟩, fun _ hr => by contradiction⟩

/-- `ReadAt` returns the bytes of the file, or an error where `pread` failed or the file is too
short. -/
theorem readAtFrom_spec {answers left : List Pread} {r : Except Status Bytes}
    (h : readAtFrom fname file offset n answers = some (r, left)) : ReadsTo file offset n answers r left := by
  refine readAtLoop_spec (List.length_replicate ..) (Nat.zero_le _) ?_ (Or.inl rfl) h
  simp [slice]

/-- The answers are such as `pread` may give to the loop, which has read `done` bytes. -/
def HonestTo (file : Bytes) (offset n : ℕ) : ℕ → List Pread → Prop
  | _, [] => True
  | done, answer :: answers => done < n →
    answer.honest file (offset + done) (min (n - done) (2 ^ 63 - 1)) = true ∧
      ∀ k, (answer = .interrupted ∧ k = 0 ∨ answer = .read k ∧ 0 < k) →
        HonestTo file offset n (done + k) answers

/-- The loop ends, unless `pread` is interrupted for ever. -/
theorem readAtLoop_returns {answers : List Pread} {out : Bytes} {done : ℕ}
    (h : HonestTo file offset n done answers)
    (hmany : n - done ≤ answers.countP fun a => a != .interrupted) :
    (readAtLoop fname file offset n answers out done).isSome := by
  induction answers generalizing out done with
  | nil =>
    rw [readAtLoop, if_neg (by rw [List.countP_nil] at hmany; omega)]
    rfl
  | cons answer answers ih =>
    unfold readAtLoop
    split_ifs with hmore hhonest
    · obtain ⟨-, hnext⟩ := h hmore
      cases answer with
      | interrupted =>
        refine ih (hnext 0 (Or.inl ⟨rfl, rfl⟩)) ?_
        rwa [List.countP_cons_of_neg (by simp)] at hmany
      | failed message => rfl
      | read bytes_read =>
        cases bytes_read with
        | zero => rfl
        | succ k =>
          refine ih (hnext (k + 1) (Or.inr ⟨rfl, Nat.succ_pos k⟩)) ?_
          rw [List.countP_cons_of_pos (by simp)] at hmany
          omega
    · exact absurd (h hmore).1 hhonest
    · rfl

/-- A block is read once as many answers as it has bytes were no interruption. -/
theorem readBlockFrom_returns {size : ℕ} {s : Reads} (h : HonestTo file offset size 0 s.answers)
    (hmany : size ≤ s.answers.countP fun a => a != .interrupted) :
    (readBlockFrom fname file offset size s).isSome := by
  have hreturns : (readAtFrom fname file offset size s.answers).isSome := readAtLoop_returns h hmany
  obtain ⟨⟨r, left⟩, hread⟩ := Option.isSome_iff_exists.mp hreturns
  unfold readBlockFrom
  split_ifs with hsize
  · rfl
  · split
    · rfl
    · rw [hread]
      cases r with
      | error status => rfl
      | ok raw =>
        dsimp only
        split_ifs <;> rfl

def Unfailing (answers : List Pread) : Prop := ∀ a ∈ answers, a.isFailed = false

theorem Unfailing.suffix {answers left : List Pread} (h : Unfailing answers) (hleft : left <:+ answers) :
    Unfailing left := fun a ha => h a (hleft.subset ha)

/-- What a read leaves behind: verified blocks in the cache, and the true value unless `pread`
failed meanwhile. -/
structure Served {α : Type} (files : List TableFile) (s s' : Reads) (value truth : α) : Prop where
  left : s'.answers <:+ s.answers
  clean : s'.cache.Each (IsBlock files)
  exact : Unfailing s.answers → value = truth

section
variable {files : List TableFile} (hnames : (files.map TableFile.fname).Nodup) {f : TableFile}
  (hf : f ∈ files) {s s' : Reads}

include hnames hf

theorem readBlockFrom_spec (hc : s.cache.Each (IsBlock files)) {e : IndexEntry} (he : e ∈ f.reader.index)
    {block : Bytes} (h : readBlockFrom f.fname f.reader.file e.offset e.size s = some (block, s')) :
    Served files s s' block (readBlock f.reader.file e.offset e.size) ∧
      (block = readBlock f.reader.file e.offset e.size ∨ block = []) := by
  have hblock := isBlock_readBlock hnames hf he
  obtain ⟨hkeep, hvalue⟩ := hc.get (cacheKey f.fname e.offset)
  rw [readBlockFrom] at h
  by_cases hsize : e.size < 4
  · rw [if_pos hsize] at h
    obtain ⟨rfl, rfl⟩ := Prod.mk.inj (Option.some.inj h)
    have hempty : readBlock f.reader.file e.offset e.size = [] := by rw [readBlock, if_pos (Or.inl hsize)]
    exact ⟨⟨List.suffix_refl _, hc, fun _ => hempty.symm⟩, Or.inr rfl⟩
  · rw [if_neg hsize] at h
    cases hget : s.cache.get (cacheKey f.fname e.offset) with
    | mk found c =>
      rw [hget] at h hkeep hvalue
      cases found with
      | some cached =>
        obtain ⟨rfl, rfl⟩ := Prod.mk.inj (Option.some.inj h)
        have htrue := hvalue cached rfl f hf e he rfl
        exact ⟨⟨List.suffix_refl _, hkeep, fun _ => htrue⟩, Or.inl htrue⟩
      | none =>
        dsimp only at h
        cases hread : readAtFrom f.fname f.reader.file e.offset e.size s.answers with
        | none => rw [hread] at h; contradiction
        | some result =>
          obtain ⟨r, left⟩ := result
          have hspec := readAtFrom_spec hread
          rw [hread] at h
          cases r with
          | error status =>
            obtain ⟨rfl, rfl⟩ := Prod.mk.inj (Option.some.inj h)
            refine ⟨⟨hspec.left, hkeep, fun hsound => ?_⟩, Or.inr rfl⟩
            rcases hspec.error status rfl with ⟨a, ha, hfailed⟩ | hshort
            · rw [hsound a ha] at hfailed
              contradiction
            · rw [readBlock, if_pos (Or.inr hshort)]
          | ok raw =>
            obtain ⟨hraw, hin⟩ := hspec.ok raw rfl
            have hlong : ¬ f.reader.file.length < e.offset + e.size := by omega
            rw [readBlock, if_neg (not_or.mpr ⟨hsize, hlong⟩), ← hraw] at hblock ⊢
            dsimp only at h hblock ⊢
            split_ifs at h hblock ⊢ with hcrc
            · obtain ⟨rfl, rfl⟩ := Prod.mk.inj (Option.some.inj h)
              exact ⟨⟨hspec.left, hkeep.put hblock, fun _ => rfl⟩, Or.inl rfl⟩
            · obtain ⟨rfl, rfl⟩ := Prod.mk.inj (Option.some.inj h)
              exact ⟨⟨hspec.left, hkeep, fun _ => rfl⟩, Or.inl rfl⟩

theorem getEntryFrom_spec (hc : s.cache.Each (IsBlock files)) {key : TsKey} {found : Option (Option InternalEntry)}
    (h : f.reader.getEntryFrom f.fname key s = some (found, s')) :
    Served files s s' found (f.reader.getEntry key) ∧ (found = f.reader.getEntry key ∨ found = some none) := by
  have hsame : ∀ {t : Option (Option InternalEntry)}, some (t, s) = some (found, s') →
      Served files s s' found t ∧ (found = t ∨ found = some none) := by
    intro t ht
    obtain ⟨rfl, rfl⟩ := Prod.mk.inj (Option.some.inj ht)
    exact ⟨⟨List.suffix_refl _, hc, fun _ => rfl⟩, Or.inl rfl⟩
  unfold SSTableReader.getEntryFrom at h
  unfold SSTableReader.getEntry
  split_ifs at h ⊢
  · exact hsame h
  · cases hmay : f.reader.bloom.mayContain (encodeKey key) with
    | none => rw [hmay] at h; exact hsame h
    | some may =>
      rw [hmay] at h
      cases may with
      | false => exact hsame h
      | true =>
        cases hfind : f.reader.lowerBound key with
        | none => rw [hfind] at h; exact hsame h
        | some e =>
          rw [hfind] at h
          have he : e ∈ f.reader.index := List.mem_of_find?_eq_some hfind
          dsimp only at h ⊢
          cases hread : readBlockFrom f.fname f.reader.file e.offset e.size s with
          | none => rw [hread] at h; contradiction
          | some result =>
            obtain ⟨block, s₁⟩ := result
            obtain ⟨hserved, hblock⟩ := readBlockFrom_spec hnames hf hc he hread
            rw [hread] at h
            obtain ⟨rfl, rfl⟩ := Prod.mk.inj (Option.some.inj h)
            refine ⟨⟨hserved.left, hserved.clean, fun hsound => by rw [hserved.exact hsound]⟩, ?_⟩
            rcases hblock with rfl | rfl
            · exact Or.inl rfl
            · exact Or.inr rfl

/-- A scan that misses blocks misses their records, and keeps the order of the others. -/
theorem scanIndexLoopFrom_spec (hc : s.cache.Each (IsBlock files)) {first last : TsKey} {index : List IndexEntry}
    (hindex : ∀ e ∈ index, e ∈ f.reader.index) {out : List Record}
    (h : scanIndexLoopFrom f.fname f.reader.file first last index s = some (out, s')) :
    Served files s s' out (scanIndexLoop f.reader.file first last index) ∧
      ∀ blocks, Indexes f.reader.file index blocks → Ascending Prod.fst blocks.flatten →
        (∀ e ∈ blocks.flatten, FitsEntry e) → out.Sublist (recordsBetween blocks.flatten first last) := by
  induction index generalizing s s' out with
  | nil =>
    obtain ⟨rfl, rfl⟩ := Prod.mk.inj (Option.some.inj h)
    exact ⟨⟨List.suffix_refl _, hc, fun _ => rfl⟩, fun _ _ _ _ => List.nil_sublist _⟩
  | cons e index ih =>
    have hrest : ∀ e' ∈ index, e' ∈ f.reader.index := fun e' he' => hindex e' (List.mem_cons_of_mem e he')
    rw [scanIndexLoopFrom] at h
    rw [scanIndexLoop]
    split_ifs at h ⊢ with hbefore
    · obtain ⟨hserved, hsub⟩ := ih hc hrest h
      refine ⟨hserved, fun blocks hblocks hasc hfits => ?_⟩
      cases hblocks with
      | cons hhead htail =>
        rw [List.flatten_cons] at hasc hfits ⊢
        rw [recordsBetween_append]
        exact (hsub _ htail (ascending_append.mp hasc).2.1 fun e' he' =>
          hfits e' (List.mem_append_right _ he')).trans (List.sublist_append_right _ _)
    · cases hread : readBlockFrom f.fname f.reader.file e.offset e.size s with
      | none => rw [hread] at h; contradiction
      | some result =>
        obtain ⟨block_data, s₁⟩ := result
        obtain ⟨hserved, hblock⟩ := readBlockFrom_spec hnames hf hc (hindex e List.mem_cons_self) hread
        rw [hread] at h
        dsimp only at h ⊢
        -- the records of the block are wanted ones, or none
        have hwanted : ∀ block, readBlock f.reader.file e.offset e.size = encodeBlock block →
            Ascending Prod.fst block → (∀ e ∈ block, FitsEntry e) →
            (scanBlockLoop block_data first last block_data.length 0).1.Sublist (recordsBetween block first last) := by
          intro block hencoded hasc hfits
          rcases hblock with rfl | rfl
          · obtain ⟨hrecords, -⟩ := scanBlockLoop_encode first last block hasc hfits (List.drop_zero ..)
              (length_le_encodeBlock block)
            rw [hencoded, hrecords]
          · exact List.nil_sublist _
        by_cases hstop : (scanBlockLoop block_data first last block_data.length 0).2 = true
        · rw [if_pos hstop] at h
          obtain ⟨rfl, rfl⟩ := Prod.mk.inj (Option.some.inj h)
          refine ⟨⟨hserved.left, hserved.clean, fun hsound => ?_⟩, fun blocks hblocks hasc hfits => ?_⟩
          · rw [← hserved.exact hsound, if_pos hstop]
          · cases hblocks with
            | cons hhead htail =>
              rw [List.flatten_cons] at hasc hfits ⊢
              rw [recordsBetween_append]
              exact (hwanted _ hhead.2 (ascending_append.mp hasc).1 fun e' he' =>
                hfits e' (List.mem_append_left _ he')).trans (List.sublist_append_left _ _)
        · rw [if_neg hstop] at h
          cases hmore : scanIndexLoopFrom f.fname f.reader.file first last index s₁ with
          | none => rw [hmore] at h; contradiction
          | some result =>
            obtain ⟨more, s₂⟩ := result
            obtain ⟨hnext, hsub⟩ := ih hserved.clean hrest hmore
            rw [hmore] at h
            obtain ⟨rfl, rfl⟩ := Prod.mk.inj (Option.some.inj h)
            refine ⟨⟨hnext.left.trans hserved.left, hnext.clean, fun hsound => ?_⟩,
              fun blocks hblocks hasc hfits => ?_⟩
            · rw [← hserved.exact hsound, if_neg hstop, hnext.exact (hsound.suffix hserved.left)]
            · cases hblocks with
              | cons hhead htail =>
                rw [List.flatten_cons] at hasc hfits ⊢
                rw [recordsBetween_append]
                exact (hwanted _ hhead.2 (ascending_append.mp hasc).1 fun e' he' =>
                  hfits e' (List.mem_append_left _ he')).append (hsub _ htail (ascending_append.mp hasc).2.1
                    fun e' he' => hfits e' (List.mem_append_right _ he'))

/-- A file as the builder lays it out: ascending entries in blocks. -/
def TableFile.Intact (f : TableFile) : Prop :=
  ∃ blocks, Indexes f.reader.file f.reader.index blocks ∧ Ascending Prod.fst blocks.flatten ∧
    ∀ e ∈ blocks.flatten, FitsEntry e

/-- What failing reads can make of an answer: an entry is not found, records are missing. -/
def ReaderAnswer.Weakens (truth : ReaderAnswer) : ReaderAnswer → Prop
  | .entry found => ∃ t, truth = .entry t ∧ (found = t ∨ found = some none)
  | .records out => ∃ all, truth = .records all ∧ out.Sublist all

theorem answerFrom_spec (hc : s.cache.Each (IsBlock files)) (hintact : f.Intact) {call : ReaderCall}
    {answer : ReaderAnswer} (h : f.reader.answerFrom f.fname s call = some (answer, s')) :
    Served files s s' answer (f.reader.answer call) ∧ (f.reader.answer call).Weakens answer := by
  cases call with
  | getEntry key =>
    obtain ⟨⟨found, s₁⟩, hget, heq⟩ := Option.map_eq_some_iff.mp h
    obtain ⟨rfl, rfl⟩ := Prod.mk.inj heq
    obtain ⟨hserved, hfound⟩ := getEntryFrom_spec hnames hf hc hget
    exact ⟨⟨hserved.left, hserved.clean, fun hsound => congrArg _ (hserved.exact hsound)⟩, _, rfl, hfound⟩
  | rangeScanEntries first last =>
    obtain ⟨⟨out, s₁⟩, hscan, heq⟩ := Option.map_eq_some_iff.mp h
    obtain ⟨rfl, rfl⟩ := Prod.mk.inj heq
    obtain ⟨hserved, hsub⟩ := scanIndexLoopFrom_spec hnames hf hc (fun _ he => he) hscan
    obtain ⟨blocks, hblocks, hasc, hfits⟩ := hintact
    refine ⟨⟨hserved.left, hserved.clean, fun hsound => congrArg _ (hserved.exact hsound)⟩, _, rfl, ?_⟩
    rw [SSTableReader.rangeScanEntries, scan_indexes hblocks hasc hfits]
    exact hsub blocks hblocks hasc hfits

omit hnames hf in
theorem answersFrom_cons {call : ReaderCall} {calls : List (TableFile × ReaderCall)} {x : ReaderAnswer × Reads}
    {outs : List ReaderAnswer} (h : f.reader.answerFrom f.fname s call = some x)
    (hrest : answersFrom calls x.2 = some (outs, s')) :
    answersFrom ((f, call) :: calls) s = some (x.1 :: outs, s') := by
  rw [answersFrom, h]
  dsimp only
  rw [hrest]

omit hf in
theorem answersFrom_spec (hintact : ∀ f ∈ files, f.Intact) {calls : List (TableFile × ReaderCall)}
    (hcalls : ∀ call ∈ calls, call.1 ∈ files) (hc : s.cache.Each (IsBlock files)) {outs : List ReaderAnswer}
    (h : answersFrom calls s = some (outs, s')) :
    Served files s s' outs (calls.map fun call => call.1.reader.answer call.2) ∧
      List.Forall₂ (fun call out => (call.1.reader.answer call.2).Weakens out) calls outs := by
  induction calls generalizing s s' outs with
  | nil =>
    obtain ⟨rfl, rfl⟩ := Prod.mk.inj (Option.some.inj h)
    exact ⟨⟨List.suffix_refl _, hc, fun _ => rfl⟩, .nil⟩
  | cons call calls ih =>
    obtain ⟨f, call⟩ := call
    have hf : f ∈ files := hcalls (f, call) List.mem_cons_self
    rw [answersFrom] at h
    cases hanswer : f.reader.answerFrom f.fname s call with
    | none => rw [hanswer] at h; contradiction
    | some result =>
      obtain ⟨answer, s₁⟩ := result
      obtain ⟨hserved, hweaker⟩ := answerFrom_spec hnames hf hc (hintact f hf) hanswer
      rw [hanswer] at h
      dsimp only at h
      cases hmore : answersFrom calls s₁ with
      | none => rw [hmore] at h; contradiction
      | some result =>
        obtain ⟨more, s₂⟩ := result
        obtain ⟨hnext, hothers⟩ := ih (fun c hmem => hcalls c (List.mem_cons_of_mem _ hmem)) hserved.clean hmore
        rw [hmore] at h
        obtain ⟨rfl, rfl⟩ := Prod.mk.inj (Option.some.inj h)
        refine ⟨⟨hnext.left.trans hserved.left, hnext.clean, fun hsound => ?_⟩, .cons hweaker hothers⟩
        rw [List.map_cons, hserved.exact hsound, hnext.exact (hsound.suffix hserved.left)]

end

/-- Under any answers of `pread`, with any cache shared by the readers: no call returns an entry
or a record that its table does not have, and once `pread` fails no more every answer is right,
whatever failed, came short or was interrupted before. -/
theorem failing_reads_hide {files : List TableFile} (hnames : (files.map TableFile.fname).Nodup)
    (hintact : ∀ f ∈ files, f.Intact) (capacity_bytes : ℕ) {before after : List (TableFile × ReaderCall)}
    (hcalls : ∀ call ∈ before ++ after, call.1 ∈ files) {answers : List Pread} {outs outs' : List ReaderAnswer}
    {s s' : Reads} (hbefore : answersFrom before ⟨answers, .new capacity_bytes⟩ = some (outs, s))
    (hafter : answersFrom after s = some (outs', s')) :
    List.Forall₂ (fun call out => (call.1.reader.answer call.2).Weakens out) before outs ∧
      (Unfailing s.answers → outs' = after.map fun call => call.1.reader.answer call.2) := by
  obtain ⟨hserved, hweaker⟩ := answersFrom_spec hnames hintact
    (fun call hmem => hcalls call (List.mem_append_left _ hmem)) (BlockCache.each_new _ _) hbefore
  obtain ⟨hrest, -⟩ := answersFrom_spec hnames hintact
    (fun call hmem => hcalls call (List.mem_append_right _ hmem)) hserved.clean hafter
  exact ⟨hweaker, hrest.exact⟩

theorem intact_of_built {f : TableFile} {block_size : ℤ} {entries : List (TsKey × InternalEntry)}
    (hasc : Ascending Prod.fst entries) (hfits : ∀ e ∈ entries, FitsEntry e)
    (hsizes : ∀ b ∈ cutBlocks block_size [] entries, (encodeBlock b).length < 2 ^ 31)
    (hbuild : buildSSTable block_size entries = some f.reader.file) : f.Intact := by
  have hcount := (buildSSTable_isSome_iff block_size entries).mp (by rw [hbuild]; rfl)
  obtain ⟨file, bloom, hbuild', hopen, hindexes, -⟩ := opens_of_count hfits hsizes hcount
  obtain rfl := Option.some.inj (hbuild.symm.trans hbuild')
  have hreader := Except.ok.inj (Option.some.inj (f.opened.symm.trans hopen))
  have hflat := cutBlocks_flatten block_size entries []
  rw [List.nil_append] at hflat
  refine ⟨cutBlocks block_size [] entries, ?_, ?_, ?_⟩
  · rw [hreader]
    exact hindexes
  · rw [hflat]
    exact hasc
  · rw [hflat]
    exact hfits

def twoEntries : List (TsKey × InternalEntry) := [(⟨[99], 1⟩, ⟨[7], .kValue⟩), (⟨[99], 2⟩, ⟨[8], .kValue⟩)]

def openedTwo : Option SSTableReader := (buildSSTable 1 twoEntries).bind fun file =>
  (SSTableReader.open file).bind Except.toOption

/-- A read that fails, then one in two pieces, and a scan that has one of its two blocks from
the cache. -/
theorem failing_reads_hide_failedOnce : ∃ f : TableFile, ∃ s s',
    answersFrom [(f, .getEntry ⟨[99], 1⟩)]
      ⟨[.interrupted, .failed "Input/output error", .read 3, .interrupted, .read 15, .read 18], .new 64⟩ =
        some ([.entry (some none)], s) ∧
    answersFrom [(f, .getEntry ⟨[99], 1⟩), (f, .rangeScanEntries ⟨[], 0⟩ ⟨[100], 0⟩)] s =
      some ([f.reader.answer (.getEntry ⟨[99], 1⟩),
        f.reader.answer (.rangeScanEntries ⟨[], 0⟩ ⟨[100], 0⟩)], s') := by
  have hfits : ∀ e ∈ twoEntries, FitsEntry e := by
    unfold FitsEntry
    decide +kernel
  have hsizes : ∀ b ∈ cutBlocks 1 [] twoEntries, (encodeBlock b).length < 2 ^ 31 := by decide +kernel
  have hasc : Ascending Prod.fst twoEntries := by
    unfold Ascending
    decide +kernel
  obtain ⟨file, hbuild⟩ := Option.isSome_iff_exists.mp
    ((buildSSTable_isSome_iff 1 twoEntries).mpr (by simp [twoEntries, kMaxBloomKeys]))
  obtain ⟨f, hname, rfl⟩ := tableFile_of_built [120] hfits hsizes hbuild
  have hopened : openedTwo = some f.reader := by
    rw [openedTwo, hbuild, Option.bind_some, f.opened]
    rfl
  have hrun : (openedTwo.bind fun r =>
      (r.answerFrom [120] ⟨[.interrupted, .failed "Input/output error", .read 3, .interrupted, .read 15,
        .read 18], .new 64⟩ (.getEntry ⟨[99], 1⟩)).bind fun x =>
      (r.answerFrom [120] x.2 (.getEntry ⟨[99], 1⟩)).bind fun y =>
      (r.answerFrom [120] y.2 (.rangeScanEntries ⟨[], 0⟩ ⟨[100], 0⟩)).map fun z => (x.1, x.2.answers)) =
      some (.entry (some none), [.read 3, .interrupted, .read 15, .read 18]) := by decide +kernel
  rw [hopened, Option.bind_some] at hrun
  obtain ⟨x, hx, hrun⟩ := Option.bind_eq_some_iff.mp hrun
  obtain ⟨y, hy, hrun⟩ := Option.bind_eq_some_iff.mp hrun
  obtain ⟨z, hz, hstate⟩ := Option.map_eq_some_iff.mp hrun
  obtain ⟨hfirst, hleft⟩ := Prod.mk.inj hstate
  rw [← hname] at hx hy hz
  have hnone : ∀ s, answersFrom [] s = some ([], s) := fun _ => rfl
  have hbefore := answersFrom_cons hx (hnone _)
  have hafter := answersFrom_cons hy (answersFrom_cons hz (hnone _))
  have hnames : ([f].map TableFile.fname).Nodup := List.nodup_singleton _
  have hintact : ∀ g ∈ [f], g.Intact := fun g hg =>
    List.mem_singleton.mp hg ▸ intact_of_built hasc hfits hsizes hbuild
  obtain ⟨-, hright⟩ := failing_reads_hide hnames hintact 64 (by simp) hbefore hafter
  have hsound : Unfailing x.2.answers := by
    rw [hleft]
    unfold Unfailing
    decide
  rw [hright hsound] at hafter
  rw [hfirst] at hbefore
  exact ⟨f, x.2, z.2, hbefore, hafter⟩

end MiniTsdb
