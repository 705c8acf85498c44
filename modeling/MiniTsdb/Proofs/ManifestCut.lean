import MiniTsdb.Proofs.ManifestLog

/-! A manifest whose last edit was cut short by a crash. Every line up to the cut is
replayed; the cut line is refused or ignored, unless the cut falls behind the first
digits of its last number, which is then read as a smaller one. -/

namespace MiniTsdb
open Lib

/-- The edit with these lines. -/
def editOf (items : List EditItem) : VersionEdit :=
  ⟨items.filterMap fun | .add a => some a | .del _ => none,
    items.filterMap fun | .del d => some d | .add _ => none⟩

def EditItem.head : EditItem → Bytes
  | .del d => ascii "del" ++ blank :: (decimalInt d.1 ++ [blank])
  | .add a => ascii "add" ++ addFields a

def EditItem.number : EditItem → Bytes
  | .del d => decimal d.2
  | .add a => decimalInt a.2.largest.timestamp.toInt

/-- What a line is read as whose first `m` bytes are there, when that is a line at all:
the last number is what its first digits say. -/
def EditItem.cutRead (item : EditItem) (m : ℕ) : Option EditItem :=
  match item with
  | .del d => (readUnsigned 64 ((decimal d.2).take (m - item.head.length))).map fun r =>
      .del (d.1, r.1)
  | .add a =>
    (readSigned 64 ((decimalInt a.2.largest.timestamp.toInt).take (m - item.head.length))).map
      fun r => .add (a.1, { a.2 with largest := ⟨a.2.largest.measurement, Int64.ofInt r.1⟩ })

/-- The lines that the first `n` bytes show up to the newline, and the line that is cut,
with the number of its bytes that are there. -/
def shown : List EditItem → ℕ → List EditItem × Option (EditItem × ℕ)
  | [], _ => ([], none)
  | item :: items, n =>
    if n + 1 < item.line.length then ([], some (item, n))
    else ((item :: (shown items (n - item.line.length)).1),
      (shown items (n - item.line.length)).2)

def EditItem.Readable (db_dir : Bytes) : EditItem → Prop
  | .del d => IsInt32 d.1 ∧ d.2 < 2 ^ 64
  | .add a => IsInt32 a.1 ∧ a.2.file_number < 2 ^ 64 ∧ a.2.file_size < 2 ^ 64 ∧ TokenLine a.2 ∧
      a.2.rebase db_dir = a.2

/-- A field that holds the cut stops the reader, as the next one finds nothing. -/
theorem bind_cut {α β : Type} {o : Option (α × Bytes)} {k : α × Bytes → Option β}
    (h : o = none ∨ ∃ a, o = some (a, [])) (hk : ∀ a, k (a, []) = none) : o >>= k = none := by
  rcases h with rfl | ⟨a, rfl⟩
  · rfl
  · exact hk a

theorem bind_read {α β : Type} {o : Option α} {r : α} {k : α → Option β} (h : o = some r) :
    o >>= k = k r := by
  rw [h]; rfl

theorem readSigned_take_blank (w : ℕ) (s : Bytes) (m : ℕ) :
    readSigned w ((blank :: s).take m) = readSigned w (s.take (m - 1)) := by
  cases m with
  | zero => rfl
  | succ m => rw [List.take_succ_cons, readSigned_blank]; rfl

theorem readUnsigned_take_blank (w : ℕ) (s : Bytes) (m : ℕ) :
    readUnsigned w ((blank :: s).take m) = readUnsigned w (s.take (m - 1)) := by
  cases m with
  | zero => rfl
  | succ m => rw [List.take_succ_cons, readUnsigned_blank]; rfl

theorem parseAdd_take (db_dir : Bytes) {a : ℤ × FileMeta} (h : EditItem.Readable db_dir (.add a))
    (last : Bytes) (m : ℕ) :
    parseAdd db_dir ((addFields a ++ last).take m) =
      (readSigned 64 (last.take (m - (addFields a).length))).map fun r =>
        (a.1, { a.2 with largest := ⟨a.2.largest.measurement, Int64.ofInt r.1⟩ }) := by
  obtain ⟨hl, hn, hs, ht, hbase⟩ := h
  have hname : joinPath db_dir (baseName a.2.file_name) = a.2.file_name :=
    congrArg FileMeta.file_name hbase
  obtain ⟨s6, e6⟩ : ∃ s, s = a.2.largest.measurement ++ blank :: last := ⟨_, rfl⟩
  obtain ⟨s5, e5⟩ : ∃ s, s = decimalInt a.2.smallest.timestamp.toInt ++ blank :: s6 := ⟨_, rfl⟩
  obtain ⟨s4, e4⟩ : ∃ s, s = a.2.smallest.measurement ++ blank :: s5 := ⟨_, rfl⟩
  obtain ⟨s3, e3⟩ : ∃ s, s = decimal a.2.file_size ++ blank :: s4 := ⟨_, rfl⟩
  obtain ⟨s2, e2⟩ : ∃ s, s = baseName a.2.file_name ++ blank :: s3 := ⟨_, rfl⟩
  obtain ⟨s1, e1⟩ : ∃ s, s = decimal a.2.file_number ++ blank :: s2 := ⟨_, rfl⟩
  have htext : addFields a ++ last = blank :: (decimalInt a.1 ++ blank :: s1) := by
    simp [addFields, e1, e2, e3, e4, e5, e6]
  have hlen : (addFields a).length = (decimalInt a.1).length + 1 +
      ((decimal a.2.file_number).length + 1 + ((baseName a.2.file_name).length + 1 +
      ((decimal a.2.file_size).length + 1 + (a.2.smallest.measurement.length + 1 +
      ((decimalInt a.2.smallest.timestamp.toInt).length + 1 +
      (a.2.largest.measurement.length + 1 + 1)))))) := by
    simp only [addFields, List.length_cons, List.length_append, List.length_nil]
    omega
  have hnone : m ≤ (addFields a).length →
      (readSigned 64 (last.take (m - (addFields a).length))).map (fun r =>
        (a.1, { a.2 with largest := ⟨a.2.largest.measurement, Int64.ofInt r.1⟩ })) = none :=
    fun hm => by rw [Nat.sub_eq_zero_of_le hm]; rfl
  rw [htext, parseAdd]
  -- a field either holds the cut or is read; `mi` bytes are left behind the i-th one
  rcases (readsField_signed hl).cut s1 m with ⟨hm, hr⟩ | ⟨h1, hr⟩
  · rw [bind_cut hr fun _ => rfl, hnone (by omega)]
  obtain ⟨m1, hm1⟩ : ∃ m1, m1 = m - ((decimalInt a.1).length + 1) := ⟨_, rfl⟩
  rw [bind_read hr, ← hm1, e1]
  dsimp only
  rcases (readsField_unsigned hn).cut s2 m1 with ⟨hm, hr⟩ | ⟨h2, hr⟩
  · rw [bind_cut hr fun _ => rfl, hnone (by omega)]
  obtain ⟨m2, hm2⟩ : ∃ m2, m2 = m1 - ((decimal a.2.file_number).length + 1) := ⟨_, rfl⟩
  rw [bind_read hr, ← hm2, e2]
  dsimp only
  rcases (readsField_token ht.name).cut s3 m2 with ⟨hm, hr⟩ | ⟨h3, hr⟩
  · rw [bind_cut hr fun _ => rfl, hnone (by omega)]
  obtain ⟨m3, hm3⟩ : ∃ m3, m3 = m2 - ((baseName a.2.file_name).length + 1) := ⟨_, rfl⟩
  rw [bind_read hr, ← hm3, e3]
  dsimp only
  rcases (readsField_unsigned hs).cut s4 m3 with ⟨hm, hr⟩ | ⟨h4, hr⟩
  · rw [bind_cut hr fun _ => rfl, hnone (by omega)]
  obtain ⟨m4, hm4⟩ : ∃ m4, m4 = m3 - ((decimal a.2.file_size).length + 1) := ⟨_, rfl⟩
  rw [bind_read hr, ← hm4, e4]
  dsimp only
  rcases (readsField_token ht.smallest).cut s5 m4 with ⟨hm, hr⟩ | ⟨h5, hr⟩
  · rw [bind_cut hr fun _ => rfl, hnone (by omega)]
  obtain ⟨m5, hm5⟩ : ∃ m5, m5 = m4 - (a.2.smallest.measurement.length + 1) := ⟨_, rfl⟩
  rw [bind_read hr, ← hm5, e5]
  dsimp only
  rcases (readsField_signed (int64_range a.2.smallest.timestamp)).cut s6 m5 with
    ⟨hm, hr⟩ | ⟨h6, hr⟩
  · rw [bind_cut hr fun _ => rfl, hnone (by omega)]
  obtain ⟨m6, hm6⟩ : ∃ m6, m6 = m5 - ((decimalInt a.2.smallest.timestamp.toInt).length + 1) :=
    ⟨_, rfl⟩
  rw [bind_read hr, ← hm6, e6]
  dsimp only
  rcases (readsField_token ht.largest).cut last m6 with ⟨hm, hr⟩ | ⟨h7, hr⟩
  · rw [bind_cut hr fun _ => rfl, hnone (by omega)]
  rw [bind_read hr]
  dsimp only
  rw [readSigned_take_blank, hlen, hname,
    show m6 - (a.2.largest.measurement.length + 1) - 1 = m - ((decimalInt a.1).length + 1 +
      ((decimal a.2.file_number).length + 1 + ((baseName a.2.file_name).length + 1 +
      ((decimal a.2.file_size).length + 1 + (a.2.smallest.measurement.length + 1 +
      ((decimalInt a.2.smallest.timestamp.toInt).length + 1 +
      (a.2.largest.measurement.length + 1 + 1)))))))  by omega]
  cases readSigned 64 (last.take _) with
  | none => rfl
  | some r => simp

theorem parseDel_take {d : ℤ × ℕ} (hl : IsInt32 d.1) (last : Bytes) (m : ℕ) :
    parseDel ((blank :: (decimalInt d.1 ++ blank :: last)).take m) =
      (readUnsigned 64 (last.take (m - ((decimalInt d.1).length + 2)))).map fun r => (d.1, r.1) := by
  rw [parseDel]
  rcases (readsField_signed hl).cut last m with ⟨hm, hr⟩ | ⟨h1, hr⟩
  · rw [bind_cut hr fun _ => rfl, Nat.sub_eq_zero_of_le (by omega)]; rfl
  · rw [bind_read hr]
    dsimp only
    rw [readUnsigned_take_blank, Nat.sub_sub]
    cases readUnsigned 64 (last.take _) with
    | none => rfl
    | some r => rfl

theorem EditItem.line_eq (item : EditItem) :
    item.line = item.head ++ item.number ++ [newline] := by
  cases item with
  | del d => simp [EditItem.line, EditItem.head, EditItem.number, delLine, ascii, blank]
  | add a => simp [EditItem.line, EditItem.head, EditItem.number, addLine_eq]

theorem newline_not_mem_head_number {db_dir : Bytes} {item : EditItem} (h : item.Readable db_dir) :
    newline ∉ item.head ++ item.number := by
  have hdel : newline ∉ ascii "del" := by decide
  have hadd : newline ∉ ascii "add" := by decide
  have hb : newline ≠ blank := by decide
  cases item with
  | del d =>
    simp [EditItem.head, EditItem.number, hdel, hb, newline_not_mem_token (decimalInt_isToken _),
      newline_not_mem_token (decimal_isToken _)]
  | add a =>
    simp [EditItem.head, EditItem.number, hadd, newline_not_mem_addFields h.2.2.2.1,
      newline_not_mem_token (decimalInt_isToken _)]

theorem tag_take {tag : Bytes} (htag : tag.length = 3) (s : Bytes) {m : ℕ} (hm : 3 ≤ m) :
    (tag ++ s).take m = tag ++ s.take (m - 3) := by
  rw [List.take_append, htag, List.take_of_length_le (by omega)]

theorem atBlank_take_blank (s : Bytes) (m : ℕ) : AtBlank ((blank :: s).take m) := by
  cases m with
  | zero => exact atBlank_nil
  | succ m => exact atBlank_blank _

theorem parseLine_take {db_dir : Bytes} {item : EditItem} (h : item.Readable db_dir) {m : ℕ}
    (hm : 3 ≤ m) :
    (∃ y, item.cutRead m = some y ∧
      parseLine db_dir ((item.head ++ item.number).take m) = y.parsed) ∨
    (item.cutRead m = none ∧ ∃ message,
      parseLine db_dir ((item.head ++ item.number).take m) = .bad message) := by
  cases item with
  | del d =>
    have htake : (EditItem.head (.del d) ++ EditItem.number (.del d)).take m =
        ascii "del" ++ (blank :: (decimalInt d.1 ++ blank :: decimal d.2)).take (m - 3) := by
      rw [← tag_take (by decide) _ hm]
      simp [EditItem.head, EditItem.number]
    have hlen : m - (EditItem.head (.del d)).length = m - 3 - ((decimalInt d.1).length + 2) := by
      simp [EditItem.head, ascii]; omega
    rw [htake, parseLine_del db_dir (atBlank_take_blank _ _), parseDel_take h.1, EditItem.cutRead,
      hlen]
    cases readUnsigned 64 ((decimal d.2).take (m - 3 - ((decimalInt d.1).length + 2))) with
    | none => exact Or.inr ⟨rfl, _, rfl⟩
    | some r => exact Or.inl ⟨_, rfl, rfl⟩
  | add a =>
    have htake : (EditItem.head (.add a) ++ EditItem.number (.add a)).take m =
        ascii "add" ++ (addFields a ++ EditItem.number (.add a)).take (m - 3) := by
      rw [← tag_take (by decide) _ hm]
      simp [EditItem.head]
    have hlen : m - (EditItem.head (.add a)).length = m - 3 - (addFields a).length := by
      simp [EditItem.head, ascii]; omega
    have hblank : AtBlank ((addFields a ++ EditItem.number (.add a)).take (m - 3)) :=
      atBlank_take_blank _ _
    rw [htake, parseLine_add db_dir hblank, parseAdd_take db_dir h, EditItem.cutRead, hlen,
      EditItem.number]
    cases readSigned 64 ((decimalInt a.2.largest.timestamp.toInt).take
        (m - 3 - (addFields a).length)) with
    | none => exact Or.inr ⟨rfl, _, rfl⟩
    | some r => exact Or.inl ⟨_, rfl, rfl⟩

theorem cutRead_whole {db_dir : Bytes} {item : EditItem} (h : item.Readable db_dir) :
    item.cutRead (item.head ++ item.number).length = some item := by
  cases item with
  | del d =>
    have hread := readUnsigned_decimal h.2 atBlank_nil
    rw [List.append_nil] at hread
    rw [EditItem.cutRead, List.length_append, Nat.add_sub_cancel_left, EditItem.number,
      List.take_length, hread]
    rfl
  | add a =>
    have hread := readSigned_decimalInt (int64_range a.2.largest.timestamp) atBlank_nil
    rw [List.append_nil] at hread
    rw [EditItem.cutRead, List.length_append, Nat.add_sub_cancel_left, EditItem.number,
      List.take_length, hread]
    simp

theorem three_le_length (item : EditItem) : 3 ≤ (item.head ++ item.number).length := by
  cases item with
  | del d => simp [EditItem.head, ascii]
  | add a => simp [EditItem.head, ascii]

theorem parseLine_whole {db_dir : Bytes} {item : EditItem} (h : item.Readable db_dir) :
    parseLine db_dir (item.head ++ item.number) = item.parsed := by
  have hcut := parseLine_take h (three_le_length item)
  rw [List.take_length, cutRead_whole h] at hcut
  rcases hcut with ⟨y, hy, hparse⟩ | ⟨hnone, -⟩
  · rw [hparse, Option.some.inj hy]
  · contradiction

theorem parseManifest_line_item {db_dir : Bytes} {item : EditItem} (h : item.Readable db_dir)
    (rest : Bytes) :
    parseManifest db_dir (item.line ++ rest) = item.parsed :: parseManifest db_dir rest := by
  have hne : item.head ++ item.number ≠ [] := by
    intro he
    have := three_le_length item
    rw [he] at this
    contradiction
  rw [item.line_eq, List.append_assoc, List.singleton_append,
    parseManifest_line db_dir (newline_not_mem_head_number h) hne, parseLine_whole h]

theorem parseManifest_last (db_dir : Bytes) {s : Bytes} (h : newline ∉ s) :
    parseManifest db_dir s = if s = [] then [] else [parseLine db_dir s] := by
  split_ifs with hs
  · rw [hs]; rfl
  · have hempty : s.isEmpty = false := by simpa using hs
    simp [parseManifest, getLines_last h hs, hs]

/-- A line that leaves every level as it is. -/
def Harmless : ManifestLine → Prop
  | .add _ _ => False
  | .del _ _ => False
  | _ => True

theorem cut_tag_other : ∀ tag ∈ [ascii "del", ascii "add"], ∀ m < 3, 0 < m →
    IsToken (tag.take m) ∧ tag.take m ≠ ascii "next_file" ∧ tag.take m ≠ ascii "add" ∧
      tag.take m ≠ ascii "del" := by
  decide +kernel

/-- A cut line is what its digits say, or nothing that matters. -/
theorem parseManifest_cut {db_dir : Bytes} {item : EditItem} (h : item.Readable db_dir) {m : ℕ}
    (hm : m ≤ (item.head ++ item.number).length) :
    ∃ stray, (∀ s ∈ stray, Harmless s) ∧ parseManifest db_dir (item.line.take m) =
      (item.cutRead m).toList.map EditItem.parsed ++ stray := by
  have hline : item.line.take m = (item.head ++ item.number).take m := by
    rw [item.line_eq, List.take_append_of_le_length hm]
  have hnl : newline ∉ (item.head ++ item.number).take m := fun hmem =>
    newline_not_mem_head_number h (List.mem_of_mem_take hmem)
  rw [hline, parseManifest_last db_dir hnl]
  rcases Nat.lt_or_ge m 3 with h3 | h3
  · -- the tag is not complete
    have hnone : item.cutRead m = none := by
      cases item with
      | del d =>
        have : m - (EditItem.head (.del d)).length = 0 := by simp [EditItem.head, ascii]; omega
        rw [EditItem.cutRead, this]; rfl
      | add a =>
        have : m - (EditItem.head (.add a)).length = 0 := by simp [EditItem.head, ascii]; omega
        rw [EditItem.cutRead, this]; rfl
    rw [hnone]
    split_ifs with he
    · exact ⟨[], by simp, rfl⟩
    · obtain ⟨tag, htag, htake⟩ : ∃ tag ∈ [ascii "del", ascii "add"],
          (item.head ++ item.number).take m = tag.take m := by
        cases item with
        | del d =>
          refine ⟨ascii "del", by simp, ?_⟩
          rw [EditItem.head, List.append_assoc, List.take_append_of_le_length (by simp [ascii]; omega)]
        | add a =>
          refine ⟨ascii "add", by simp, ?_⟩
          rw [EditItem.head, List.append_assoc, List.take_append_of_le_length (by simp [ascii]; omega)]
      have h0 : 0 < m := Nat.pos_of_ne_zero (by rintro rfl; exact he rfl)
      obtain ⟨ht, h1, h2, h3'⟩ := cut_tag_other tag htag m h3 h0
      exact ⟨[.ignored], by simp [Harmless], by rw [htake, parseLine_other db_dir ht h1 h2 h3']; rfl⟩
  · have hne : (item.head ++ item.number).take m ≠ [] := by
      intro he
      have hlen := congrArg List.length he
      have := three_le_length item
      rw [List.length_take, List.length_nil] at hlen
      omega
    rw [if_neg hne]
    rcases parseLine_take h h3 with ⟨y, hy, hparse⟩ | ⟨hnone, message, hparse⟩
    · exact ⟨[], by simp, by rw [hy, hparse]; rfl⟩
    · exact ⟨[.bad message], by simp [Harmless], by rw [hnone, hparse]; rfl⟩

theorem cut_next_file_other : ∀ m < 9, 0 < m →
    IsToken ((ascii "next_file").take m) ∧ (ascii "next_file").take m ≠ ascii "next_file" ∧
      (ascii "next_file").take m ≠ ascii "add" ∧ (ascii "next_file").take m ≠ ascii "del" := by
  decide +kernel

/-- The counter line does nothing to the levels, cut or not. -/
theorem parseManifest_nextFileLine_take (db_dir : Bytes) (next n : ℕ) :
    ∀ s ∈ parseManifest db_dir ((nextFileLine next).take n), Harmless s := by
  have hline : nextFileLine next = ascii "next_file" ++ (blank :: decimal next) ++ [newline] := by
    simp [nextFileLine, ascii, blank]
  have hnl : newline ∉ ascii "next_file" ++ (blank :: decimal next) := by
    have h1 : newline ∉ ascii "next_file" := by decide +kernel
    have h2 : newline ≠ blank := by decide
    simp [h1, h2, newline_not_mem_token (decimal_isToken _)]
  have hbody : ∀ m, Harmless (parseLine db_dir ((ascii "next_file" ++ (blank :: decimal next)).take m)) := by
    intro m
    rcases Nat.lt_or_ge m 9 with hm | hm
    · rw [List.take_append_of_le_length (by simp [ascii]; omega)]
      rcases Nat.eq_zero_or_pos m with rfl | h0
      · trivial
      · obtain ⟨ht, h1, h2, h3⟩ := cut_next_file_other m hm h0
        rw [parseLine_other db_dir ht h1 h2 h3]
        trivial
    · have hlen : (ascii "next_file").length = 9 := by decide
      rw [List.take_append, hlen, List.take_of_length_le (by omega),
        parseLine_next_file db_dir (atBlank_take_blank _ _)]
      split <;> trivial
  rw [hline]
  set body := ascii "next_file" ++ (blank :: decimal next)
  rcases Nat.lt_or_ge body.length n with hn | hn
  · have hne : body ≠ [] := by simp [body, ascii]
    have htake : (body ++ [newline]).take n = body ++ newline :: [] :=
      List.take_of_length_le (by simp; omega)
    have hwhole := hbody body.length
    rw [List.take_length] at hwhole
    rw [htake, parseManifest_line db_dir hnl hne]
    intro s hs
    obtain rfl : s = parseLine db_dir body := by simpa [parseManifest, getLines] using hs
    exact hwhole
  · rw [List.take_append_of_le_length hn,
      parseManifest_last db_dir fun hm => hnl (List.mem_of_mem_take hm)]
    intro s hs
    split_ifs at hs
    · contradiction
    · obtain rfl := List.mem_singleton.mp hs
      exact hbody n

/-- The lines that are read from the first `n` bytes. -/
def shownItems (items : List EditItem) (n : ℕ) : List EditItem :=
  (shown items n).1 ++ ((shown items n).2.bind fun c => c.1.cutRead c.2).toList

theorem line_length (item : EditItem) :
    item.line.length = (item.head ++ item.number).length + 1 := by
  rw [item.line_eq, List.length_append, List.length_singleton]

theorem shown_zero (items : List EditItem) : shownItems items 0 = [] := by
  cases items with
  | nil => rfl
  | cons item items =>
    have hlen := line_length item
    have h3 := three_le_length item
    have hcut : item.cutRead 0 = none := by
      cases item <;> rw [EditItem.cutRead, Nat.zero_sub] <;> rfl
    rw [shownItems, shown, if_pos (by omega)]
    simp [hcut]

theorem parseManifest_shown {db_dir : Bytes} (items : List EditItem)
    (h : ∀ item ∈ items, item.Readable db_dir) (next n : ℕ) :
    ∃ stray, (∀ s ∈ stray, Harmless s) ∧
      parseManifest db_dir (((items.map EditItem.line).flatten ++ nextFileLine next).take n) =
        (shownItems items n).map EditItem.parsed ++ stray := by
  induction items generalizing n with
  | nil => exact ⟨_, parseManifest_nextFileLine_take db_dir next n, rfl⟩
  | cons item items ih =>
    have hread := h item List.mem_cons_self
    have hlen := line_length item
    rw [List.map_cons, List.flatten_cons, List.append_assoc]
    rcases Nat.lt_or_ge (n + 1) item.line.length with hn | hn
    · -- the cut is in this line
      obtain ⟨stray, hharmless, hparse⟩ := parseManifest_cut hread (m := n) (by omega)
      refine ⟨stray, hharmless, ?_⟩
      rw [List.take_append_of_le_length (by omega), hparse, shownItems, shown, if_pos hn]
      rfl
    · have hshown : shownItems (item :: items) n =
          item :: shownItems items (n - item.line.length) := by
        rw [shownItems, shown, if_neg (by omega)]
        rfl
      rcases Nat.lt_or_ge n item.line.length with hlast | hmore
      · -- only the newline is missing
        refine ⟨[], by simp, ?_⟩
        have hn' : n = (item.head ++ item.number).length := by omega
        have hne : item.head ++ item.number ≠ [] := by
          intro he
          have := three_le_length item
          rw [he] at this
          contradiction
        rw [hshown, show n - item.line.length = 0 by omega, shown_zero,
          List.take_append_of_le_length (by omega), item.line_eq, hn',
          List.take_append_of_le_length le_rfl, List.take_length,
          parseManifest_last db_dir (newline_not_mem_head_number hread), if_neg hne,
          parseLine_whole hread]
        rfl
      · obtain ⟨stray, hharmless, hparse⟩ :=
          ih (fun i hi => h i (List.mem_cons_of_mem item hi)) (n - item.line.length)
        refine ⟨stray, hharmless, ?_⟩
        rw [List.take_append, List.take_of_length_le hmore, parseManifest_line_item hread, hparse,
          hshown]
        rfl

theorem replayLines_harmless {lines : List ManifestLine} (h : ∀ s ∈ lines, Harmless s)
    (vm : VersionManager) :
    (vm.replayLines lines).1.current = vm.current ∧ (vm.replayLines lines).1.db_dir = vm.db_dir := by
  induction lines generalizing vm with
  | nil => exact ⟨rfl, rfl⟩
  | cons line lines ih =>
    have hrest := ih fun s hs => h s (List.mem_cons_of_mem line hs)
    have hline := h line List.mem_cons_self
    cases line with
    | nextFile n =>
      rw [VersionManager.replayLines, VersionManager.replayLine]
      dsimp only
      split_ifs
      · exact hrest _
      · exact hrest _
    | add l f => contradiction
    | del l n => contradiction
    | bad m => exact ⟨rfl, rfl⟩
    | ignored => exact hrest vm

def DelsFirst (items : List EditItem) : Prop :=
  items.Pairwise fun x y => (∃ a, x = .add a) → ∃ a, y = .add a

theorem editOf_items {items : List EditItem} (h : DelsFirst items) :
    (editOf items).items = items := by
  induction items with
  | nil => rfl
  | cons item items ih =>
    obtain ⟨hhead, htail⟩ := List.pairwise_cons.mp h
    have hrest := ih htail
    cases item with
    | del d =>
      change EditItem.del d :: (editOf items).items = _
      rw [hrest]
    | add a =>
      have hnodel : (editOf items).deleted_files = [] := by
        refine List.filterMap_eq_nil_iff.mpr fun y hy => ?_
        obtain ⟨b, rfl⟩ := hhead y hy ⟨a, rfl⟩
        rfl
      have hadds : (editOf (.add a :: items)).deleted_files = [] := hnodel
      rw [VersionEdit.items, hnodel] at hrest
      rw [VersionEdit.items, hadds]
      change EditItem.add a :: (editOf items).added_files.map .add = _
      rw [show (editOf items).added_files.map EditItem.add = items from hrest]

theorem delsFirst_items (e : VersionEdit) : DelsFirst e.items := by
  refine List.pairwise_append.mpr ⟨?_, ?_, ?_⟩
  · refine List.pairwise_map.mpr (List.pairwise_of_forall ?_)
    rintro d d' ⟨a, ha⟩
    contradiction
  · exact List.pairwise_map.mpr (List.pairwise_of_forall fun a a' _ => ⟨a', rfl⟩)
  · rintro x - y hy -
    obtain ⟨a, -, rfl⟩ := List.mem_map.mp hy
    exact ⟨a, rfl⟩

theorem shown_split (items : List EditItem) (n : ℕ) :
    match (shown items n).2 with
    | none => (shown items n).1 = items
    | some c => (∃ rest, items = (shown items n).1 ++ c.1 :: rest) ∧ c.2 + 1 < c.1.line.length := by
  induction items generalizing n with
  | nil => rfl
  | cons item items ih =>
    rw [shown]
    split_ifs with hn
    · exact ⟨⟨items, rfl⟩, hn⟩
    · have hrest := ih (n - item.line.length)
      dsimp only
      split at hrest
      · rw [hrest]
      · next c heq =>
        obtain ⟨⟨rest, hitems⟩, hc⟩ := hrest
        exact ⟨⟨rest, by rw [List.cons_append, ← hitems]⟩, hc⟩

/-- The files when `n` bytes of an edit's text reached the manifest. -/
def cutFiles (db_dir : Bytes) (files : Files) (text : Bytes) (n : ℕ) : Files :=
  Function.update files (joinPath db_dir manifestFile)
    (some ((files (joinPath db_dir manifestFile)).getD [] ++ text.take n))

theorem Logged.holds {db_dir : Bytes} {v : Version} {files : Files} (h : Logged db_dir v files) :
    ManifestHolds db_dir v ((files (joinPath db_dir manifestFile)).getD []) := by
  have hm := h.manifest
  cases hf : files (joinPath db_dir manifestFile) with
  | none =>
    rw [hf] at hm
    rw [hm]
    exact manifestHolds_nil db_dir
  | some text =>
    rw [hf] at hm
    exact hm

theorem recover_cut {db_dir : Bytes} {vm : VersionManager} {files : Files}
    (hlog : Logged db_dir vm.current files) (hord : vm.current.Ordered) {e : VersionEdit}
    (hread : ∀ item ∈ e.items, item.Readable db_dir) {m n : ℕ}
    (hfirst : DelsFirst (shownItems e.items n))
    (hnew : (editOf (shownItems e.items n)).NewIn vm.current) :
    let r := (VersionManager.init db_dir (cutFiles db_dir files (editText e m) n)).1
    r.current = (vm.applyUnlocked (editOf (shownItems e.items n))).current ∧ r.db_dir = db_dir := by
  have hnames : NamesManifest db_dir (cutFiles db_dir files (editText e m) n) :=
    namesManifest_update hlog.current_file _
  have hfile : cutFiles db_dir files (editText e m) n (joinPath db_dir manifestFile) =
      some ((files (joinPath db_dir manifestFile)).getD [] ++ (editText e m).take n) :=
    Function.update_self ..
  obtain ⟨hterm, r, hr, hv⟩ := hlog.holds
  obtain ⟨stray, hharmless, hparse⟩ := parseManifest_shown e.items hread m n
  obtain ⟨r', hr', hv'⟩ := replay_items hv hord hnew
  rw [editOf_items hfirst] at hr'
  have hfold : (parseManifest db_dir ((files (joinPath db_dir manifestFile)).getD []) ++
      (shownItems e.items n).map EditItem.parsed).foldlM VersionManager.replayLine
        (recoveryStart db_dir) = .ok r' := by
    rw [List.foldlM_append, hr]
    exact hr'
  obtain ⟨hcurrent, hdir⟩ := replayLines_harmless hharmless r'
  obtain ⟨hpath, -⟩ := paths_foldlM hfold
  dsimp only
  rw [init_eq hnames, hfile]
  dsimp only
  rw [parseManifest_append db_dir hterm, editText_eq, hparse, ← List.append_assoc,
    replayLines_append hfold]
  exact ⟨hcurrent.trans hv', hdir.trans hpath⟩

end MiniTsdb
