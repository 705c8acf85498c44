import MiniTsdb.Spec.Version

/-! One manifest line, written and read back. The writer puts raw bytes between
blanks, so a line survives exactly when its strings are blank-free and non-empty. -/

namespace MiniTsdb
open Lib

/-- The file a manifest line can at best stand for: only the base name is logged. -/
def FileMeta.rebase (db_dir : Bytes) (m : FileMeta) : FileMeta :=
  { m with file_name := joinPath db_dir (baseName m.file_name) }

/-- The line of `item` is read as that one added file and nothing else. -/
def ParsesBack (db_dir : Bytes) (item : ℤ × FileMeta) : Prop :=
  parseManifest db_dir (addLine item) = [.add item.1 (item.2.rebase db_dir)]

/-- The strings of a line are tokens. -/
structure TokenLine (m : FileMeta) : Prop where
  name : IsToken (baseName m.file_name)
  smallest : IsToken m.smallest.measurement
  largest : IsToken m.largest.measurement

def IsInt32 (i : ℤ) : Prop := -2 ^ (32 - 1) ≤ i ∧ i < 2 ^ (32 - 1)

theorem int64_range (t : Int64) : -2 ^ (64 - 1) ≤ t.toInt ∧ t.toInt < 2 ^ (64 - 1) :=
  ⟨t.le_toInt, t.toInt_lt⟩

theorem newline_not_mem_token {s : Bytes} (h : IsToken s) : newline ∉ s := fun hm => by
  have := h.2 newline hm
  revert this; decide

theorem parseManifest_line (db_dir : Bytes) {body : Bytes} (h : newline ∉ body) (hne : body ≠ [])
    (rest : Bytes) :
    parseManifest db_dir (body ++ newline :: rest) =
      parseLine db_dir body :: parseManifest db_dir rest := by
  simp [parseManifest, getLines_line h, hne]

theorem isToken_ascii_add : IsToken (ascii "add") := by decide +kernel
theorem isToken_ascii_del : IsToken (ascii "del") := by decide +kernel
theorem isToken_ascii_next_file : IsToken (ascii "next_file") := by decide +kernel

theorem parseLine_add (db_dir : Bytes) {s : Bytes} (hs : AtBlank s) :
    parseLine db_dir (ascii "add" ++ s) =
      match parseAdd db_dir s with
      | some (level, file) => .add level file
      | none => .bad "Bad manifest add record" := by
  rw [parseLine, readToken_token isToken_ascii_add hs]
  rfl

theorem parseLine_del (db_dir : Bytes) {s : Bytes} (hs : AtBlank s) :
    parseLine db_dir (ascii "del" ++ s) =
      match parseDel s with
      | some (level, number) => .del level number
      | none => .bad "Bad manifest del record" := by
  rw [parseLine, readToken_token isToken_ascii_del hs]
  rfl

theorem parseLine_next_file (db_dir : Bytes) {s : Bytes} (hs : AtBlank s) :
    parseLine db_dir (ascii "next_file" ++ s) =
      match readUnsigned 64 s with
      | some (n, _) => .nextFile n
      | none => .ignored := by
  rw [parseLine, readToken_token isToken_ascii_next_file hs]
  rfl

theorem parseLine_other (db_dir : Bytes) {tag : Bytes} (ht : IsToken tag)
    (h1 : tag ≠ ascii "next_file") (h2 : tag ≠ ascii "add") (h3 : tag ≠ ascii "del") :
    parseLine db_dir tag = .ignored := by
  have htok := readToken_token ht atBlank_nil
  rw [List.append_nil] at htok
  rw [parseLine, htok]
  dsimp only
  rw [if_neg h1, if_neg h2, if_neg h3]

@[simp] theorem atBlank_blank (s : Bytes) : AtBlank (blank :: s) := by
  rw [atBlank_cons]; decide

/-- The fields behind the `add` tag, up to the last timestamp. -/
def addFields (item : ℤ × FileMeta) : Bytes :=
  blank :: (decimalInt item.1 ++ blank :: (decimal item.2.file_number ++
    blank :: (baseName item.2.file_name ++ blank :: (decimal item.2.file_size ++
    blank :: (item.2.smallest.measurement ++
    blank :: (decimalInt item.2.smallest.timestamp.toInt ++
    blank :: (item.2.largest.measurement ++ [blank])))))))

theorem addLine_eq (item : ℤ × FileMeta) :
    addLine item = ascii "add" ++ (addFields item ++
      (decimalInt item.2.largest.timestamp.toInt ++ [newline])) := by
  simp only [addLine, addFields, List.append_assoc, List.cons_append, List.nil_append]
  rfl

/-- The parse of an add line, given what its last field reads as. -/
theorem parseAdd_fields (db_dir : Bytes) (item : ℤ × FileMeta) (hl : IsInt32 item.1)
    (hn : item.2.file_number < 2 ^ 64) (hs : item.2.file_size < 2 ^ 64) (ht : TokenLine item.2)
    (last : Bytes) :
    parseAdd db_dir (addFields item ++ last) =
      (readSigned 64 last).map fun r =>
        (item.1, { item.2.rebase db_dir with
          largest := ⟨item.2.largest.measurement, Int64.ofInt r.1⟩ }) := by
  have h1 := @readSigned_decimalInt 32 item.1 hl
  have h2 := @readUnsigned_decimal 64 item.2.file_number hn
  have h3 := @readToken_token (baseName item.2.file_name)
  have h4 := @readUnsigned_decimal 64 item.2.file_size hs
  have h5 := @readToken_token item.2.smallest.measurement
  have h6 := @readSigned_decimalInt 64 _ (int64_range item.2.smallest.timestamp)
  have h7 := @readToken_token item.2.largest.measurement
  simp only [parseAdd, addFields, List.append_assoc, List.cons_append, List.nil_append,
    readSigned_blank, readUnsigned_blank, readToken_blank, h1 (atBlank_blank _),
    h2 (atBlank_blank _), h3 ht.name (atBlank_blank _), h4 (atBlank_blank _),
    h5 ht.smallest (atBlank_blank _), h6 (atBlank_blank _), h7 ht.largest (atBlank_blank _),
    Option.bind_eq_bind, Option.bind_some]
  cases readSigned 64 last <;> simp [FileMeta.rebase]

theorem newline_not_mem_addFields {item : ℤ × FileMeta} (ht : TokenLine item.2) :
    newline ∉ addFields item := by
  have hb : newline ≠ blank := by decide
  simp [addFields, hb, newline_not_mem_token (decimalInt_isToken _),
    newline_not_mem_token (decimal_isToken _), newline_not_mem_token ht.name,
    newline_not_mem_token ht.smallest, newline_not_mem_token ht.largest]

theorem parseManifest_addLine (db_dir : Bytes) (item : ℤ × FileMeta) (hl : IsInt32 item.1)
    (hn : item.2.file_number < 2 ^ 64) (hs : item.2.file_size < 2 ^ 64) (ht : TokenLine item.2)
    (rest : Bytes) :
    parseManifest db_dir (addLine item ++ rest) =
      .add item.1 (item.2.rebase db_dir) :: parseManifest db_dir rest := by
  have hbody : newline ∉ ascii "add" ++ (addFields item ++
      decimalInt item.2.largest.timestamp.toInt) := by
    have h1 : newline ∉ ascii "add" := by decide
    simp [h1, newline_not_mem_addFields ht, newline_not_mem_token (decimalInt_isToken _)]
  have hne : ascii "add" ++ (addFields item ++ decimalInt item.2.largest.timestamp.toInt) ≠ [] := by
    simp [ascii]
  have hline := parseManifest_line db_dir hbody hne rest
  have hlast := readSigned_decimalInt (int64_range item.2.largest.timestamp) atBlank_nil
  rw [List.append_nil] at hlast
  have hparse := parseAdd_fields db_dir item hl hn hs ht (decimalInt item.2.largest.timestamp.toInt)
  rw [hlast] at hparse
  simp only [addLine_eq, List.append_assoc, List.singleton_append] at hline ⊢
  rw [hline]
  have hblank : AtBlank (addFields item ++ decimalInt item.2.largest.timestamp.toInt) :=
    atBlank_blank _
  congr 1
  rw [parseLine_add db_dir hblank, hparse]
  simp [FileMeta.rebase]

theorem tokens_of_parseLine {db_dir line : Bytes} {level : ℤ} {m : FileMeta}
    (h : parseLine db_dir line = .add level m) :
    ∃ fname, m.file_name = joinPath db_dir fname ∧ IsToken fname ∧
      IsToken m.smallest.measurement ∧ IsToken m.largest.measurement := by
  unfold parseLine at h
  split at h
  · contradiction
  · next tag s _ =>
    split_ifs at h
    · split at h <;> contradiction
    · split at h
      · next level' file hp =>
        simp only [ManifestLine.add.injEq] at h
        obtain ⟨-, rfl⟩ := h
        simp only [parseAdd, Option.bind_eq_bind, Option.bind_eq_some_iff] at hp
        obtain ⟨⟨_, _⟩, -, ⟨_, _⟩, -, ⟨fname, _⟩, h3, ⟨_, _⟩, -, ⟨sm, _⟩, h5, ⟨_, _⟩, -, ⟨lm, _⟩, h7,
          ⟨_, _⟩, -, hp⟩ := hp
        simp only [Option.some.injEq, Prod.mk.injEq] at hp
        obtain ⟨-, rfl⟩ := hp
        exact ⟨fname, rfl, isToken_of_readToken h3, isToken_of_readToken h5,
          isToken_of_readToken h7⟩
      · contradiction
    · split at h <;> contradiction

theorem joinPath_inj {dir a b : Bytes} (h : joinPath dir a = joinPath dir b) : a = b := by
  simpa [joinPath] using h

/-- An add line reads back as the file it was written for, and as nothing else, exactly
when its base name and both measurements are non-empty and free of white space. -/
theorem addLine_parses_back_iff (db_dir : Bytes) (item : ℤ × FileMeta) (hl : IsInt32 item.1)
    (hn : item.2.file_number < 2 ^ 64) (hs : item.2.file_size < 2 ^ 64) :
    ParsesBack db_dir item ↔ TokenLine item.2 := by
  constructor
  · intro h
    have hmem : ManifestLine.add item.1 (item.2.rebase db_dir) ∈
        parseManifest db_dir (addLine item) := by rw [h]; simp
    obtain ⟨line, -, hline⟩ := List.mem_map.mp hmem
    obtain ⟨fname, h1, h2, h3, h4⟩ := tokens_of_parseLine hline
    have hname : baseName item.2.file_name = fname := joinPath_inj h1
    exact ⟨hname ▸ h2, h3, h4⟩
  · intro ht
    have h := parseManifest_addLine db_dir item hl hn hs ht []
    rw [List.append_nil] at h
    exact h

theorem addLine_parses_back_iff_cpu :
    (IsInt32 0 ∧ (7 : ℕ) < 2 ^ 64 ∧ (120 : ℕ) < 2 ^ 64) ∧
      (ParsesBack (ascii "db")
        (0, ⟨7, ascii "db/000007.sst", 120, ⟨ascii "cpu", 1⟩, ⟨ascii "mem", 9⟩⟩) ↔
      TokenLine ⟨7, ascii "db/000007.sst", 120, ⟨ascii "cpu", 1⟩, ⟨ascii "mem", 9⟩⟩) :=
  ⟨by unfold IsInt32; norm_num,
    addLine_parses_back_iff (ascii "db")
      (0, ⟨7, ascii "db/000007.sst", 120, ⟨ascii "cpu", 1⟩, ⟨ascii "mem", 9⟩⟩)
      (by unfold IsInt32; norm_num) (by norm_num) (by norm_num)⟩

/-- A blank inside a measurement: the second word is taken for the timestamp and the
line is refused. -/
theorem blank_in_measurement :
    ¬ ParsesBack (ascii "db")
      (0, ⟨7, ascii "db/000007.sst", 120, ⟨ascii "cpu load", 1⟩, ⟨ascii "cpu load", 9⟩⟩) := by
  intro h
  have hmem : ManifestLine.add 0 (FileMeta.rebase (ascii "db")
      ⟨7, ascii "db/000007.sst", 120, ⟨ascii "cpu load", 1⟩, ⟨ascii "cpu load", 9⟩⟩) ∈
      parseManifest (ascii "db") (addLine
        (0, ⟨7, ascii "db/000007.sst", 120, ⟨ascii "cpu load", 1⟩, ⟨ascii "cpu load", 9⟩⟩)) := by
    rw [h]; simp
  obtain ⟨line, -, hline⟩ := List.mem_map.mp hmem
  obtain ⟨fname, -, -, h3, -⟩ := tokens_of_parseLine hline
  revert h3
  decide +kernel

end MiniTsdb
