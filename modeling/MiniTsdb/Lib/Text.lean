import MiniTsdb.Lib.Bytes

/-! Text as the C++ streams see it in the classic locale: decimal numbers, blank
separated tokens, formatted extraction and `getline`. What was printed is what is
extracted, as long as a blank or the end of the text follows. -/

namespace Lib

def isSpace (b : Byte) : Bool := b.val == 32 || (9 ≤ b.val && b.val ≤ 13)
def isDigit (b : Byte) : Bool := 48 ≤ b.val && b.val ≤ 57

def newline : Byte := 10
def blank : Byte := 32

def ascii (s : String) : Bytes := s.toList.map fun c => Fin.ofNat 256 c.toNat

def digitByte (d : ℕ) : Byte := Fin.ofNat 256 (48 + d)

/-- `out << n` for an unsigned `n`. -/
def decimal (n : ℕ) : Bytes :=
  if n = 0 then [48] else (Nat.digits 10 n).reverse.map digitByte

/-- `out << i` for a signed `i`. -/
def decimalInt (i : ℤ) : Bytes := if i < 0 then 45 :: decimal i.natAbs else decimal i.natAbs

def digitsValue (s : Bytes) : ℕ := Nat.ofDigits 10 (s.reverse.map fun b => b.val - 48)

def skipSpace (s : Bytes) : Bytes := s.dropWhile isSpace

/-- `iss >> s` for a string: the token and the rest of the stream. -/
def readToken (s : Bytes) : Option (Bytes × Bytes) :=
  let t := skipSpace s
  if t.isEmpty then none
  else some (t.takeWhile fun b => !isSpace b, t.dropWhile fun b => !isSpace b)

/-- The sign and the digits of a number at the head of a stream. -/
def readNumber (s : Bytes) : Option (Bool × ℕ × Bytes) :=
  let t := skipSpace s
  let neg := t.head? == some 45
  let t := if neg || t.head? == some 43 then t.tail else t
  let ds := t.takeWhile isDigit
  if ds.isEmpty then none else some (neg, digitsValue ds, t.dropWhile isDigit)

/-- `iss >> n` for an unsigned integer of `w` bits; a negative number wraps. -/
def readUnsigned (w : ℕ) (s : Bytes) : Option (ℕ × Bytes) :=
  match readNumber s with
  | none => none
  | some (neg, v, rest) =>
    if 2 ^ w ≤ v then none else some (if neg then (2 ^ w - v) % 2 ^ w else v, rest)

/-- `iss >> i` for a signed integer of `w` bits. -/
def readSigned (w : ℕ) (s : Bytes) : Option (ℤ × Bytes) :=
  match readNumber s with
  | none => none
  | some (neg, v, rest) =>
    let i : ℤ := if neg then -v else v
    if -2 ^ (w - 1) ≤ i ∧ i < 2 ^ (w - 1) then some (i, rest) else none

/-- The lines that repeated `getline` calls return. -/
def getLines : Bytes → List Bytes
  | [] => []
  | b :: bs =>
    if b = newline then [] :: getLines bs
    else match getLines bs with
      | [] => [[b]]
      | l :: ls => (b :: l) :: ls

/-- A string that `>>` reads back whole. -/
def IsToken (s : Bytes) : Prop := s ≠ [] ∧ ∀ b ∈ s, isSpace b = false

instance (s : Bytes) : Decidable (IsToken s) := by unfold IsToken; infer_instance

/-- A stream that is at its end or at a blank. -/
def AtBlank (s : Bytes) : Prop := ∀ b ∈ s.head?, isSpace b = true

@[simp] theorem atBlank_nil : AtBlank [] := by simp [AtBlank]

@[simp] theorem atBlank_cons (b : Byte) (s : Bytes) : AtBlank (b :: s) ↔ isSpace b = true := by
  simp [AtBlank]

theorem digitByte_val {d : ℕ} (h : d < 10) : (digitByte d).val = 48 + d := by
  simp [digitByte, Fin.ofNat]; omega

theorem isDigit_digitByte {d : ℕ} (h : d < 10) : isDigit (digitByte d) = true := by
  simp [isDigit, digitByte_val h]; omega

theorem not_isSpace_of_isDigit {b : Byte} (h : isDigit b = true) : isSpace b = false := by
  simp only [isDigit, Bool.and_eq_true, decide_eq_true_eq] at h
  simp only [isSpace, Bool.or_eq_false_iff, beq_eq_false_iff_ne, Bool.and_eq_false_iff,
    decide_eq_false_iff_not]
  omega

theorem not_isDigit_of_isSpace {b : Byte} (h : isSpace b = true) : isDigit b = false := by
  by_contra hd
  simp [not_isSpace_of_isDigit (by simpa using hd)] at h

theorem decimal_ne_nil (n : ℕ) : decimal n ≠ [] := by
  unfold decimal
  split_ifs with h
  · simp
  · simpa using Nat.digits_ne_nil_iff_ne_zero.mpr h

theorem decimal_isDigit (n : ℕ) : ∀ b ∈ decimal n, isDigit b = true := by
  intro b hb
  unfold decimal at hb
  split_ifs at hb with h
  · rw [List.mem_singleton] at hb; subst hb; decide
  · obtain ⟨d, hd, rfl⟩ := List.mem_map.mp hb
    exact isDigit_digitByte (Nat.digits_lt_base (by norm_num) (List.mem_reverse.mp hd))

theorem digitsValue_decimal (n : ℕ) : digitsValue (decimal n) = n := by
  unfold digitsValue decimal
  split_ifs with h
  · simp [h]
  · have hmap : (Nat.digits 10 n).map (fun d => (digitByte d).val - 48) = Nat.digits 10 n := by
      conv_rhs => rw [← List.map_id (Nat.digits 10 n)]
      refine List.map_congr_left fun d hd => ?_
      rw [digitByte_val (Nat.digits_lt_base (by norm_num) hd)]
      simp
    rw [← List.map_reverse, List.reverse_reverse, List.map_map]
    change Nat.ofDigits 10 ((Nat.digits 10 n).map fun d => (digitByte d).val - 48) = n
    rw [hmap, Nat.ofDigits_digits]

theorem decimal_isToken (n : ℕ) : IsToken (decimal n) :=
  ⟨decimal_ne_nil n, fun b hb => not_isSpace_of_isDigit (decimal_isDigit n b hb)⟩

theorem decimalInt_isToken (i : ℤ) : IsToken (decimalInt i) := by
  unfold decimalInt
  split_ifs
  · refine ⟨by simp, fun b hb => ?_⟩
    rcases List.mem_cons.mp hb with rfl | hb
    · decide
    · exact (decimal_isToken _).2 b hb
  · exact decimal_isToken _

theorem takeWhile_append_stop {p : Byte → Bool} {s t : Bytes} (hs : ∀ b ∈ s, p b = true)
    (ht : ∀ b ∈ t.head?, p b = false) :
    (s ++ t).takeWhile p = s ∧ (s ++ t).dropWhile p = t := by
  have h1 : s.takeWhile p = s := List.takeWhile_eq_self_iff.mpr hs
  have h2 : s.dropWhile p = [] := List.dropWhile_eq_nil_iff.mpr hs
  cases t with
  | nil => simp [h1, h2]
  | cons b t =>
    have hb : p b = false := ht b (by simp)
    simp [List.takeWhile_append, List.dropWhile_append, h1, h2, hb]

theorem skipSpace_token {s : Bytes} (h : IsToken s) (rest : Bytes) :
    skipSpace (s ++ rest) = s ++ rest := by
  cases s with
  | nil => exact absurd rfl h.1
  | cons b s => simp [skipSpace, h.2 b (by simp)]

theorem skipSpace_blank (s : Bytes) : skipSpace (blank :: s) = skipSpace s := by
  simp [skipSpace, isSpace, blank]

theorem readToken_token {s rest : Bytes} (h : IsToken s) (hr : AtBlank rest) :
    readToken (s ++ rest) = some (s, rest) := by
  have hne : (s ++ rest).isEmpty = false := by simp [h.1]
  have hstop := takeWhile_append_stop (p := fun b => !isSpace b) (s := s) (t := rest)
    (fun b hb => by simp [h.2 b hb]) (fun b hb => by simp [hr b hb])
  simp only [readToken, skipSpace_token h, hne, hstop.1, hstop.2, Bool.false_eq_true, if_false]

theorem readToken_blank (s : Bytes) : readToken (blank :: s) = readToken s := by
  simp only [readToken, skipSpace_blank]

/-- Whatever `>>` extracts is a token. -/
theorem isToken_of_readToken {s tok rest : Bytes} (h : readToken s = some (tok, rest)) :
    IsToken tok := by
  unfold readToken at h
  dsimp only at h
  split_ifs at h with he
  simp only [Option.some.injEq, Prod.mk.injEq] at h
  obtain ⟨rfl, -⟩ := h
  refine ⟨?_, fun b hb => by simpa using List.mem_takeWhile_imp hb⟩
  cases hs : skipSpace s with
  | nil => simp [hs] at he
  | cons b t =>
    have hb : isSpace b = false := by
      have := List.head?_dropWhile_not isSpace s
      rw [show s.dropWhile isSpace = b :: t from hs] at this
      simpa using this
    simp [hb]

theorem readNumber_digits {ds rest : Bytes} (hne : ds ≠ []) (hd : ∀ b ∈ ds, isDigit b = true)
    (hr : AtBlank rest) : readNumber (ds ++ rest) = some (false, digitsValue ds, rest) := by
  obtain ⟨b, s, rfl⟩ := List.exists_cons_of_ne_nil hne
  have hb : isDigit b = true := hd b List.mem_cons_self
  have h45 : b ≠ 45 := by rintro rfl; revert hb; decide
  have h43 : b ≠ 43 := by rintro rfl; revert hb; decide
  have hstop := takeWhile_append_stop (p := isDigit) (t := rest) hd
    (fun c hc => not_isDigit_of_isSpace (hr c hc))
  have htok : IsToken (b :: s) := ⟨hne, fun c hc => not_isSpace_of_isDigit (hd c hc)⟩
  have hskip := skipSpace_token htok rest
  simp only [List.cons_append] at hstop hskip ⊢
  simp [readNumber, hskip, h45, h43, hstop.1, hstop.2]

theorem readNumber_minus {ds rest : Bytes} (hd : ∀ b ∈ ds, isDigit b = true)
    (hr : AtBlank rest) :
    readNumber (45 :: ds ++ rest) = if ds = [] then none else some (true, digitsValue ds, rest) := by
  have htok : IsToken (45 :: ds) :=
    ⟨by simp, fun b hb => by
      rcases List.mem_cons.mp hb with rfl | hb
      · decide
      · exact not_isSpace_of_isDigit (hd b hb)⟩
  have hstop := takeWhile_append_stop (p := isDigit) (t := rest) hd
    (fun c hc => not_isDigit_of_isSpace (hr c hc))
  have hskip : skipSpace (45 :: ds ++ rest) = 45 :: (ds ++ rest) := skipSpace_token htok rest
  simp only [readNumber, hskip, List.head?_cons]
  simp [hstop.1, hstop.2]

theorem readNumber_decimal (n : ℕ) {rest : Bytes} (hr : AtBlank rest) :
    readNumber (decimal n ++ rest) = some (false, n, rest) := by
  rw [readNumber_digits (decimal_ne_nil n) (decimal_isDigit n) hr, digitsValue_decimal]

theorem readNumber_negative (n : ℕ) {rest : Bytes} (hr : AtBlank rest) :
    readNumber (45 :: decimal n ++ rest) = some (true, n, rest) := by
  rw [readNumber_minus (decimal_isDigit n) hr, if_neg (decimal_ne_nil n), digitsValue_decimal]

theorem readNumber_blank (s : Bytes) : readNumber (blank :: s) = readNumber s := by
  simp only [readNumber, skipSpace_blank]

theorem readUnsigned_decimal {w n : ℕ} (h : n < 2 ^ w) {rest : Bytes} (hr : AtBlank rest) :
    readUnsigned w (decimal n ++ rest) = some (n, rest) := by
  simp only [readUnsigned, readNumber_decimal n hr]
  rw [if_neg (by omega)]
  rfl

theorem readUnsigned_blank (w : ℕ) (s : Bytes) : readUnsigned w (blank :: s) = readUnsigned w s := by
  simp only [readUnsigned, readNumber_blank]

theorem readSigned_decimalInt {w : ℕ} {i : ℤ} (h : -2 ^ (w - 1) ≤ i ∧ i < 2 ^ (w - 1))
    {rest : Bytes} (hr : AtBlank rest) :
    readSigned w (decimalInt i ++ rest) = some (i, rest) := by
  unfold decimalInt
  by_cases hi : i < 0
  · have hval : (if true = true then -(i.natAbs : ℤ) else (i.natAbs : ℤ)) = i := by
      rw [if_pos rfl]; omega
    rw [if_pos hi, readSigned, readNumber_negative i.natAbs hr]
    dsimp only
    rw [hval, if_pos h]
  · have hval : (if false = true then -(i.natAbs : ℤ) else (i.natAbs : ℤ)) = i := by
      rw [if_neg (by simp)]; omega
    rw [if_neg hi, readSigned, readNumber_decimal i.natAbs hr]
    dsimp only
    rw [hval, if_pos h]

theorem readSigned_range {w : ℕ} {s : Bytes} {r : ℤ × Bytes} (h : readSigned w s = some r) :
    -2 ^ (w - 1) ≤ r.1 ∧ r.1 < 2 ^ (w - 1) := by
  unfold readSigned at h
  split at h
  · contradiction
  · dsimp only at h
    split_ifs at h
    · obtain rfl := Option.some.inj h
      assumption
    · obtain rfl := Option.some.inj h
      assumption

theorem readSigned_blank (w : ℕ) (s : Bytes) : readSigned w (blank :: s) = readSigned w s := by
  simp only [readSigned, readNumber_blank]

theorem digitsValue_append (s t : Bytes) :
    digitsValue (s ++ t) = digitsValue s * 10 ^ t.length + digitsValue t := by
  simp only [digitsValue, List.reverse_append, List.map_append, Nat.ofDigits_append,
    List.length_map, List.length_reverse]
  ring

/-- The first digits of a number are a smaller number. -/
theorem digitsValue_take_lt {n j : ℕ} (h0 : 0 < j) (hj : j < (decimal n).length) :
    digitsValue ((decimal n).take j) < n := by
  have hsplit := digitsValue_append ((decimal n).take j) ((decimal n).drop j)
  rw [List.take_append_drop, digitsValue_decimal] at hsplit
  have hlen : 0 < ((decimal n).drop j).length := by rw [List.length_drop]; omega
  have hpow : 10 ^ 1 ≤ 10 ^ ((decimal n).drop j).length :=
    Nat.pow_le_pow_right (by norm_num) hlen
  rcases Nat.eq_zero_or_pos (digitsValue ((decimal n).take j)) with hz | hpos
  · rw [hz]
    refine Nat.pos_of_ne_zero ?_
    rintro rfl
    have : (decimal 0).length = 1 := rfl
    omega
  · have hmul := Nat.mul_le_mul_left (digitsValue ((decimal n).take j)) hpow
    omega

theorem readUnsigned_take {w n j : ℕ} {r : ℕ × Bytes}
    (h : readUnsigned w ((decimal n).take j) = some r) :
    r.2 = [] ∧ (j < (decimal n).length → r.1 < n) := by
  have hd : ∀ b ∈ (decimal n).take j, isDigit b = true :=
    fun b hb => decimal_isDigit n b (List.mem_of_mem_take hb)
  by_cases hne : (decimal n).take j = []
  · rw [hne] at h; contradiction
  · have hnum := readNumber_digits hne hd atBlank_nil
    rw [List.append_nil] at hnum
    rw [readUnsigned, hnum] at h
    simp only [Bool.false_eq_true, if_false] at h
    split_ifs at h
    obtain rfl := Option.some.inj h
    refine ⟨rfl, fun hj => digitsValue_take_lt (Nat.pos_of_ne_zero ?_) hj⟩
    rintro rfl
    exact hne rfl

theorem readSigned_take {w j : ℕ} {i : ℤ} {r : ℤ × Bytes}
    (h : readSigned w ((decimalInt i).take j) = some r) :
    r.2 = [] ∧ (j < (decimalInt i).length → r.1 ≠ i) := by
  unfold decimalInt at h ⊢
  by_cases hi : i < 0
  · rw [if_pos hi] at h ⊢
    cases j with
    | zero => contradiction
    | succ j =>
      have hd : ∀ b ∈ (decimal i.natAbs).take j, isDigit b = true :=
        fun b hb => decimal_isDigit _ b (List.mem_of_mem_take hb)
      have hnum := readNumber_minus hd atBlank_nil
      rw [List.append_nil] at hnum
      rw [List.take_succ_cons, readSigned, hnum] at h
      by_cases hne : (decimal i.natAbs).take j = []
      · rw [if_pos hne] at h; contradiction
      · rw [if_neg hne] at h
        simp only [if_true] at h
        split_ifs at h
        obtain rfl := Option.some.inj h
        refine ⟨rfl, fun hj => ?_⟩
        have h0 : 0 < j := Nat.pos_of_ne_zero (by rintro rfl; exact hne rfl)
        have hlt := digitsValue_take_lt h0 (Nat.lt_of_succ_lt_succ hj)
        dsimp only
        omega
  · rw [if_neg hi] at h ⊢
    have hd : ∀ b ∈ (decimal i.natAbs).take j, isDigit b = true :=
      fun b hb => decimal_isDigit _ b (List.mem_of_mem_take hb)
    by_cases hne : (decimal i.natAbs).take j = []
    · rw [hne] at h; contradiction
    · have hnum := readNumber_digits hne hd atBlank_nil
      rw [List.append_nil] at hnum
      rw [readSigned, hnum] at h
      simp only [Bool.false_eq_true, if_false] at h
      split_ifs at h
      obtain rfl := Option.some.inj h
      refine ⟨rfl, fun hj => ?_⟩
      have h0 : 0 < j := Nat.pos_of_ne_zero (by rintro rfl; exact hne rfl)
      have hlt := digitsValue_take_lt h0 hj
      dsimp only
      omega

/-- `rd` takes the field `f` in front of a blank for `v`, and a part of it whole. -/
structure ReadsField {α : Type} (rd : Bytes → Option (α × Bytes)) (f : Bytes) (v : α) : Prop where
  whole : ∀ rest, AtBlank rest → rd (f ++ rest) = some (v, rest)
  part : ∀ j r, rd (f.take j) = some r → r.2 = []
  skip : ∀ s, rd (blank :: s) = rd s

theorem readsField_token {f : Bytes} (h : IsToken f) : ReadsField readToken f f := by
  refine ⟨fun rest hr => readToken_token h hr, fun j r hr => ?_, readToken_blank⟩
  by_cases hne : f.take j = []
  · rw [hne] at hr; contradiction
  · have htok : IsToken (f.take j) := ⟨hne, fun b hb => h.2 b (List.mem_of_mem_take hb)⟩
    have hread := readToken_token htok atBlank_nil
    rw [List.append_nil, hr] at hread
    obtain rfl := Option.some.inj hread
    rfl

theorem readsField_unsigned {w n : ℕ} (h : n < 2 ^ w) :
    ReadsField (readUnsigned w) (decimal n) n :=
  ⟨fun _ hr => readUnsigned_decimal h hr, fun _ _ hr => (readUnsigned_take hr).1,
    readUnsigned_blank w⟩

theorem readsField_signed {w : ℕ} {i : ℤ} (h : -2 ^ (w - 1) ≤ i ∧ i < 2 ^ (w - 1)) :
    ReadsField (readSigned w) (decimalInt i) i :=
  ⟨fun _ hr => readSigned_decimalInt h hr, fun _ _ hr => (readSigned_take hr).1,
    readSigned_blank w⟩

/-- One field of a text that is cut short: either the cut is in it and leaves nothing to
read behind it, or the field is read and the cut is further on. -/
theorem ReadsField.cut {α : Type} {rd : Bytes → Option (α × Bytes)} {f : Bytes} {v : α}
    (h : ReadsField rd f v) (s : Bytes) (m : ℕ) :
    (m ≤ f.length + 1 ∧ (rd ((blank :: (f ++ blank :: s)).take m) = none ∨
      ∃ a, rd ((blank :: (f ++ blank :: s)).take m) = some (a, []))) ∨
    (f.length + 1 < m ∧ rd ((blank :: (f ++ blank :: s)).take m) =
      some (v, (blank :: s).take (m - (f.length + 1)))) := by
  rcases Nat.lt_or_ge (f.length + 1) m with hm | hm
  · right
    obtain ⟨d, rfl⟩ : ∃ d, m = f.length + 1 + (d + 1) := ⟨m - (f.length + 2), by omega⟩
    have htake : (blank :: (f ++ blank :: s)).take (f.length + 1 + (d + 1)) =
        blank :: (f ++ blank :: s.take d) := by
      rw [show f.length + 1 + (d + 1) = f.length + (d + 1) + 1 by ring, List.take_succ_cons,
        List.take_length_add_append, List.take_succ_cons]
    refine ⟨hm, ?_⟩
    rw [htake, h.skip, h.whole _ (by rw [atBlank_cons]; decide)]
    simp
  · left
    have hpart : ∀ j, rd (f.take j) = none ∨ ∃ a, rd (f.take j) = some (a, []) := by
      intro j
      cases hr : rd (f.take j) with
      | none => exact Or.inl rfl
      | some r => exact Or.inr ⟨r.1, by rw [← h.part j r hr]⟩
    refine ⟨hm, ?_⟩
    cases m with
    | zero => exact hpart 0
    | succ m =>
      rw [List.take_succ_cons, h.skip, List.take_append_of_le_length (Nat.le_of_succ_le_succ hm)]
      exact hpart m

theorem getLines_line {l : Bytes} (h : newline ∉ l) (rest : Bytes) :
    getLines (l ++ newline :: rest) = l :: getLines rest := by
  induction l with
  | nil => simp [getLines]
  | cons b l ih =>
    simp only [List.mem_cons, not_or] at h
    rw [List.cons_append, getLines, if_neg (Ne.symm h.1), ih h.2]

theorem getLines_last {l : Bytes} (h : newline ∉ l) (hne : l ≠ []) : getLines l = [l] := by
  induction l with
  | nil => contradiction
  | cons b l ih =>
    simp only [List.mem_cons, not_or] at h
    rw [getLines, if_neg (Ne.symm h.1)]
    cases l with
    | nil => rfl
    | cons c l => rw [ih h.2 (by simp)]

/-- A text that is empty or ends in a newline. -/
def Terminated (s : Bytes) : Prop := s = [] ∨ ∃ t, s = t ++ [newline]

theorem getLines_append {s : Bytes} (h : Terminated s) (rest : Bytes) :
    getLines (s ++ rest) = getLines s ++ getLines rest := by
  rcases h with rfl | ⟨t, rfl⟩
  · rfl
  · rw [List.append_assoc, List.singleton_append]
    induction t with
    | nil => simp [getLines]
    | cons b t ih =>
      rw [List.cons_append, List.cons_append, getLines, getLines, ih]
      split_ifs
      · rfl
      · cases hl : getLines (t ++ [newline]) with
        | nil =>
          exfalso
          cases t with
          | nil => simp [getLines] at hl
          | cons c t =>
            rw [List.cons_append, getLines] at hl
            split_ifs at hl
            split at hl <;> contradiction
        | cons l ls => rfl

theorem terminated_append {s t : Bytes} (hs : Terminated s) (ht : Terminated t) :
    Terminated (s ++ t) := by
  rcases ht with rfl | ⟨u, rfl⟩
  · simpa using hs
  · exact Or.inr ⟨s ++ u, by simp⟩

end Lib
