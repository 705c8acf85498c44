import MiniTsdb.Spec.MemTable

/-! What a memtable holds: a look-up finds the last operation on a key, and a flush iterates
over the keys from `TsKey{}` on. -/

namespace MiniTsdb
open Lib

theorem lookup_insertEntry (key : TsKey) (value : InternalEntry)
    (nodes : List (TsKey × InternalEntry)) (k : TsKey) :
    (insertEntry key value nodes).lookup k = if k = key then some value else nodes.lookup k := by
  have hbeq : ∀ a : TsKey, (k == a) = decide (k = a) := fun a => rfl
  induction nodes with
  | nil =>
    rw [insertEntry, List.lookup_cons, hbeq]
    by_cases hk : k = key <;> simp [hk]
  | cons node nodes ih =>
    rw [insertEntry, List.lookup_cons, hbeq]
    by_cases hlt : tsKeyComparator node.1 key = .lt
    · rw [if_pos hlt, List.lookup_cons, hbeq, ih]
      by_cases hk : k = key
      · have hne : k ≠ node.1 := hk ▸ (tsKeyComparator_lt_iff.mp hlt).ne'
        simp [hk, hk ▸ hne]
      · rw [if_neg hk, if_neg hk]
    · rw [if_neg hlt]
      by_cases heq : tsKeyComparator key node.1 = .eq
      · rw [if_pos heq, List.lookup_cons, hbeq, ← tsKeyComparator_eq_iff.mp heq]
        by_cases hk : k = key <;> simp [hk]
      · rw [if_neg heq, List.lookup_cons, List.lookup_cons, hbeq, hbeq]
        by_cases hk : k = key <;> simp [hk]

/-- What is not below a bound, of an ascending list. -/
theorem lookup_dropWhile {nodes : List (TsKey × InternalEntry)} (h : Ascending Prod.fst nodes)
    (bound key : TsKey) :
    (nodes.dropWhile fun node => tsKeyComparator node.1 bound == .lt).lookup key =
      if bound ≤ key then nodes.lookup key else none := by
  induction nodes with
  | nil => simp
  | cons node nodes ih =>
    obtain ⟨hfirst, hrest⟩ := ascending_cons.mp h
    rw [List.dropWhile_cons]
    split_ifs with hlt hle hle
    · rw [ih hrest, if_pos hle, List.lookup_cons]
      have hnode : node.1 < bound := tsKeyComparator_lt_iff.mp (beq_iff_eq.mp hlt)
      have hne : (key == node.1) = false := by simpa using (hnode.trans_le hle).ne'
      rw [hne]
    · rw [ih hrest, if_neg hle]
    · rfl
    · -- every key is at or above the bound
      have hnode : bound ≤ node.1 := by
        refine not_lt.mp fun hgt => hlt ?_
        rw [tsKeyComparator_lt_iff.mpr hgt]
        rfl
      rw [List.lookup_eq_none_iff]
      intro e he
      have hkey : key < e.1 := by
        rcases List.mem_cons.mp he with rfl | he
        · exact (not_le.mp hle).trans_le hnode
        · exact (not_le.mp hle).trans_le (hnode.trans (hfirst e he).le)
      simpa using hkey.ne

theorem getEntry_eq_lookup (m : MemTable) (key : TsKey) : m.getEntry key = m.table.lookup key := by
  have hlookup := lookup_dropWhile m.ascending key key
  rw [if_pos le_rfl] at hlookup
  rw [MemTable.getEntry, MemTable.findGreaterOrEqual, ← hlookup]
  have hasc : Ascending Prod.fst (m.table.dropWhile fun node => tsKeyComparator node.1 key == .lt) :=
    m.ascending.sublist (List.dropWhile_sublist _)
  have hhead : ∀ node nodes, (m.table.dropWhile fun node => tsKeyComparator node.1 key == .lt) =
      node :: nodes → ¬ node.1 < key := by
    intro node nodes heq hlt
    have hne : (m.table.dropWhile fun node => tsKeyComparator node.1 key == .lt) ≠ [] := by simp [heq]
    have hstop := List.head_dropWhile_not _ hne
    simp only [heq, List.head_cons] at hstop
    rw [tsKeyComparator_lt_iff.mpr hlt] at hstop
    contradiction
  cases hd : m.table.dropWhile fun node => tsKeyComparator node.1 key == .lt with
  | nil => rfl
  | cons node nodes =>
    rw [hd] at hasc
    dsimp only
    split_ifs with heq
    · have hbeq : (key == node.1) = true := by simp [tsKeyComparator_eq_iff.mp heq]
      rw [List.lookup_cons, hbeq]
    · symm
      rw [List.lookup_eq_none_iff]
      intro e he
      have hne : key ≠ node.1 := fun h => heq (tsKeyComparator_eq_iff.mpr h)
      have hlt : key < node.1 := lt_of_le_of_ne (not_lt.mp (hhead node nodes hd)) hne
      rcases List.mem_cons.mp he with rfl | he
      · simpa using hne
      · simpa using (hlt.trans ((ascending_cons.mp hasc).1 e he)).ne

@[simp] theorem getEntry_new (key : TsKey) : MemTable.new.getEntry key = none := rfl

theorem getEntry_apply (m : MemTable) (op : Operation) (key : TsKey) :
    (m.apply op).getEntry key = if key = op.key then some op.entry else m.getEntry key := by
  rw [getEntry_eq_lookup, getEntry_eq_lookup]
  cases op with
  | put measurement timestamp value => exact lookup_insertEntry _ _ _ _
  | delete measurement timestamp => exact lookup_insertEntry _ _ _ _

theorem ascending_iterateEntries (m : MemTable) : Ascending Prod.fst m.iterateEntries :=
  m.ascending.sublist (List.dropWhile_sublist _)

theorem lookup_iterateEntries (m : MemTable) (key : TsKey) :
    m.iterateEntries.lookup key = if TsKey.default ≤ key then m.getEntry key else none := by
  rw [getEntry_eq_lookup]
  exact lookup_dropWhile m.ascending _ _

/-- The last operation on a key in a list of operations. -/
def lastIn (ops : List Operation) (key : TsKey) : Option InternalEntry :=
  (ops.reverse.find? fun op => op.key = key).map Operation.entry

@[simp] theorem lastIn_nil (key : TsKey) : lastIn [] key = none := rfl

theorem lastIn_append (as bs : List Operation) (key : TsKey) :
    lastIn (as ++ bs) key = (lastIn bs key).or (lastIn as key) := by
  rw [lastIn, lastIn, lastIn, List.reverse_append, List.find?_append]
  cases bs.reverse.find? fun op => op.key = key <;> rfl

theorem lastIn_singleton (op : Operation) (key : TsKey) :
    lastIn [op] key = if key = op.key then some op.entry else none := by
  rw [lastIn, List.reverse_singleton, List.find?_singleton]
  by_cases h : op.key = key
  · simp [h]
  · simp [h, Ne.symm h]

theorem getEntry_foldl_apply (ops : List Operation) (m : MemTable) (key : TsKey) :
    (ops.foldl MemTable.apply m).getEntry key = (lastIn ops key).or (m.getEntry key) := by
  induction ops generalizing m with
  | nil => rfl
  | cons op ops ih =>
    rw [List.foldl_cons, ih, getEntry_apply, ← List.singleton_append, lastIn_append,
      lastIn_singleton, Option.or_assoc]
    congr 1
    split_ifs <;> rfl

end MiniTsdb
