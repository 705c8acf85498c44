import Mathlib

/-! Lists in strictly ascending order of a key. Such a list is determined by its
members and holds at most one member for each key. -/

namespace Lib

variable {α β : Type*} [LinearOrder β] {f : α → β} {xs ys : List α}

def Ascending (f : α → β) (xs : List α) : Prop := xs.Pairwise fun a b => f a < f b

@[simp] theorem ascending_nil : Ascending f [] := List.Pairwise.nil

@[simp] theorem ascending_cons {a : α} :
    Ascending f (a :: xs) ↔ (∀ b ∈ xs, f a < f b) ∧ Ascending f xs := List.pairwise_cons

theorem ascending_append :
    Ascending f (xs ++ ys) ↔ Ascending f xs ∧ Ascending f ys ∧ ∀ a ∈ xs, ∀ b ∈ ys, f a < f b :=
  List.pairwise_append

theorem Ascending.sublist (h : Ascending f ys) (hs : xs.Sublist ys) : Ascending f xs :=
  List.Pairwise.sublist hs h

theorem Ascending.filter (h : Ascending f xs) (p : α → Bool) : Ascending f (xs.filter p) :=
  h.sublist List.filter_sublist

theorem Ascending.nodup (h : Ascending f xs) : xs.Nodup :=
  h.imp fun hlt heq => (heq ▸ hlt).false

theorem Ascending.nodup_map (h : Ascending f xs) : (xs.map f).Nodup :=
  List.pairwise_map.mpr (h.imp fun hlt => hlt.ne)

theorem Ascending.inj (h : Ascending f xs) {a b : α} (ha : a ∈ xs) (hb : b ∈ xs)
    (heq : f a = f b) : a = b :=
  List.inj_on_of_nodup_map h.nodup_map ha hb heq

theorem Ascending.lookup_eq_some [BEq β] [LawfulBEq β] {γ : Type*} {entries : List (β × γ)}
    (h : Ascending Prod.fst entries) {e : β × γ} (he : e ∈ entries) :
    entries.lookup e.1 = some e.2 := by
  induction entries with
  | nil => contradiction
  | cons first entries ih =>
    obtain ⟨hfirst, hrest⟩ := ascending_cons.mp h
    rw [List.lookup_cons]
    rcases List.mem_cons.mp he with rfl | he
    · rw [beq_self_eq_true]
    · have hne : (e.1 == first.1) = false := by simpa using (hfirst e he).ne'
      rw [hne]
      exact ih hrest he

theorem Ascending.filter_eq_singleton (h : Ascending f xs) {a : α} (ha : a ∈ xs) :
    (xs.filter fun b => f b = f a) = [a] := by
  induction xs with
  | nil => contradiction
  | cons first xs ih =>
    obtain ⟨hfirst, hrest⟩ := ascending_cons.mp h
    rcases List.mem_cons.mp ha with rfl | ha
    · have hnone : (xs.filter fun b => f b = f a) = [] :=
        List.filter_eq_nil_iff.mpr fun b hb => by simpa using (hfirst b hb).ne'
      simp [hnone]
    · have hne : f first ≠ f a := (hfirst a ha).ne
      simp [hne, ih hrest ha]

theorem Ascending.takeWhile_lt (h : Ascending f xs) (b : β) :
    (xs.takeWhile fun a => f a < b) = xs.filter fun a => f a < b := by
  induction xs with
  | nil => rfl
  | cons a xs ih =>
    obtain ⟨hfirst, hrest⟩ := ascending_cons.mp h
    by_cases hlt : f a < b
    · simp [hlt, ih hrest]
    · have hnone : (xs.filter fun a => f a < b) = [] := by
        rw [List.filter_eq_nil_iff]
        intro c hc
        simpa using (not_lt.mp hlt).trans (hfirst c hc).le
      simp [hlt, hnone]

theorem Ascending.dropWhile_lt (h : Ascending f xs) (b : β) :
    (xs.dropWhile fun a => f a < b) = xs.filter fun a => b ≤ f a := by
  induction xs with
  | nil => rfl
  | cons a xs ih =>
    obtain ⟨hfirst, hrest⟩ := ascending_cons.mp h
    by_cases hlt : f a < b
    · simp [hlt, ih hrest]
    · have hall : (xs.filter fun a => b ≤ f a) = xs := by
        rw [List.filter_eq_self]
        intro c hc
        simpa using (not_lt.mp hlt).trans (hfirst c hc).le
      simp [hlt, not_lt.mp hlt, hall]

theorem Ascending.filter_append (h : Ascending f xs) (b : β) :
    ((xs.filter fun a => f a < b) ++ xs.filter fun a => b ≤ f a) = xs := by
  rw [← h.takeWhile_lt, ← h.dropWhile_lt, List.takeWhile_append_dropWhile]

/-- Two ascending lists with the same members are the same list. -/
theorem Ascending.ext (hx : Ascending f xs) (hy : Ascending f ys) (h : ∀ a, a ∈ xs ↔ a ∈ ys) :
    xs = ys := by
  have hperm : xs.Perm ys := (List.perm_ext_iff_of_nodup hx.nodup hy.nodup).mpr h
  refine hperm.eq_of_pairwise (fun a b _ _ hab hba => ?_) hx hy
  exact absurd hba (not_lt_of_gt hab)

def sortBy (f : α → β) (xs : List α) : List α := xs.insertionSort fun a b => f a ≤ f b

@[simp] theorem mem_sortBy {a : α} : a ∈ sortBy f xs ↔ a ∈ xs := List.mem_insertionSort _

theorem sortBy_perm (xs : List α) : (sortBy f xs).Perm xs := List.perm_insertionSort _ _

theorem ascending_sortBy (h : (xs.map f).Nodup) : Ascending f (sortBy f xs) := by
  have hle : (sortBy f xs).Pairwise fun a b => f a ≤ f b := by
    have : Std.Total fun a b : α => f a ≤ f b := ⟨fun a b => le_total (f a) (f b)⟩
    have : IsTrans α fun a b => f a ≤ f b := ⟨fun _ _ _ => le_trans⟩
    exact List.pairwise_insertionSort _ xs
  have hne : (sortBy f xs).Pairwise fun a b => f a ≠ f b :=
    List.pairwise_map.mp (((sortBy_perm xs).map f).nodup_iff.mpr h)
  exact (hle.and hne).imp fun hab => lt_of_le_of_ne hab.1 hab.2

theorem sortBy_eq_of_ascending (h : Ascending f xs) : sortBy f xs = xs :=
  (ascending_sortBy h.nodup_map).ext h fun _ => mem_sortBy

/-- A search from the end meets the last member that the function is defined on. -/
theorem Ascending.findSome?_reverse_eq_some_iff {γ : Type*} (h : Ascending f xs) {g : α → Option γ}
    {c : γ} : xs.reverse.findSome? g = some c ↔
      ∃ a ∈ xs, g a = some c ∧ ∀ b ∈ xs, (g b).isSome → f b ≤ f a := by
  rw [List.findSome?_eq_some_iff]
  refine ⟨?_, ?_⟩
  · rintro ⟨after, a, before, hsplit, ha, hnone⟩
    have hxs : xs = before.reverse ++ a :: after.reverse := by
      rw [← List.reverse_inj, hsplit]
      simp
    rw [hxs] at h ⊢
    obtain ⟨-, -, hlt⟩ := ascending_append.mp h
    refine ⟨a, by simp, ha, fun b hb hsome => ?_⟩
    rcases List.mem_append.mp hb with hb | hb
    · exact (hlt b hb a List.mem_cons_self).le
    · rcases List.mem_cons.mp hb with rfl | hb
      · exact le_rfl
      · rw [hnone b (List.mem_reverse.mp hb)] at hsome
        contradiction
  · rintro ⟨a, ha, hsome, hmax⟩
    obtain ⟨before, after, rfl⟩ := List.append_of_mem ha
    obtain ⟨-, hlast, -⟩ := ascending_append.mp h
    refine ⟨after.reverse, a, before.reverse, by simp, hsome, fun b hb => ?_⟩
    have hlt := (ascending_cons.mp hlast).1 b (List.mem_reverse.mp hb)
    cases hg : g b with
    | none => rfl
    | some c' =>
      have hle := hmax b (List.mem_append_right _ (List.mem_cons_of_mem a (List.mem_reverse.mp hb)))
        (by rw [hg]; rfl)
      exact absurd hlt (not_lt.mpr hle)

end Lib
