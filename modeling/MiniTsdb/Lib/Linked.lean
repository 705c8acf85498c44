import Mathlib

/-! Singly linked lists, given by the successor of each cell: which cells are linked from a
given one to the end, and what splicing a new cell in does. -/

namespace Lib

variable {ι : Type*} {next next' : ι → Option ι} {p n : ι} {as bs : List ι}

/-- From `p` the links lead through the cells of a list, and end there. -/
def Linked (next : ι → Option ι) : ι → List ι → Prop
  | p, [] => next p = none
  | p, q :: l => next p = some q ∧ Linked next q l

@[simp] theorem linked_nil : Linked next p [] ↔ next p = none := Iff.rfl

@[simp] theorem linked_cons {q : ι} : Linked next p (q :: bs) ↔ next p = some q ∧ Linked next q bs :=
  Iff.rfl

theorem Linked.head? (h : Linked next p bs) : next p = bs.head? := by
  cases bs with
  | nil => exact h
  | cons q bs => exact h.1

theorem Linked.unique (ha : Linked next p as) (hb : Linked next p bs) : as = bs := by
  induction as generalizing p bs with
  | nil =>
    have hhead := hb.head?
    rw [linked_nil.mp ha] at hhead
    exact (List.head?_eq_none_iff.mp hhead.symm).symm
  | cons a as ih =>
    cases bs with
    | nil => simp_all
    | cons b bs =>
      obtain rfl : a = b := Option.some.inj (ha.1.symm.trans hb.1)
      rw [ih ha.2 hb.2]

theorem Linked.congr (h : Linked next p bs) (hsame : ∀ q ∈ p :: bs, next' q = next q) :
    Linked next' p bs := by
  induction bs generalizing p with
  | nil =>
    rw [linked_nil, hsame p List.mem_cons_self]
    exact h
  | cons q bs ih =>
    refine ⟨(hsame p List.mem_cons_self).trans h.1, ih h.2 fun r hr => ?_⟩
    exact hsame r (List.mem_cons_of_mem p hr)

theorem Linked.drop (h : Linked next p (as ++ bs)) : Linked next (as.getLastD p) bs := by
  induction as generalizing p with
  | nil => exact h
  | cons a as ih =>
    rw [List.getLastD_cons]
    exact ih h.2

variable [DecidableEq ι]

def spliced (next : ι → Option ι) (pred n : ι) : ι → Option ι :=
  Function.update (Function.update next n (next pred)) pred (some n)

theorem spliced_pred (pred : ι) : spliced next pred n pred = some n := Function.update_self ..

theorem spliced_new {pred : ι} (h : n ≠ pred) : spliced next pred n n = next pred := by
  rw [spliced, Function.update_of_ne h, Function.update_self]

theorem spliced_other {pred q : ι} (hp : q ≠ pred) (hn : q ≠ n) : spliced next pred n q = next q := by
  rw [spliced, Function.update_of_ne hp, Function.update_of_ne hn]

theorem Linked.splice (h : Linked next p (as ++ bs)) (hnodup : (p :: (as ++ bs)).Nodup)
    (hn : n ∉ p :: (as ++ bs)) : Linked (spliced next (as.getLastD p) n) p (as ++ n :: bs) := by
  induction as generalizing p with
  | nil =>
    have hne : n ≠ p := fun he => hn (he ▸ List.mem_cons_self)
    have hnew : spliced next p n n = bs.head? := (spliced_new hne).trans h.head?
    refine ⟨spliced_pred p, ?_⟩
    cases bs with
    | nil => exact hnew
    | cons q bs =>
      refine ⟨hnew, h.2.congr fun r hr => spliced_other (fun (he : r = p) => ?_) fun he => ?_⟩
      · exact (List.nodup_cons.mp hnodup).1 (he ▸ hr)
      · exact hn (List.mem_cons_of_mem p (he ▸ hr))
  | cons a as ih =>
    obtain ⟨hp, hrest⟩ := List.nodup_cons.mp hnodup
    have hlast : as.getLastD a ∈ a :: as := List.getLastD_mem_cons ..
    rw [List.getLastD_cons, List.cons_append]
    refine ⟨?_, ih h.2 hrest fun hmem => hn (List.mem_cons_of_mem p hmem)⟩
    rw [spliced_other]
    · exact h.1
    · rintro rfl
      exact hp (List.mem_append_left _ hlast)
    · exact fun he => hn (he ▸ List.mem_cons_self)

end Lib
