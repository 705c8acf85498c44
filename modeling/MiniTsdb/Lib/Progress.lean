import MiniTsdb.Lib.Runs

/-! Endless runs and measures: work that lowers a well-founded measure ends. -/

namespace Lib

variable {σ α β : Type*} [PartialOrder β] [WellFoundedLT β]

/-- A sequence that never rises falls only finitely often. -/
theorem finite_falls {f : ℕ → β} (h : ∀ n, f (n + 1) ≤ f n) : {n | f (n + 1) < f n}.Finite := by
  obtain ⟨last, hlast⟩ := WellFoundedLT.antitone_chain_condition (antitone_nat_of_succ_le h)
  refine (Set.finite_lt_nat last).subset fun n hn => ?_
  by_contra hge
  have hsame := (hlast n (not_lt.mp hge)).symm.trans (hlast (n + 1) (Nat.le_succ_of_le (not_lt.mp hge)))
  exact absurd hsame.symm (ne_of_lt hn)

/-- Where no step raises a measure and every counted step lowers it, an endless run takes only
finitely many counted steps. -/
theorem finite_of_measure {step : σ → α → Option σ} {I : σ → Prop} {allowed counts : α → Prop}
    {measure : σ → β}
    (hstep : ∀ s a s', I s → allowed a → step s a = some s' →
      I s' ∧ measure s' ≤ measure s ∧ (counts a → measure s' < measure s))
    {run : ℕ → σ} {acts : ℕ → α} (h : I (run 0)) (hallowed : ∀ n, allowed (acts n))
    (hrun : ∀ n, step (run n) (acts n) = some (run (n + 1))) : {n | counts (acts n)}.Finite := by
  have hinv : ∀ n, I (run n) := by
    intro n
    induction n with
    | zero => exact h
    | succ n ih => exact (hstep _ _ _ ih (hallowed n) (hrun n)).1
  have hfalls : {n | measure (run (n + 1)) < measure (run n)}.Finite :=
    finite_falls (f := fun n => measure (run n)) fun n => (hstep _ _ _ (hinv n) (hallowed n) (hrun n)).2.1
  refine hfalls.subset fun n hn => ?_
  exact (hstep _ _ _ (hinv n) (hallowed n) (hrun n)).2.2 hn

end Lib
