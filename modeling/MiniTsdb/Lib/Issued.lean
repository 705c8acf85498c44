import Mathlib

/-! Numbers given out by a counter and not yet handed in: below the next number, each
once. -/

namespace Lib

structure Issued (next : ℕ) (waiting : List ℕ) : Prop where
  lt : ∀ n ∈ waiting, n < next
  nodup : waiting.Nodup

namespace Issued

variable {next next' : ℕ} {waiting waiting' done : List ℕ}

theorem issue (h : Issued next waiting) (hp : waiting'.Perm (next :: waiting)) :
    Issued (next + 1) waiting' := by
  constructor
  · intro n hn
    rcases List.mem_cons.mp (hp.subset hn) with rfl | hn
    · exact Nat.lt_succ_self _
    · exact Nat.lt_succ_of_lt (h.lt n hn)
  · apply hp.nodup_iff.mpr
    apply List.nodup_cons.mpr
    refine ⟨?_, h.nodup⟩
    intro hmem
    exact lt_irrefl _ (h.lt _ hmem)

theorem sublist (h : Issued next waiting) (hs : waiting'.Sublist waiting) (hle : next ≤ next') :
    Issued next' waiting' :=
  ⟨fun n hn => (h.lt n (hs.subset hn)).trans_le hle, h.nodup.sublist hs⟩

theorem handIn (h : Issued next waiting) (hp : waiting.Perm (done ++ waiting')) :
    Issued next waiting' ∧ (∀ n ∈ waiting', n ∈ waiting) ∧
      ∀ n ∈ done, n ∈ waiting ∧ n ∉ waiting' := by
  have hsub : ∀ n ∈ waiting', n ∈ waiting := by
    intro n hn
    exact hp.symm.subset (List.mem_append_right _ hn)
  have hnodup := hp.nodup_iff.mp h.nodup
  rw [List.nodup_append] at hnodup
  refine ⟨⟨fun n hn => h.lt n (hsub n hn), hnodup.2.1⟩, hsub, ?_⟩
  intro n hn
  refine ⟨hp.symm.subset (List.mem_append_left _ hn), ?_⟩
  intro hmem
  exact hnodup.2.2 n hn n hmem rfl

end Issued

end Lib
