import Mathlib

/-! Runs of a machine given by an executable step: which states a run reaches, and
the rule that carries an invariant along it. -/

namespace Lib

variable {σ α : Type*}

/-- The states reached from `s₀` by steps taken only where `ok` allows them. -/
inductive Reach (step : σ → α → Option σ) (ok : σ → α → Prop) (s₀ : σ) : σ → Prop
  | start : Reach step ok s₀ s₀
  | step {s s' : σ} {a : α} : Reach step ok s₀ s → ok s a → step s a = some s' →
      Reach step ok s₀ s'

variable {step : σ → α → Option σ} {ok : σ → α → Prop} {s₀ : σ}

theorem Reach.invariant {I : σ → Prop} (h0 : I s₀)
    (hstep : ∀ s a s', I s → ok s a → step s a = some s' → I s') {s : σ}
    (h : Reach step ok s₀ s) : I s := by
  induction h with
  | start => exact h0
  | step _ hok hs ih => exact hstep _ _ _ ih hok hs

theorem Reach.mono {ok' : σ → α → Prop} (h : ∀ s a, ok s a → ok' s a) {s : σ}
    (hr : Reach step ok s₀ s) : Reach step ok' s₀ s := by
  induction hr with
  | start => exact .start
  | step _ hok hs ih => exact ih.step (h _ _ hok) hs

theorem Reach.trans {s t : σ} (h₁ : Reach step ok s₀ s) (h₂ : Reach step ok s t) :
    Reach step ok s₀ t := by
  induction h₂ with
  | start => exact h₁
  | step _ hok hs ih => exact ih.step hok hs

theorem reach_foldlM {as : List α} {s : σ} (hok : ∀ a ∈ as, ∀ s, ok s a)
    (h : as.foldlM step s₀ = some s) : Reach step ok s₀ s := by
  induction as generalizing s₀ with
  | nil =>
    obtain rfl : s₀ = s := by simpa using h
    exact .start
  | cons a as ih =>
    rw [List.foldlM_cons] at h
    obtain ⟨s', hs', h'⟩ := Option.bind_eq_some_iff.mp h
    exact (Reach.start.step (hok a List.mem_cons_self _) hs').trans
      (ih (fun b hb => hok b (List.mem_cons_of_mem a hb)) h')

/-- A step with its condition checked. -/
def guarded (step : σ → α → Option σ) (ok : σ → α → Prop) [∀ s a, Decidable (ok s a)] (s : σ)
    (a : α) : Option σ :=
  if ok s a then step s a else none

/-- A run that was carried out is a run. -/
theorem reach_of_foldlM [∀ s a, Decidable (ok s a)] {as : List α} {s : σ}
    (h : as.foldlM (guarded step ok) s₀ = some s) : Reach step ok s₀ s := by
  induction as generalizing s₀ with
  | nil =>
    obtain rfl : s₀ = s := by simpa using h
    exact .start
  | cons a as ih =>
    rw [List.foldlM_cons] at h
    obtain ⟨s', hs', h'⟩ := Option.bind_eq_some_iff.mp h
    unfold guarded at hs'
    split_ifs at hs' with hok
    exact (Reach.start.step hok hs').trans (ih h')

theorem Reach.of_guarded [∀ s a, Decidable (ok s a)] {allowed : σ → α → Prop} {s : σ}
    (h : Reach (guarded step ok) allowed s₀ s) : Reach step (fun s a => ok s a ∧ allowed s a) s₀ s := by
  induction h with
  | start => exact .start
  | step _ hallowed hs ih =>
    unfold guarded at hs
    split_ifs at hs with hok
    exact ih.step ⟨hok, hallowed⟩ hs

/-- A guarded run that ends outside of its guard leaves it with the last step. -/
theorem guarded_leaves {P : σ → Prop} [DecidablePred P] {as : List α} {s : σ}
    (h : as.foldlM (guarded step fun s _ => P s) s₀ = some s) (h₀ : P s₀) (hs : ¬ P s) :
    ∃ before a t, as = before ++ [a] ∧ before.foldlM (guarded step fun s _ => P s) s₀ = some t ∧
      P t ∧ step t a = some s ∧ ∀ b ∈ before, ∃ u u', step u b = some u' ∧ P u' := by
  induction as generalizing s₀ with
  | nil =>
    obtain rfl : s₀ = s := by simpa using h
    exact absurd h₀ hs
  | cons a as ih =>
    rw [List.foldlM_cons] at h
    obtain ⟨t, ht, h⟩ := Option.bind_eq_some_iff.mp h
    have hstep : step s₀ a = some t := by
      unfold guarded at ht
      rwa [if_pos h₀] at ht
    by_cases hP : P t
    · obtain ⟨before, b, u, rfl, hbefore, hu, hlast, hinside⟩ := ih h hP
      refine ⟨a :: before, b, u, rfl, ?_, hu, hlast, fun c hc => ?_⟩
      · rw [List.foldlM_cons, ht]
        exact hbefore
      · rcases List.mem_cons.mp hc with rfl | hc
        · exact ⟨s₀, t, hstep, hP⟩
        · exact hinside c hc
    · cases as with
      | nil =>
        obtain rfl : t = s := by simpa using h
        exact ⟨[], a, s₀, rfl, rfl, h₀, hstep, fun b hb => by contradiction⟩
      | cons b as =>
        rw [List.foldlM_cons, guarded, if_neg hP] at h
        contradiction

/-- A budget that every counted step draws one from, and every paying step adds `c` to, bounds
how many steps a run counts. -/
theorem countP_le_of_budget {count pays : α → Bool} {allowed : α → Prop} {P : ℕ → σ → Prop} {c : ℕ}
    (hstep : ∀ n s a s', P n s → allowed a → step s a = some s' →
      ∃ m, m + (if count a then 1 else 0) ≤ n + (if pays a then c else 0) ∧ P m s')
    {as : List α} {s s' : σ} {n : ℕ} (h : P n s) (hallowed : ∀ a ∈ as, allowed a)
    (hrun : as.foldlM step s = some s') : as.countP count ≤ n + c * as.countP pays := by
  induction as generalizing s n with
  | nil => simp
  | cons a as ih =>
    rw [List.foldlM_cons] at hrun
    obtain ⟨s₁, hs, hrun⟩ := Option.bind_eq_some_iff.mp hrun
    obtain ⟨m, hm, hnext⟩ := hstep n s a s₁ h (hallowed a List.mem_cons_self) hs
    have hrest := ih hnext (fun b hb => hallowed b (List.mem_cons_of_mem a hb)) hrun
    rw [List.countP_cons, List.countP_cons, Nat.mul_add]
    split_ifs at hm ⊢ <;> omega

end Lib
