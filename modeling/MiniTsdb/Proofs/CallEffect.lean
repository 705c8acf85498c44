import MiniTsdb.Proofs.EngineSteps

/-! What the operations that a step applies change: the data of their own keys, and the clocks
of their measurements. This holds in any state. -/

namespace MiniTsdb
open Lib

/-- What a read finds before the TTL rules. -/
def Engine.stored (e : Engine) (key : TsKey) : Option Bytes :=
  ReadView.get { e.captureReadView with ttl_map := fun _ => none } key

theorem get_eq_stored (e : Engine) (key : TsKey) :
    e.get key = if isExpiredInMap e.ttl_map key.measurement key.timestamp then none
      else e.stored key := rfl

/-- The clocks after some operations, the newest first. -/
def clocksAfter (ttl_map : TtlMap) : List Operation → TtlMap
  | [] => ttl_map
  | op :: ops => updateLatestTimestamp (clocksAfter ttl_map ops) op.measurement op.timestamp

theorem stored_rotate {e : Engine} (himm : e.imm = none) (key : TsKey) :
    e.rotate.stored key = e.stored key := by
  unfold Engine.stored ReadView.get Engine.captureReadView Engine.rotate
  simp only [getEntry_new, himm, Option.bind_some, Option.bind_none]

theorem stored_applyOp (e : Engine) (id : ℕ) {op : Operation} {key : TsKey} (hne : key ≠ op.key) :
    (e.applyOp id op).stored key = e.stored key := by
  unfold Engine.stored ReadView.get Engine.captureReadView Engine.applyOp
  dsimp only
  rw [getEntry_apply, if_neg hne]

/-- `e'` is `e` with the operations `l` applied, the newest first. -/
structure Engine.Applied (e : Engine) (l : List (ℕ × Operation)) (e' : Engine) : Prop where
  applied : e'.applied = l ++ e.applied
  clocks : e'.ttl_map = clocksAfter e.ttl_map (l.map Prod.snd)
  stored : ∀ key, (∀ a ∈ l, key ≠ a.2.key) → e'.stored key = e.stored key

theorem Engine.Applied.refl (e : Engine) : e.Applied [] e := ⟨rfl, rfl, fun _ _ => rfl⟩

theorem callRule_applied (e : Engine) : CallRule fun e' => ∃ l, e.Applied l e' := by
  refine ⟨?_, ?_, ?_⟩
  · rintro e' wal calls n ⟨l, h⟩
    exact ⟨l, h.applied, h.clocks, h.stored⟩
  · rintro e' ⟨l, h⟩ himm -
    refine ⟨l, h.applied, h.clocks, fun key hl => ?_⟩
    rw [stored_rotate himm, h.stored key hl]
  · rintro e' id op ⟨l, h⟩
    refine ⟨(id, op) :: l, ?_, ?_, fun key hl => ?_⟩
    · rw [Engine.applyOp, h.applied, List.cons_append]
    · rw [Engine.applyOp, h.clocks]
      rfl
    · rw [stored_applyOp e' id (hl _ List.mem_cons_self),
        h.stored key fun a ha => hl a (List.mem_cons_of_mem _ ha)]

/-- The steps by what they apply: those of calls, `SetTTL`, a crash, and all others, which leave
clocks and history alone. -/
inductive Engine.Effect (e : Engine) : EngineAction → Engine → Prop
  | call {a : EngineAction} {e' : Engine} (l : List (ℕ × Operation)) (h : e.Applied l e') : e.Effect a e'
  | setTTL (m : Bytes) (ttl_seconds : Int64) : e.Effect (.setTTL m ttl_seconds)
      { e with ttl_map := MiniTsdb.setTTL e.ttl_map m ttl_seconds }
  | background {a : EngineAction} {e' : Engine} (happlied : e'.applied = e.applied)
      (hclocks : e'.ttl_map = e.ttl_map) : e.Effect a e'
  | crash : e.Effect .crash e.crash

theorem step_effect {e e' : Engine} {a : EngineAction} (hs : e.step a = some e') : e.Effect a e' := by
  have hrefl : ∃ l, e.Applied l e := ⟨[], .refl e⟩
  cases step_kind hs with
  | noop => exact .call [] (.refl e)
  | enter _ =>
    obtain ⟨l, h⟩ := (callRule_applied e).enter hrefl _
    exact .call l h
  | resume hr =>
    obtain ⟨l, h⟩ := (callRule_applied e).resume hrefl hr
    exact .call l h
  | rotate hr =>
    obtain ⟨rfl, -, -⟩ := flushMem_eq hr
    exact .background rfl rfl
  | takeImm ht =>
    obtain ⟨m, -, -, rfl⟩ := takeImm_eq ht
    exact .background rfl rfl
  | buildSST hb =>
    obtain ⟨m, s, -, -, rfl⟩ := buildSST_eq hb
    exact .background rfl rfl
  | logFlush hl =>
    obtain ⟨m, s, -, -, rfl⟩ := logFlush_eq hl
    exact .background rfl rfl
  | finishFlush hf =>
    obtain ⟨m, -, rfl⟩ := finishFlush_eq hf
    exact .background rfl rfl
  | store hb hstep => exact .background rfl rfl
  | commit hfree hstep => exact .background rfl rfl
  | setTTL => exact .setTTL _ _
  | closing _ hc =>
    rw [closing_eq hc]
    exact .background rfl rfl
  | shutdown _ hd =>
    obtain ⟨s, -, rfl⟩ := shutdown_spec hd
    exact .background rfl rfl
  | crash => exact .crash

/-- A step that applies operations leaves the data of all other keys as it was, and moves the
clocks by these operations. -/
theorem applied_of_step {e e' : Engine} {a : EngineAction} {l : List (ℕ × Operation)}
    (hs : e.step a = some e') (hl : l ≠ []) (happlied : e'.applied = l ++ e.applied) :
    e.Applied l e' := by
  have hlonger : ¬ e'.applied.length ≤ e.applied.length := by
    have hpos := List.length_pos_of_ne_nil hl
    rw [happlied, List.length_append]
    omega
  cases step_effect hs with
  | call l' h =>
    obtain rfl : l = l' := List.append_cancel_right (happlied.symm.trans h.applied)
    exact h
  | setTTL m ttl_seconds => exact absurd le_rfl hlonger
  | background hsame _ => exact absurd (congrArg List.length hsame).le hlonger
  | crash => exact absurd (List.length_filter_le _ _) hlonger

/-- Every other step moves the clocks by the operations that it applies. -/
theorem clocks_of_step {e e' : Engine} {a : EngineAction} {l : List (ℕ × Operation)}
    (hs : e.step a = some e') (ha : a.ordinary = true) (happlied : e'.applied = l ++ e.applied) :
    e'.ttl_map = clocksAfter e.ttl_map (l.map Prod.snd) := by
  cases step_effect hs with
  | call l' h =>
    obtain rfl : l = l' := List.append_cancel_right (happlied.symm.trans h.applied)
    exact h.clocks
  | setTTL m ttl_seconds => contradiction
  | background hsame hclocks =>
    obtain rfl : l = [] := List.append_left_eq_self.mp (happlied.symm.trans hsame)
    exact hclocks
  | crash => contradiction

end MiniTsdb
