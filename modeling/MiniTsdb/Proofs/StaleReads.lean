import MiniTsdb.Proofs.ReadYourWrites

/-! Old values: when a read may return a version that a later write has replaced, with TTLs
set and changed at will. -/

namespace MiniTsdb
open Lib

/-- Steps that uncover no older version of a key: a commit that leaves the key out has a
newer version above its inputs, or none in or below them. -/
def Engine.Covers (key : TsKey) (e : Engine) : EngineAction → Prop
  | .commit _ _ => ∀ run, e.store.compaction = some run → run.keeps sstScanned key = true ∨
      e.store.inputVersions run.work.job key = [] ∨
      e.memVersions key ++ e.store.newer run.work.job key ≠ [] ∨
      e.store.deeper run.work.job key = []
  | .crash => False
  | _ => True

theorem Engine.Covers.not_uncovers {key : TsKey} {e : Engine} {a : EngineAction}
    (h : e.Covers key a) : ¬ e.Uncovers key a := by
  intro huncovers
  cases a with
  | commit cleanup_obsolete held =>
    obtain ⟨run, hrun, hkeep, hinputs, hfirst, hdeeper⟩ := huncovers
    rcases h run hrun with h | h | h | h
    · rw [hkeep] at h
      contradiction
    · exact hinputs h
    · exact h hfirst
    · exact hdeeper h
  | _ => exact huncovers

/-- A key has no version left, or its newest one is its last write. -/
def Engine.NewestOrGone (key : TsKey) (e : Engine) : Prop := e.sources key = [] ∨ e.Newest key

theorem callRule_newestOrGone (key : TsKey) : CallRule (Engine.NewestOrGone key) := by
  have hnewest := callRule_newest key
  refine ⟨fun e wal calls n h => h, fun e h himm hidle => ?_, fun e id op h => ?_⟩
  · refine h.imp (fun hgone => ?_) fun h => hnewest.rotate e h himm hidle
    rw [Engine.sources, memVersions_rotate himm]
    exact hgone
  · rcases h with hgone | h
    · by_cases hk : key = op.key
      · right
        rw [Engine.Newest, lastApplied_applyOp, if_pos hk]
        exact (head?_sources_applyOp e id op key).1 hk
      · left
        rw [(head?_sources_applyOp e id op key).2 hk]
        exact hgone
    · exact Or.inr (hnewest.op e id op h)

structure CoverInv (key : TsKey) (e : Engine) : Prop where
  engine : EngineInv e
  newest : e.NewestOrGone key

theorem coverInv_step {key : TsKey} {e e' : Engine} {a : EngineAction} (h : CoverInv key e)
    (hok : e.Covers key a) (hs : e.step a = some e') : CoverInv key e' := by
  have hcrash : a ≠ .crash := by
    rintro rfl
    exact hok
  refine ⟨engineInv_step h.engine hs hcrash, ?_⟩
  refine newest_step key (callRule_newestOrGone key) h.engine h.newest hs hcrash
    fun happlied hsources => ?_
  rcases hsources with hhead | ⟨-, hgone | huncovers⟩
  · rcases h.newest with hgone | hnewest
    · left
      rw [hgone] at hhead
      exact List.head?_eq_none_iff.mp hhead
    · right
      rw [Engine.Newest, hhead, Engine.lastApplied, happlied]
      exact hnewest
  · exact Or.inl hgone
  · exact absurd huncovers hok.not_uncovers

theorem viewed_of_gone {e : Engine} {key : TsKey} (h : e.sources key = []) : e.viewed key = [] := by
  unfold Engine.sources Engine.memVersions at h
  unfold Engine.viewed
  simp only [List.append_eq_nil_iff] at h ⊢
  exact ⟨h.1.1, h.1.2.1, h.2⟩

end MiniTsdb
