import MiniTsdb.Proofs.BlockCache
import MiniTsdb.Spec.CacheCalls

/-! Which runs of the block cache serve superseded values. A `Put` that is refused leaves the
entry of its key, so a value is stale from the first refused `Put` of a cached key on. -/

namespace MiniTsdb
open Lib

def latestStep (key : Bytes) (latest : Option Bytes) : CacheCall → Option Bytes
  | .get _ => latest
  | .put k value => if k = key then some value else latest
  | .clear => none

/-- The value of the most recent `Put` of a key since the last `Clear`. -/
def latestPut (key : Bytes) (calls : List CacheCall) : Option Bytes :=
  calls.foldl (latestStep key) none

theorem latestPut_snoc (key : Bytes) (calls : List CacheCall) (call : CacheCall) :
    latestPut key (calls ++ [call]) = latestStep key (latestPut key calls) call := by
  simp [latestPut]

/-- Whenever a key is looked up in a run, there is nothing or the value put last. -/
def Coherent (capacity_bytes : ℕ) (calls : List CacheCall) : Prop :=
  ∀ past, past <+: calls → ∀ key value,
    ((BlockCache.run capacity_bytes past).get key).1 = some value →
      latestPut key past = some value

/-- No value longer than the capacity is put under a key that is cached. -/
def NoOversizedPut (capacity_bytes : ℕ) (calls : List CacheCall) : Prop :=
  ∀ past key value, past ++ [.put key value] <+: calls → capacity_bytes < value.length →
    (BlockCache.run capacity_bytes past).find key = none

namespace BlockCache

variable {c : BlockCache} {capacity_bytes : ℕ}

theorem run_snoc (capacity_bytes : ℕ) (calls : List CacheCall) (call : CacheCall) :
    run capacity_bytes (calls ++ [call]) = (run capacity_bytes calls).call call := by
  simp [run]

theorem pruneLoop_capacity (turns : ℕ) (c : BlockCache) :
    (pruneLoop turns c).capacity_bytes = c.capacity_bytes := by
  induction turns generalizing c with
  | zero => rfl
  | succ turns ih =>
    rw [pruneLoop]
    split
    · rfl
    · split_ifs
      · exact ih _
      · rfl

theorem dropOld_capacity (c : BlockCache) (key : Bytes) :
    (c.dropOld key).capacity_bytes = c.capacity_bytes := by
  rw [dropOld]
  split <;> rfl

theorem get_capacity (c : BlockCache) (key : Bytes) :
    (c.get key).2.capacity_bytes = c.capacity_bytes := by
  rw [get]
  split <;> rfl

theorem put_capacity (c : BlockCache) (key value : Bytes) :
    (c.put key value).capacity_bytes = c.capacity_bytes := by
  rw [put]
  split_ifs
  · rfl
  · rw [pruneUnlocked, pruneLoop_capacity]
    exact dropOld_capacity c key

theorem get_eq_some {key value : Bytes} (h : (c.get key).1 = some value) :
    ∃ e, c.find key = some e ∧ e.value = value := by
  rw [get] at h
  cases hfind : c.find key with
  | none => simp [hfind] at h
  | some e =>
    rw [hfind] at h
    exact ⟨e, rfl, Option.some.inj h⟩

theorem get_of_find {key : Bytes} {e : CacheEntry} (h : c.find key = some e) :
    (c.get key).1 = some e.value := by
  rw [get, h]

theorem mem_put {key value : Bytes} (hc : c.Accounted) {e : CacheEntry}
    (he : e ∈ (c.put key value).lru) :
    (e = ⟨key, value, value.length⟩ ∧ value.length ≤ c.capacity_bytes ∧ c.capacity_bytes ≠ 0) ∨
      (e ∈ c.lru ∧ (e.key ≠ key ∨ c.capacity_bytes = 0 ∨ c.capacity_bytes < value.length)) := by
  rw [put] at he
  split_ifs at he with hrefused
  · exact Or.inr ⟨he, Or.inr hrefused⟩
  · obtain ⟨-, hfree, -⟩ := hc.dropOld key
    rcases List.mem_cons.mp ((pruneLoop_lru _ _).subset he) with rfl | he
    · exact Or.inl ⟨rfl, by omega, by omega⟩
    · refine Or.inr ⟨(dropOld_sublist c key).subset he, Or.inl fun hkey => hfree ?_⟩
      have hmem := List.mem_map_of_mem (f := CacheEntry.key) he
      rwa [hkey] at hmem

/-- The cache of a run: its capacity is the one given, and all it holds was accepted. -/
structure OfRun (capacity_bytes : ℕ) (c : BlockCache) : Prop where
  capacity : c.capacity_bytes = capacity_bytes
  accounted : c.Accounted
  accepted : c.Each fun _ value => value.length ≤ capacity_bytes ∧ capacity_bytes ≠ 0

theorem ofRun_call (h : OfRun capacity_bytes c) (call : CacheCall) :
    OfRun capacity_bytes (c.call call) := by
  cases call with
  | get key => exact ⟨(get_capacity c key).trans h.capacity, h.accounted.get, (h.accepted.get key).1⟩
  | put key value =>
    refine ⟨(put_capacity c key value).trans h.capacity, h.accounted.put, ?_⟩
    intro e he
    rcases mem_put h.accounted he with ⟨rfl, hfit, hzero⟩ | ⟨he, -⟩
    · rw [h.capacity] at hfit hzero
      exact ⟨hfit, hzero⟩
    · exact h.accepted e he
  | clear =>
    refine ⟨h.capacity, ⟨List.nodup_nil, rfl, Nat.zero_le _⟩, ?_⟩
    intro e he
    contradiction

theorem ofRun (capacity_bytes : ℕ) (calls : List CacheCall) :
    OfRun capacity_bytes (run capacity_bytes calls) := by
  induction calls using List.reverseRecOn with
  | nil => exact ⟨rfl, accounted_new capacity_bytes, each_new _ _⟩
  | append_singleton calls call ih =>
    rw [run_snoc]
    exact ofRun_call ih call

/-- Every cached value is the one put last under its key. -/
def Fresh (capacity_bytes : ℕ) (calls : List CacheCall) : Prop :=
  (run capacity_bytes calls).Each fun key value => latestPut key calls = some value

theorem fresh_snoc {calls : List CacheCall} {call : CacheCall} (h : Fresh capacity_bytes calls)
    (hput : ∀ key value, call = .put key value → capacity_bytes < value.length →
      (run capacity_bytes calls).find key = none) :
    Fresh capacity_bytes (calls ++ [call]) := by
  obtain ⟨hcapacity, haccounted, haccepted⟩ := ofRun capacity_bytes calls
  unfold Fresh
  simp only [run_snoc, latestPut_snoc]
  cases call with
  | get key => exact (Each.get h key).1
  | put key value =>
    intro e he
    dsimp only [latestStep]
    rcases mem_put haccounted he with ⟨rfl, -⟩ | ⟨hcached, hold⟩
    · exact if_pos rfl
    · have hkey : key ≠ e.key := by
        rintro rfl
        rw [hcapacity] at hold
        rcases hold with hne | hzero | hlong
        · exact hne rfl
        · exact (haccepted e hcached).2 hzero
        · -- the refused value is for a key that is not cached
          have hnone := hput _ value rfl hlong
          exact List.find?_eq_none.mp hnone e hcached (by simp)
      rw [if_neg hkey]
      exact h e hcached
  | clear =>
    intro e he
    contradiction

theorem fresh_of_noOversizedPut {calls : List CacheCall} (h : NoOversizedPut capacity_bytes calls) :
    Fresh capacity_bytes calls := by
  induction calls using List.reverseRecOn with
  | nil => exact each_new _ _
  | append_singleton calls call ih =>
    apply fresh_snoc
    · apply ih
      intro past key value hpast
      exact h past key value (hpast.trans (List.prefix_append _ _))
    · intro key value hcall
      subst hcall
      exact h calls key value (List.prefix_refl _)

end BlockCache

open BlockCache

/-- A run is coherent exactly if no value longer than the capacity is put under a key that is
cached at that time. -/
theorem coherent_iff_noOversizedPut (capacity_bytes : ℕ) (calls : List CacheCall) :
    Coherent capacity_bytes calls ↔ NoOversizedPut capacity_bytes calls := by
  constructor
  · intro h past key value hpast hlong
    obtain ⟨hcapacity, -, haccepted⟩ := ofRun capacity_bytes past
    by_contra hfound
    obtain ⟨e, hfind⟩ := Option.ne_none_iff_exists'.mp hfound
    have hrefused : (run capacity_bytes past).put key value = run capacity_bytes past := by
      rw [BlockCache.put, if_pos (Or.inr (by omega))]
    -- the look-up behind the refused call gives the old value
    have hold := h _ hpast key e.value (by
      rw [run_snoc, BlockCache.call, hrefused]
      exact get_of_find hfind)
    rw [latestPut_snoc, latestStep, if_pos rfl] at hold
    have hfit := (haccepted e (mem_of_find hfind).1).1
    rw [← Option.some.inj hold] at hfit
    omega
  · intro h past hpast key value hget
    obtain ⟨e, hfind, rfl⟩ := get_eq_some hget
    obtain ⟨hmem, rfl⟩ := mem_of_find hfind
    apply fresh_of_noOversizedPut _ e hmem
    intro past' key value' hpast'
    exact h past' key value' (hpast'.trans hpast)

/-- Four bytes of room: the first value of the key is cached, the second one is refused. -/
theorem coherent_fails_on_oversized_put :
    ¬ ∀ (capacity_bytes : ℕ) (calls : List CacheCall), Coherent capacity_bytes calls := by
  intro h
  have hstale := h 4 [.put [107] [97], .put [107] [97, 97, 97, 97, 97]] _ (List.prefix_refl _)
    [107] [97] (by decide)
  exact absurd hstale (by decide)

end MiniTsdb
