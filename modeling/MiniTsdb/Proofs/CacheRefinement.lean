import MiniTsdb.Proofs.BlockCache
import MiniTsdb.Proofs.CacheNodes

/-! The cache with its list and its map answers and changes as the cache whose list is
searched: call by call, and over every run. -/

namespace MiniTsdb
open Lib

namespace NodeCache

variable {c : NodeCache} {key value : Bytes} {n : CacheNode}

def view (c : NodeCache) : BlockCache :=
  ⟨c.capacity_bytes, c.usage_bytes, c.lru.map CacheNode.entry, c.hits, c.misses⟩

theorem view_find_of_mem (h : c.Represented) (hn : n ∈ c.lru) (hkey : n.key = key) :
    c.view.find key = some n.entry := by
  have hsome : (c.view.find key).isSome := by
    rw [BlockCache.find, List.find?_isSome]
    exact ⟨n.entry, List.mem_map_of_mem hn, beq_iff_eq.mpr hkey⟩
  obtain ⟨e, he⟩ := Option.isSome_iff_exists.mp hsome
  obtain ⟨hmem, hekey⟩ := BlockCache.mem_of_find he
  obtain ⟨m, hm, rfl⟩ := List.mem_map.mp hmem
  have hmn : m = n := h.index.eq_of_key hm hn (hekey.trans hkey.symm)
  rw [he, hmn]

theorem view_find_none (h : c.Represented) (hmap : c.map key = none) : c.view.find key = none := by
  rw [BlockCache.find, List.find?_eq_none]
  intro e he heq
  obtain ⟨m, hm, rfl⟩ := List.mem_map.mp he
  apply h.index.none_iff.mp hmap
  exact List.mem_map.mpr ⟨m, hm, beq_iff_eq.mp heq⟩

theorem view_others (h : c.Represented) (key : Bytes) :
    c.view.others key = (c.lru.filter fun m => m.key ≠ key).map CacheNode.entry := by
  have hkeys : (c.view.lru.map CacheEntry.key).Nodup := by
    rw [view, List.map_map]
    exact h.index.keys
  rw [BlockCache.others, eraseP_eq_filter_key hkeys fun _ => beq_iff_eq, view, List.filter_map]
  rfl

theorem view_get (h : c.Represented) (key : Bytes) :
    ∃ found c', c.get key = some (found, c') ∧ c.view.get key = (found, c'.view) := by
  cases hmap : c.map key with
  | none =>
    refine ⟨none, { c with misses := c.misses + 1 }, by rw [NodeCache.get, hmap], ?_⟩
    rw [BlockCache.get, view_find_none h hmap]
    rfl
  | some it =>
    obtain ⟨n, hnode, hn, hkey⟩ := h.node hmap
    refine ⟨some n.entry.value, { c with lru := n :: c.erased it, hits := c.hits + 1 }, ?_, ?_⟩
    · rw [NodeCache.get, hmap]
      dsimp only
      rw [hnode]
    · rw [BlockCache.get, view_find_of_mem h hn hkey]
      dsimp only
      rw [view_others h, ← hkey, ← h.erased hnode]
      rfl

theorem view_dropOld (h : c.Represented) {old : NodeCache} (hold : c.dropOld key = some old) :
    c.view.dropOld key = old.view := by
  cases hmap : c.map key with
  | none =>
    rw [NodeCache.dropOld, hmap] at hold
    rw [BlockCache.dropOld, view_find_none h hmap, Option.some.inj hold]
  | some it =>
    obtain ⟨n, hnode, hn, hkey⟩ := h.node hmap
    have hcharge : n.entry.charge ≤ c.usage_bytes := by
      rw [h.usage]
      exact List.single_le_sum (by simp) _ (List.mem_map_of_mem (f := CacheNode.charge) hn)
    rw [NodeCache.dropOld, hmap] at hold
    dsimp only at hold
    rw [hnode] at hold
    rw [BlockCache.dropOld, view_find_of_mem h hn hkey, ← Option.some.inj hold]
    dsimp only
    rw [view_others h, ← hkey, ← h.erased hnode, view, view, sizeSub_eq hcharge]

theorem view_pruneLoop (turns : ℕ) (husage : c.usage_bytes = (c.lru.map CacheNode.charge).sum) :
    (pruneLoop turns c).view = BlockCache.pruneLoop turns c.view := by
  induction turns generalizing c with
  | zero => rfl
  | succ turns ih =>
    have hview : c.view.lru.getLast? = c.lru.getLast?.map CacheNode.entry := List.getLast?_map
    rw [pruneLoop, BlockCache.pruneLoop, hview]
    cases hlast : c.lru.getLast? with
    | none => rfl
    | some n =>
      have hsplit := List.dropLast_append_getLast? n hlast
      rw [← hsplit, List.map_append, List.sum_append] at husage
      simp only [List.map_singleton, List.sum_singleton] at husage
      dsimp only [Option.map_some]
      by_cases hfull : c.usage_bytes > c.capacity_bytes
      · rw [if_pos hfull, if_pos (show c.view.usage_bytes > c.view.capacity_bytes from hfull)]
        have hsub : sizeSub c.usage_bytes n.entry.charge = c.usage_bytes - n.entry.charge :=
          sizeSub_eq (by rw [husage]; exact Nat.le_add_left _ _)
        rw [ih]
        · simp only [view, hsub, List.map_dropLast]
        · dsimp only
          rw [hsub, husage, CacheNode.charge]
          omega
      · rw [if_neg hfull, if_neg (show ¬ c.view.usage_bytes > c.view.capacity_bytes from hfull)]

theorem view_put (h : c.Represented) (hmemory : c.usage_bytes + value.length < 2 ^ 64)
    {c' : NodeCache} (hput : c.put key value = some c') : c.view.put key value = c'.view := by
  rw [BlockCache.put]
  cases haccepts : c.accepts value with
  | false =>
    rw [put_of_refused key haccepts] at hput
    have hrefused := accepts_eq_false_iff.mp haccepts
    rw [if_pos (show c.view.capacity_bytes = 0 ∨ value.length > c.view.capacity_bytes from hrefused),
      Option.some.inj hput]
  | true =>
    obtain ⟨old, hold, hrep, -, -, -, husage⟩ := h.dropOld key
    have haccepted : ¬ (c.capacity_bytes = 0 ∨ value.length > c.capacity_bytes) := by
      intro hrefused
      rw [accepts_eq_false_iff.mpr hrefused] at haccepts
      contradiction
    have hadd : sizeAdd old.usage_bytes value.length = old.usage_bytes + value.length :=
      sizeAdd_eq (by omega)
    rw [NodeCache.put, if_pos haccepts, hold] at hput
    rw [if_neg (show ¬ (c.view.capacity_bytes = 0 ∨ value.length > c.view.capacity_bytes)
        from haccepted), view_dropOld h hold, ← Option.some.inj hput, pruneUnlocked,
      view_pruneLoop]
    · rw [BlockCache.pruneUnlocked]
      simp only [pushFront, view, hadd, List.map_cons, List.length_cons, List.length_map]
    · simp only [pushFront, List.map_cons, List.sum_cons, ← hrep.usage, hadd]
      simp [CacheNode.charge, Nat.add_comm]

end NodeCache

namespace CacheHistory

variable {h h' : CacheHistory} {capacity_bytes : ℕ}

theorem view_call (hk : Kept capacity_bytes h) {call : CacheCall} (hmemory : h.InMemory call)
    (hcall : h.call call = some h') : h'.cache.view = h.cache.view.call call := by
  cases call with
  | get key =>
    obtain ⟨found, c', hget, hview⟩ := NodeCache.view_get hk.represented key
    rw [CacheHistory.call, hget] at hcall
    rw [← Option.some.inj hcall, BlockCache.call, hview]
  | put key value =>
    rw [CacheHistory.call] at hcall
    cases hput : h.cache.put key value with
    | none => simp [hput] at hcall
    | some c' =>
      rw [hput] at hcall
      rw [← Option.some.inj hcall, BlockCache.call,
        NodeCache.view_put hk.represented (hk.room hmemory) hput]
  | clear =>
    rw [CacheHistory.call] at hcall
    rw [← Option.some.inj hcall]
    rfl

/-- The searched list stands for the list with its map along every run. -/
theorem view_run {calls : List CacheCall}
    (hrun : calls.foldlM (guarded CacheHistory.call InMemory) (new capacity_bytes) = some h) :
    h.cache.view = BlockCache.run capacity_bytes calls := by
  induction calls using List.reverseRecOn generalizing h with
  | nil =>
    obtain rfl : new capacity_bytes = h := by simpa using hrun
    rfl
  | append_singleton calls call ih =>
    rw [List.foldlM_append] at hrun
    obtain ⟨s, hs, hlast⟩ := Option.bind_eq_some_iff.mp hrun
    rw [List.foldlM_cons] at hlast
    obtain ⟨s', hcall, hnil⟩ := Option.bind_eq_some_iff.mp hlast
    obtain rfl : s' = h := by simpa using hnil
    unfold guarded at hcall
    split_ifs at hcall with hmemory
    rw [view_call (kept_of_reach (reach_of_foldlM hs)) hmemory hcall, ih hs]
    simp [BlockCache.run]

end CacheHistory

end MiniTsdb
