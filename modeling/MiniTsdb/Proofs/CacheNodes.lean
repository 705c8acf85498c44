import MiniTsdb.Lib.NodeIndex
import MiniTsdb.Lib.Runs
import MiniTsdb.Spec.CacheCalls

/-! The two structures of the block cache agree in every run: the map leads to the nodes of
the list, the bytes are counted right, and the list is in the order of the last uses, of which
a `Put` keeps as much as there is room for. -/

namespace MiniTsdb
open Lib

def CacheNode.key (n : CacheNode) : Bytes := n.entry.key
def CacheNode.charge (n : CacheNode) : ℕ := n.entry.charge

/-- A cache with the keys inserted since the last `Clear`, or looked up while they were in it,
the last one in front. -/
structure CacheHistory where
  cache : NodeCache
  used : List Bytes

namespace CacheHistory

def new (capacity_bytes : ℕ) : CacheHistory := ⟨.new capacity_bytes, []⟩

/-- None is undefined behaviour of the cache. -/
def call (h : CacheHistory) : CacheCall → Option CacheHistory
  | .get key =>
    match h.cache.get key with
    | none => none
    | some (_, c) =>
      some ⟨c, if key ∈ h.cache.lru.map CacheNode.key then key :: h.used else h.used⟩
  | .put key value =>
    match h.cache.put key value with
    | none => none
    | some c => some ⟨c, if h.cache.accepts value then key :: h.used else h.used⟩
  | .clear => some ⟨h.cache.clear, []⟩

/-- The values in the cache and the one that is put are in memory at once, which 64 bits
address. -/
def InMemory (h : CacheHistory) : CacheCall → Prop
  | .put _ value => (h.cache.lru.map fun n => n.entry.value.length).sum + value.length < 2 ^ 64
  | _ => True

instance (h : CacheHistory) (call : CacheCall) : Decidable (h.InMemory call) :=
  match call with
  | .put _ _ => inferInstanceAs (Decidable (_ < _))
  | .get _ => inferInstanceAs (Decidable True)
  | .clear => inferInstanceAs (Decidable True)

end CacheHistory

namespace NodeCache

/-- What holds of the two structures and the counter between calls. -/
structure Represented (c : NodeCache) : Prop where
  index : NodeIndex CacheNode.key CacheNode.id c.lru c.map
  issued : ∀ n ∈ c.lru, n.id < c.next_id
  charge : ∀ n ∈ c.lru, n.charge = n.entry.value.length
  usage : c.usage_bytes = (c.lru.map CacheNode.charge).sum
  bound : c.usage_bytes ≤ c.capacity_bytes

variable {c : NodeCache} {key value : Bytes} {n : CacheNode} {it : ℕ}

theorem represented_new (capacity_bytes : ℕ) : (new capacity_bytes).Represented :=
  ⟨.nil, by simp [new], by simp [new], rfl, Nat.zero_le _⟩

theorem represented_clear (c : NodeCache) : c.clear.Represented :=
  ⟨.nil, by simp [clear], by simp [clear], rfl, Nat.zero_le _⟩

theorem node_eq_some (h : c.node it = some n) : n ∈ c.lru ∧ n.id = it :=
  ⟨List.mem_of_find?_eq_some h, by simpa using List.find?_some h⟩

theorem erased_split (h : c.node it = some n) :
    ∃ xs ys, c.lru = xs ++ n :: ys ∧ c.erased it = xs ++ ys := by
  rw [node, List.find?_eq_some_iff_append] at h
  obtain ⟨hid, xs, ys, hsplit, hxs⟩ := h
  refine ⟨xs, ys, hsplit, ?_⟩
  rw [erased, hsplit, List.eraseP_append_right _ (fun x hx => by simpa using hxs x hx),
    List.eraseP_cons_of_pos (p := fun m : CacheNode => m.id == it) hid]

theorem perm_erased (h : c.node it = some n) : (n :: c.erased it).Perm c.lru := by
  obtain ⟨xs, ys, hsplit, herased⟩ := erased_split h
  rw [hsplit, herased]
  exact List.perm_middle.symm

theorem Represented.node (h : c.Represented) (hmap : c.map key = some it) :
    ∃ n, c.node it = some n ∧ n ∈ c.lru ∧ n.key = key := by
  obtain ⟨n, hn, hid, hkey⟩ := (h.index.leads _ _).mp hmap
  have hsome : (c.node it).isSome := by
    rw [NodeCache.node, List.find?_isSome]
    exact ⟨n, hn, by simpa using hid⟩
  obtain ⟨m, hm⟩ := Option.isSome_iff_exists.mp hsome
  obtain ⟨hmem, hmid⟩ := node_eq_some hm
  have hmn : m = n := h.index.eq_of_id hmem hn (hmid.trans hid.symm)
  exact ⟨n, by rw [hm, hmn], hn, hkey⟩

theorem pruneLoop_spec (turns : ℕ) (hturns : c.lru.length ≤ turns)
    (hindex : NodeIndex CacheNode.key CacheNode.id c.lru c.map)
    (husage : c.usage_bytes = (c.lru.map CacheNode.charge).sum) :
    NodeIndex CacheNode.key CacheNode.id (pruneLoop turns c).lru (pruneLoop turns c).map ∧
      (pruneLoop turns c).usage_bytes = ((pruneLoop turns c).lru.map CacheNode.charge).sum ∧
      LongestFit CacheNode.charge c.capacity_bytes c.lru (pruneLoop turns c).lru ∧
      (pruneLoop turns c).capacity_bytes = c.capacity_bytes ∧
      (pruneLoop turns c).next_id = c.next_id := by
  induction turns generalizing c with
  | zero =>
    have hnil : c.lru = [] := List.length_eq_zero_iff.mp (Nat.le_zero.mp hturns)
    exact ⟨hindex, husage, .whole (by simp [hnil]), rfl, rfl⟩
  | succ turns ih =>
    rw [pruneLoop]
    split
    · next hlast =>
      have hnil := List.getLast?_eq_none_iff.mp hlast
      exact ⟨hindex, husage, .whole (by simp [hnil]), rfl, rfl⟩
    · next n hlast =>
      split_ifs with hfull
      · have hsplit := List.dropLast_append_getLast? n hlast
        have hperm : c.lru.Perm (n :: c.lru.dropLast) := by
          conv_lhs => rw [← hsplit]
          exact List.perm_append_comm
        have hsum : (c.lru.map CacheNode.charge).sum =
            n.charge + (c.lru.dropLast.map CacheNode.charge).sum := by
          rw [(hperm.map CacheNode.charge).sum_eq, List.map_cons, List.sum_cons]
        have hsub : sizeSub c.usage_bytes n.entry.charge =
            (c.lru.dropLast.map CacheNode.charge).sum := by
          rw [sizeSub_eq (by rw [husage, hsum]; exact Nat.le_add_right _ _), husage, hsum,
            CacheNode.charge]
          omega
        obtain ⟨hindex', husage', hfit, hcapacity, hnext⟩ := ih
          (c := { c with
            usage_bytes := sizeSub c.usage_bytes n.entry.charge
            map := Function.update c.map n.entry.key none
            lru := c.lru.dropLast })
          (by rw [List.length_dropLast]; omega) (hindex.perm hperm).remove hsub
        refine ⟨hindex', husage', ?_, hcapacity, hnext⟩
        apply hfit.of_dropLast
        rw [← husage]
        exact hfull
      · refine ⟨hindex, husage, ?_, rfl, rfl⟩
        apply LongestFit.whole
        omega

theorem pruneUnlocked_spec (hindex : NodeIndex CacheNode.key CacheNode.id c.lru c.map)
    (husage : c.usage_bytes = (c.lru.map CacheNode.charge).sum) :
    NodeIndex CacheNode.key CacheNode.id (pruneUnlocked c).lru (pruneUnlocked c).map ∧
      (pruneUnlocked c).usage_bytes = ((pruneUnlocked c).lru.map CacheNode.charge).sum ∧
      LongestFit CacheNode.charge c.capacity_bytes c.lru (pruneUnlocked c).lru ∧
      (pruneUnlocked c).capacity_bytes = c.capacity_bytes ∧
      (pruneUnlocked c).next_id = c.next_id :=
  pruneLoop_spec c.lru.length le_rfl hindex husage

theorem Represented.erased (h : c.Represented) (hnode : c.node it = some n) :
    c.erased it = c.lru.filter fun m => m.key ≠ n.key := by
  obtain ⟨xs, ys, hsplit, herased⟩ := erased_split hnode
  have hindex := h.index
  rw [hsplit] at hindex
  rw [herased, hsplit, hindex.filter_key_ne]

theorem Represented.get (h : c.Represented) (key : Bytes) :
    (c.map key = none ∧ c.get key = some (none, { c with misses := c.misses + 1 })) ∨
      ∃ n c', n ∈ c.lru ∧ n.key = key ∧ c.get key = some (some n.entry.value, c') ∧
        c'.Represented ∧ c'.capacity_bytes = c.capacity_bytes ∧
        c'.lru = n :: c.lru.filter fun m => m.key ≠ key := by
  cases hmap : c.map key with
  | none =>
    left
    rw [NodeCache.get, hmap]
    exact ⟨rfl, rfl⟩
  | some it =>
    right
    obtain ⟨n, hnode, hn, hkey⟩ := h.node hmap
    have hperm := perm_erased hnode
    refine ⟨n, { c with lru := n :: c.erased it, hits := c.hits + 1 }, hn, hkey, ?_, ?_, rfl, ?_⟩
    · rw [NodeCache.get, hmap]
      dsimp only
      rw [hnode]
    · refine ⟨h.index.perm hperm.symm, ?_, ?_, ?_, h.bound⟩
      · intro m hm
        exact h.issued m (hperm.subset hm)
      · intro m hm
        exact h.charge m (hperm.subset hm)
      · rw [h.usage, (hperm.map CacheNode.charge).sum_eq]
    · rw [h.erased hnode, hkey]

/-- Once the old node of a key is out, the key is free. -/
theorem Represented.dropOld (h : c.Represented) (key : Bytes) :
    ∃ c', c.dropOld key = some c' ∧ c'.Represented ∧
      c'.lru = c.lru.filter (fun n => n.key ≠ key) ∧ c'.capacity_bytes = c.capacity_bytes ∧
      c'.next_id = c.next_id ∧ c'.usage_bytes ≤ c.usage_bytes := by
  cases hmap : c.map key with
  | none =>
    refine ⟨c, by rw [NodeCache.dropOld, hmap], h, ?_, rfl, rfl, le_rfl⟩
    symm
    apply List.filter_eq_self.mpr
    intro m hm
    have hne : m.key ≠ key := by
      intro heq
      exact h.index.none_iff.mp hmap (heq ▸ List.mem_map_of_mem hm)
    simpa using hne
  | some it =>
    obtain ⟨n, hnode, hn, hkey⟩ := h.node hmap
    have hperm := perm_erased hnode
    have hindex := h.index.perm hperm.symm
    have hsum : c.usage_bytes = n.charge + ((c.erased it).map CacheNode.charge).sum := by
      rw [h.usage, ← (hperm.map CacheNode.charge).sum_eq, List.map_cons, List.sum_cons]
    have hsub : sizeSub c.usage_bytes n.entry.charge =
        ((c.erased it).map CacheNode.charge).sum := by
      rw [sizeSub_eq (by rw [hsum]; exact Nat.le_add_right _ _), hsum, CacheNode.charge]
      omega
    refine ⟨{ c with
      usage_bytes := sizeSub c.usage_bytes n.entry.charge
      lru := c.erased it
      map := Function.update c.map key none }, ?_, ⟨?_, ?_, ?_, hsub, ?_⟩, ?_, rfl, rfl, ?_⟩
    · rw [NodeCache.dropOld, hmap]
      dsimp only
      rw [hnode]
    · rw [← hkey]
      exact hindex.remove
    · intro m hm
      exact h.issued m (List.mem_of_mem_eraseP hm)
    · intro m hm
      exact h.charge m (List.mem_of_mem_eraseP hm)
    · have hbound := h.bound
      dsimp only
      omega
    · rw [h.erased hnode, hkey]
    · dsimp only
      omega

def entryOf (key value : Bytes) : CacheEntry := ⟨key, value, value.length⟩

/-- The list before the pruning: the new entry in front of those of the other keys. -/
def orderOf (c : NodeCache) (key value : Bytes) : List CacheNode :=
  ⟨c.next_id, entryOf key value⟩ :: c.lru.filter fun n => n.key ≠ key

theorem Represented.put (h : c.Represented) (key : Bytes) (haccepts : c.accepts value)
    (hmemory : c.usage_bytes + value.length < 2 ^ 64) :
    ∃ c', c.put key value = some c' ∧ c'.Represented ∧ c'.capacity_bytes = c.capacity_bytes ∧
      LongestFit CacheNode.charge c.capacity_bytes (c.orderOf key value) c'.lru := by
  obtain ⟨old, hold, hrep, hlru, hcapacity, hnext, husage⟩ := h.dropOld key
  have hid : old.next_id ∉ old.lru.map CacheNode.id := by
    intro hmem
    obtain ⟨n, hn, heq⟩ := List.mem_map.mp hmem
    have := hrep.issued n hn
    omega
  have hkey : key ∉ old.lru.map CacheNode.key := by
    intro hmem
    obtain ⟨n, hn, heq⟩ := List.mem_map.mp hmem
    rw [hlru] at hn
    simpa [heq] using (List.mem_filter.mp hn).2
  have hindex : NodeIndex CacheNode.key CacheNode.id
      (old.pushFront (entryOf key value)).lru (old.pushFront (entryOf key value)).map :=
    hrep.index.insert (n := (⟨old.next_id, entryOf key value⟩ : CacheNode)) hid hkey
  have hadd : sizeAdd old.usage_bytes value.length = old.usage_bytes + value.length :=
    sizeAdd_eq (by omega)
  have hcount : (old.pushFront (entryOf key value)).usage_bytes =
      ((old.pushFront (entryOf key value)).lru.map CacheNode.charge).sum := by
    simp only [pushFront, entryOf, List.map_cons, List.sum_cons, ← hrep.usage, hadd]
    simp [CacheNode.charge, Nat.add_comm]
  obtain ⟨hindex', husage', hfit, hcapacity', hnext'⟩ := pruneUnlocked_spec hindex hcount
  have hsame : (old.pushFront (entryOf key value)).lru = c.orderOf key value := by
    rw [pushFront, orderOf, hlru, hnext]
  have hroom : (old.pushFront (entryOf key value)).capacity_bytes = c.capacity_bytes := hcapacity
  rw [hsame, hroom] at hfit
  have hmem : ∀ n ∈ (pruneUnlocked (old.pushFront (entryOf key value))).lru,
      n = ⟨c.next_id, entryOf key value⟩ ∨ n ∈ c.lru := by
    intro n hn
    have hn' := hfit.isPrefix.subset hn
    rw [orderOf, List.mem_cons] at hn'
    exact hn'.imp_right fun hn'' => (List.mem_filter.mp hn'').1
  refine ⟨_, ?_, ⟨hindex', ?_, ?_, husage', ?_⟩, hcapacity'.trans hroom, hfit⟩
  · rw [NodeCache.put, if_pos haccepts, hold]
    rfl
  · intro n hn
    rw [hnext']
    change n.id < old.next_id + 1
    rw [hnext]
    obtain rfl | hn := hmem n hn
    · exact Nat.lt_succ_self _
    · exact Nat.lt_succ_of_lt (h.issued n hn)
  · intro n hn
    obtain rfl | hn := hmem n hn
    · rfl
    · exact h.charge n hn
  · rw [husage', hcapacity', hroom]
    exact hfit.fits

theorem accepts_eq_false_iff :
    c.accepts value = false ↔ c.capacity_bytes = 0 ∨ value.length > c.capacity_bytes := by
  rw [accepts, Bool.not_eq_false', Bool.or_eq_true, beq_iff_eq, decide_eq_true_iff]

theorem put_of_refused (key : Bytes) (h : c.accepts value = false) : c.put key value = some c := by
  simp [NodeCache.put, h]

end NodeCache

namespace CacheHistory

variable {h : CacheHistory} {capacity_bytes : ℕ}

/-- What holds of the cache together with what was used. -/
structure Kept (capacity_bytes : ℕ) (h : CacheHistory) : Prop where
  represented : h.cache.Represented
  capacity : h.cache.capacity_bytes = capacity_bytes
  order : LastUsedFirst h.used (h.cache.lru.map CacheNode.key)
  used : ∀ n ∈ h.cache.lru, n.key ∈ h.used

theorem kept_new (capacity_bytes : ℕ) : Kept capacity_bytes (new capacity_bytes) :=
  ⟨NodeCache.represented_new capacity_bytes, rfl, List.Pairwise.nil, fun _ hn => by contradiction⟩

/-- A key that is used comes in front of the nodes of the others. -/
theorem Kept.use (hk : Kept capacity_bytes h) {key : Bytes} {n : CacheNode} (hn : n.key = key) :
    LastUsedFirst (key :: h.used)
        ((n :: h.cache.lru.filter fun m => m.key ≠ key).map CacheNode.key) ∧
      ∀ m ∈ n :: h.cache.lru.filter fun m => m.key ≠ key, m.key ∈ key :: h.used := by
  have hothers : LastUsedFirst h.used
      ((h.cache.lru.filter fun m => m.key ≠ key).map CacheNode.key) :=
    hk.order.sublist (List.filter_sublist.map _)
  have hfree : key ∉ (h.cache.lru.filter fun m => m.key ≠ key).map CacheNode.key := by
    intro hmem
    obtain ⟨m, hm, heq⟩ := List.mem_map.mp hmem
    simpa [heq] using (List.mem_filter.mp hm).2
  constructor
  · rw [List.map_cons, hn]
    exact hothers.use hfree
  · intro m hm
    obtain rfl | hm := List.mem_cons.mp hm
    · rw [hn]
      exact List.mem_cons_self
    · exact List.mem_cons_of_mem _ (hk.used m (List.mem_filter.mp hm).1)

theorem Kept.room (hk : Kept capacity_bytes h) {key value : Bytes}
    (hmemory : h.InMemory (.put key value)) : h.cache.usage_bytes + value.length < 2 ^ 64 := by
  have hsum : (h.cache.lru.map CacheNode.charge) =
      h.cache.lru.map fun n => n.entry.value.length :=
    List.map_congr_left hk.represented.charge
  rw [hk.represented.usage, hsum]
  exact hmemory

theorem Kept.call (hk : Kept capacity_bytes h) (call : CacheCall) (hmemory : h.InMemory call) :
    ∃ h', h.call call = some h' ∧ Kept capacity_bytes h' := by
  cases call with
  | get key =>
    rw [CacheHistory.call]
    obtain ⟨hnone, hget⟩ | ⟨n, c', hn, hkey, hget, hrep, hcapacity, hlru⟩ :=
      hk.represented.get key
    · rw [hget]
      dsimp only
      rw [if_neg (hk.represented.index.none_iff.mp hnone)]
      obtain ⟨hindex, hissued, hcharge, husage, hbound⟩ := hk.represented
      exact ⟨_, rfl, ⟨hindex, hissued, hcharge, husage, hbound⟩, hk.capacity, hk.order, hk.used⟩
    · rw [hget]
      dsimp only
      rw [if_pos (hkey ▸ List.mem_map_of_mem hn)]
      obtain ⟨horder, hused⟩ := hk.use hkey
      rw [← hlru] at horder hused
      exact ⟨_, rfl, hrep, hcapacity.trans hk.capacity, horder, hused⟩
  | put key value =>
    rw [CacheHistory.call]
    cases haccepts : h.cache.accepts value with
    | false =>
      rw [NodeCache.put_of_refused key haccepts]
      exact ⟨_, rfl, hk⟩
    | true =>
      obtain ⟨c', hput, hrep, hcapacity, hfit⟩ :=
        hk.represented.put key haccepts (hk.room hmemory)
      have hsub := hfit.isPrefix.sublist
      have hkey : (⟨h.cache.next_id, NodeCache.entryOf key value⟩ : CacheNode).key = key := rfl
      obtain ⟨horder, hused⟩ := hk.use hkey
      rw [hput]
      refine ⟨_, rfl, hrep, hcapacity.trans hk.capacity, horder.sublist (hsub.map _), ?_⟩
      intro n hn
      exact hused n (hsub.subset hn)
  | clear =>
    exact ⟨_, rfl, NodeCache.represented_clear _, hk.capacity, List.Pairwise.nil,
      fun _ hn => by contradiction⟩

theorem kept_of_reach (hr : Reach call InMemory (new capacity_bytes) h) :
    Kept capacity_bytes h := by
  refine hr.invariant (kept_new capacity_bytes) ?_
  intro s a s' hs hmemory hcall
  obtain ⟨s'', hcall', hs''⟩ := hs.call a hmemory
  rw [hcall] at hcall'
  exact Option.some.inj hcall' ▸ hs''

end CacheHistory

/-- After every run of calls the map leads to exactly the nodes of the list, one for each key,
the counter is the sum of the charges and within the capacity, and the list is in the order of
the last uses. The next call follows no dangling iterator, a `Get` finds a key exactly if it is
in the list and moves its node to the front, and a `Put` that is accepted keeps the longest
part of that order, the new entry in front, that the capacity holds. -/
theorem block_cache_representation {capacity_bytes : ℕ} {h : CacheHistory}
    (hr : Reach CacheHistory.call CacheHistory.InMemory (.new capacity_bytes) h) :
    h.cache.Represented ∧ h.cache.capacity_bytes = capacity_bytes ∧
      LastUsedFirst h.used (h.cache.lru.map CacheNode.key) ∧
      (∀ n ∈ h.cache.lru, n.key ∈ h.used) ∧
      (∀ call, h.InMemory call → (h.call call).isSome) ∧
      (∀ key, ∃ found c', h.cache.get key = some (found, c') ∧
        (key ∉ h.cache.lru.map CacheNode.key ∧ found = none ∧ c'.lru = h.cache.lru ∨
          ∃ n ∈ h.cache.lru, n.key = key ∧ found = some n.entry.value ∧
            c'.lru = n :: h.cache.lru.filter fun m => m.key ≠ key)) ∧
      ∀ key value c', h.InMemory (.put key value) → h.cache.accepts value →
        h.cache.put key value = some c' →
        LongestFit CacheNode.charge capacity_bytes (h.cache.orderOf key value) c'.lru := by
  have hk := CacheHistory.kept_of_reach hr
  refine ⟨hk.represented, hk.capacity, hk.order, hk.used, ?_, fun key => ?_, ?_⟩
  · intro call hmemory
    obtain ⟨h', hcall, -⟩ := hk.call call hmemory
    rw [hcall]
    rfl
  · obtain ⟨hnone, hget⟩ | ⟨n, c', hn, hkey, hget, -, -, hlru⟩ := hk.represented.get key
    · exact ⟨_, _, hget, Or.inl ⟨hk.represented.index.none_iff.mp hnone, rfl, rfl⟩⟩
    · exact ⟨_, _, hget, Or.inr ⟨n, hn, hkey, rfl, hlru⟩⟩
  · intro key value c' hmemory haccepts hput
    obtain ⟨c'', hput', -, -, hfit⟩ := hk.represented.put key haccepts (hk.room hmemory)
    rw [hput] at hput'
    rw [Option.some.inj hput', ← hk.capacity]
    exact hfit

/-- Two bytes of room: a value of two bytes pushes out two of one byte, a value of none stays
in front of it. -/
theorem block_cache_representation_of_five_calls : ∃ h : CacheHistory,
    h.cache.lru.map CacheNode.key = [[3], [4]] ∧ h.used = [[3], [4], [1], [2], [1]] ∧
      h.cache.Represented := by
  have hrun : [CacheCall.put [1] [5], .put [2] [6], .get [1], .put [4] [7, 8], .put [3] []].foldlM
      (guarded CacheHistory.call CacheHistory.InMemory) (.new 2) = some _ := rfl
  exact ⟨_, by decide, by decide, (block_cache_representation (reach_of_foldlM hrun)).1⟩

end MiniTsdb
