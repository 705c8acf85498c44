import Mathlib

/-! A list of nodes with an index beside it that leads from the key of a node to its
identity, the order in which keys were used last, and the longest part of a list that fits a
bound. -/

namespace Lib

variable {ν ι κ : Type*} {key : ν → κ} {id : ν → ι}

/-- The index leads from the key of each node to its identity, and nowhere else. -/
structure NodeIndex (key : ν → κ) (id : ν → ι) (nodes : List ν) (map : κ → Option ι) : Prop where
  ids : (nodes.map id).Nodup
  keys : (nodes.map key).Nodup
  leads : ∀ k i, map k = some i ↔ ∃ n ∈ nodes, id n = i ∧ key n = k

namespace NodeIndex

variable {nodes nodes' : List ν} {map : κ → Option ι} {n : ν}

theorem nil : NodeIndex key id [] fun _ => none := ⟨List.nodup_nil, List.nodup_nil, by simp⟩

theorem perm (h : NodeIndex key id nodes map) (hperm : nodes.Perm nodes') :
    NodeIndex key id nodes' map := by
  refine ⟨(hperm.map id).nodup_iff.mp h.ids, (hperm.map key).nodup_iff.mp h.keys, ?_⟩
  intro k i
  simp only [h.leads, hperm.mem_iff]

theorem find_of_mem (h : NodeIndex key id nodes map) (hn : n ∈ nodes) :
    map (key n) = some (id n) := (h.leads _ _).mpr ⟨n, hn, rfl, rfl⟩

theorem eq_of_id (h : NodeIndex key id nodes map) {m : ν} (hn : n ∈ nodes) (hm : m ∈ nodes)
    (hid : id n = id m) : n = m := List.inj_on_of_nodup_map h.ids hn hm hid

theorem eq_of_key (h : NodeIndex key id nodes map) {m : ν} (hn : n ∈ nodes) (hm : m ∈ nodes)
    (hkey : key n = key m) : n = m := List.inj_on_of_nodup_map h.keys hn hm hkey

theorem none_iff (h : NodeIndex key id nodes map) {k : κ} :
    map k = none ↔ k ∉ nodes.map key := by
  rw [Option.eq_none_iff_forall_ne_some, List.mem_map]
  constructor
  · intro hnone hk
    obtain ⟨n, hn, rfl⟩ := hk
    exact hnone _ (h.find_of_mem hn)
  · intro hk i hi
    obtain ⟨n, hn, -, rfl⟩ := (h.leads _ _).mp hi
    exact hk ⟨n, hn, rfl⟩

variable [DecidableEq κ]

theorem filter_key_ne {xs ys : List ν} (h : NodeIndex key id (xs ++ n :: ys) map) :
    (xs ++ n :: ys).filter (fun m => key m ≠ key n) = xs ++ ys := by
  have hkeys := h.keys
  rw [List.map_append, List.map_cons, List.nodup_middle, List.nodup_cons, ← List.map_append] at hkeys
  have hkeep : (xs ++ ys).filter (fun m => key m ≠ key n) = xs ++ ys := by
    apply List.filter_eq_self.mpr
    intro m hm
    have hne : key m ≠ key n := by
      intro heq
      exact hkeys.1 (heq ▸ List.mem_map_of_mem hm)
    simpa using hne
  rw [← hkeep, List.filter_append, List.filter_cons_of_neg (by simp), ← List.filter_append]

theorem remove (h : NodeIndex key id (n :: nodes) map) :
    NodeIndex key id nodes (Function.update map (key n) none) := by
  have hids := h.ids
  have hkeys := h.keys
  rw [List.map_cons, List.nodup_cons] at hids hkeys
  refine ⟨hids.2, hkeys.2, ?_⟩
  intro k i
  by_cases hk : k = key n
  · subst hk
    simp only [Function.update_self, reduceCtorEq, false_iff]
    intro hm
    obtain ⟨m, hm, -, hkey⟩ := hm
    exact hkeys.1 (hkey ▸ List.mem_map_of_mem hm)
  · rw [Function.update_of_ne hk, h.leads]
    simp [Ne.symm hk]

/-- A node of a new key and a new identity comes in front. -/
theorem insert (h : NodeIndex key id nodes map) (hid : id n ∉ nodes.map id)
    (hkey : key n ∉ nodes.map key) :
    NodeIndex key id (n :: nodes) (Function.update map (key n) (some (id n))) := by
  refine ⟨List.nodup_cons.mpr ⟨hid, h.ids⟩, List.nodup_cons.mpr ⟨hkey, h.keys⟩, ?_⟩
  intro k i
  by_cases hk : k = key n
  · subst hk
    have hnone : ∀ m ∈ nodes, key m ≠ key n := by
      intro m hm heq
      exact hkey (heq ▸ List.mem_map_of_mem hm)
    simp only [Function.update_self, Option.some.injEq, List.mem_cons]
    constructor
    · intro hi
      exact ⟨n, Or.inl rfl, hi, rfl⟩
    · intro hm
      obtain ⟨m, rfl | hm, hi, heq⟩ := hm
      · exact hi
      · exact absurd heq (hnone m hm)
  · rw [Function.update_of_ne hk, h.leads]
    simp [Ne.symm hk]

end NodeIndex

/-- Where keys are distinct, the first element of a key is the only one. -/
theorem eraseP_eq_filter_key [DecidableEq κ] {nodes : List ν} (h : (nodes.map key).Nodup) {k : κ}
    {p : ν → Bool} (hp : ∀ n, p n = true ↔ key n = k) :
    nodes.eraseP p = nodes.filter fun n => key n ≠ k := by
  induction nodes with
  | nil => rfl
  | cons n nodes ih =>
    rw [List.map_cons, List.nodup_cons] at h
    by_cases hn : key n = k
    · have hkeep : nodes.filter (fun m => key m ≠ k) = nodes := by
        apply List.filter_eq_self.mpr
        intro m hm
        have hne : key m ≠ k := by
          intro heq
          exact h.1 (hn.trans heq.symm ▸ List.mem_map_of_mem hm)
        simpa using hne
      rw [List.eraseP_cons_of_pos ((hp n).mpr hn), List.filter_cons_of_neg (by simp [hn]), hkeep]
    · have hpn : ¬ p n = true := fun hpn => hn ((hp n).mp hpn)
      rw [List.eraseP_cons_of_neg hpn, List.filter_cons_of_pos (by simpa using hn), ih h.2]

variable [DecidableEq κ]

/-- The keys in the order in which they stand in a log, where the last use is in front. -/
def LastUsedFirst (used keys : List κ) : Prop :=
  keys.Pairwise fun a b => used.idxOf a < used.idxOf b

theorem LastUsedFirst.sublist {used keys keys' : List κ} (h : LastUsedFirst used keys)
    (hsub : keys'.Sublist keys) : LastUsedFirst used keys' := List.Pairwise.sublist hsub h

theorem LastUsedFirst.use {used keys : List κ} {k : κ} (h : LastUsedFirst used keys)
    (hk : k ∉ keys) : LastUsedFirst (k :: used) (k :: keys) := by
  have hne : ∀ a ∈ keys, k ≠ a := by
    intro a ha heq
    exact hk (heq ▸ ha)
  refine List.pairwise_cons.mpr ⟨?_, ?_⟩
  · intro a ha
    rw [List.idxOf_cons_self, List.idxOf_cons_ne _ (hne a ha)]
    omega
  · refine List.Pairwise.imp_of_mem ?_ h
    intro a b ha hb hab
    rw [List.idxOf_cons_ne _ (hne a ha), List.idxOf_cons_ne _ (hne b hb)]
    omega

/-- The longest prefix whose total stays within the bound. -/
structure LongestFit (charge : ν → ℕ) (bound : ℕ) (order kept : List ν) : Prop where
  isPrefix : kept <+: order
  fits : (kept.map charge).sum ≤ bound
  longest : ∀ part, part <+: order → (part.map charge).sum ≤ bound → part.length ≤ kept.length

variable {charge : ν → ℕ} {bound : ℕ} {order kept : List ν}

theorem LongestFit.whole (h : (order.map charge).sum ≤ bound) :
    LongestFit charge bound order order :=
  ⟨List.prefix_refl _, h, fun _ hpart _ => hpart.length_le⟩

/-- What does not fit may lose its last element. -/
theorem LongestFit.of_dropLast (h : LongestFit charge bound order.dropLast kept)
    (hover : bound < (order.map charge).sum) : LongestFit charge bound order kept := by
  refine ⟨h.isPrefix.trans (List.dropLast_prefix _), h.fits, ?_⟩
  intro part hpart hfit
  apply h.longest part _ hfit
  obtain ⟨rest, rfl⟩ := hpart
  have hrest : rest ≠ [] := by
    intro hnil
    rw [hnil, List.append_nil] at hover
    omega
  rw [List.dropLast_append_of_ne_nil hrest]
  exact List.prefix_append _ _

theorem LongestFit.map {μ : Type*} {f : ν → μ} {charge : μ → ℕ}
    (h : LongestFit (charge ∘ f) bound order kept) :
    LongestFit charge bound (order.map f) (kept.map f) := by
  refine ⟨h.isPrefix.map f, by simpa using h.fits, ?_⟩
  intro part hpart hfit
  obtain ⟨part', hpart', rfl⟩ := List.prefix_map_iff.mp hpart
  simpa using h.longest part' hpart' (by simpa using hfit)

end Lib
