import MiniTsdb.Lib.Ascending

/-! Merging ranked lists: all members sorted by key, under one key the last list first,
and one member kept for each key. The merge holds for each key what the last list
with that key holds. -/

namespace Lib

variable {ρ β γ : Type*} [LinearOrder β] (f : ρ → β)

def ranked (lists : List (List ρ)) : List (ρ × ℕ) :=
  lists.zipIdx.flatMap fun p => p.1.map fun r => (r, p.2)

/-- Ascending keys; under one key the higher rank first. -/
def rankedKey (a : ρ × ℕ) : β ×ₗ ℕᵒᵈ := toLex (f a.1, OrderDual.toDual a.2)

/-- The first member under each key, `last` being the key just taken. -/
def firstOfEach (last : Option β) : List (ρ × γ) → List ρ
  | [] => []
  | a :: as =>
    if last = some (f a.1) then firstOfEach last as else a.1 :: firstOfEach (some (f a.1)) as

def mergeRanked (lists : List (List ρ)) : List ρ :=
  firstOfEach f none (sortBy (rankedKey f) (ranked lists))

variable {f}

theorem mem_ranked {lists : List (List ρ)} {a : ρ × ℕ} :
    a ∈ ranked lists ↔ ∃ xs, lists[a.2]? = some xs ∧ a.1 ∈ xs := by
  simp only [ranked, List.mem_flatMap, List.mem_map, Prod.exists, List.mem_zipIdx_iff_getElem?]
  refine ⟨?_, fun h => ?_⟩
  · intro h
    obtain ⟨xs, i, hxs, r, hr, rfl⟩ := h
    exact ⟨xs, hxs, hr⟩
  · obtain ⟨xs, hxs, hr⟩ := h
    exact ⟨xs, a.2, hxs, a.1, hr, rfl⟩

theorem rankedKey_lt_iff {a b : ρ × ℕ} :
    rankedKey f a < rankedKey f b ↔ f a.1 < f b.1 ∨ f a.1 = f b.1 ∧ b.2 < a.2 := by
  rw [rankedKey, rankedKey, Prod.Lex.toLex_lt_toLex, OrderDual.toDual_lt_toDual]

omit [LinearOrder β] in
theorem nodup_rankedKey {lists : List (List ρ)} (h : ∀ xs ∈ lists, (xs.map f).Nodup) :
    ((ranked lists).map (rankedKey f)).Nodup := by
  have hinner : ∀ p ∈ lists.zipIdx, ((p.1.map fun r => (r, p.2)).map (rankedKey f)).Nodup := by
    intro p hp
    have hkeys := List.pairwise_map.mp (h p.1 (List.fst_mem_of_mem_zipIdx hp))
    rw [List.map_map]
    apply List.pairwise_map.mpr
    apply List.Pairwise.imp _ hkeys
    intro a b hab heq
    exact hab (congrArg (fun z : β ×ₗ ℕᵒᵈ => (ofLex z).1) heq)
  have hidx : lists.zipIdx.Pairwise fun p q => p.2 < q.2 := by
    rw [← List.pairwise_map (f := Prod.snd) (R := fun i j : ℕ => i < j), List.zipIdx_map_snd]
    exact List.pairwise_lt_range'
  rw [ranked, List.map_flatMap]
  apply List.nodup_flatMap.mpr
  refine ⟨hinner, hidx.imp fun {p q} hpq => ?_⟩
  intro a hp hq
  obtain ⟨x, hx, rfl⟩ := List.mem_map.mp hp
  obtain ⟨y, hy, hxy⟩ := List.mem_map.mp hq
  obtain ⟨r, -, rfl⟩ := List.mem_map.mp hx
  obtain ⟨t, -, rfl⟩ := List.mem_map.mp hy
  have hsnd : q.2 = p.2 := congrArg (fun z : β ×ₗ ℕᵒᵈ => OrderDual.ofDual (ofLex z).2) hxy
  omega

theorem exists_of_mem_firstOfEach {as : List (ρ × γ)} {last : Option β} {r : ρ}
    (h : r ∈ firstOfEach f last as) : ∃ i, (r, i) ∈ as := by
  induction as generalizing last with
  | nil => contradiction
  | cons a as ih =>
    rw [firstOfEach] at h
    split_ifs at h
    · obtain ⟨i, hi⟩ := ih h
      exact ⟨i, List.mem_cons_of_mem a hi⟩
    · rcases List.mem_cons.mp h with rfl | h
      · exact ⟨a.2, List.mem_cons_self⟩
      · obtain ⟨i, hi⟩ := ih h
        exact ⟨i, List.mem_cons_of_mem a hi⟩

/-- What is merged comes from the lists. -/
theorem exists_of_mem_mergeRanked {lists : List (List ρ)} {r : ρ} (h : r ∈ mergeRanked f lists) :
    ∃ xs ∈ lists, r ∈ xs := by
  obtain ⟨i, hi⟩ := exists_of_mem_firstOfEach h
  obtain ⟨xs, hxs, hr⟩ := mem_ranked.mp (mem_sortBy.mp hi)
  exact ⟨xs, List.mem_of_getElem? hxs, hr⟩

theorem sorted_of_rankedKey {as : List (ρ × ℕ)} (h : Ascending (rankedKey f) as) :
    as.Pairwise fun a b => f a.1 ≤ f b.1 :=
  h.imp fun hlt => (rankedKey_lt_iff.mp hlt).elim le_of_lt fun heq => heq.1.le

/-- Taking the first of each key takes what a search for the key meets. -/
theorem mem_firstOfEach_iff_find? [DecidableEq β] {as : List (ρ × γ)} {last : Option β}
    (hsorted : as.Pairwise fun a b => f a.1 ≤ f b.1)
    (hlast : ∀ l, last = some l → ∀ a ∈ as, l ≤ f a.1) {r : ρ} :
    r ∈ firstOfEach f last as ↔
      last ≠ some (f r) ∧ ∃ i, (as.find? fun b => f b.1 = f r) = some (r, i) := by
  induction as generalizing last with
  | nil => simp [firstOfEach]
  | cons a as ih =>
    obtain ⟨hle, hrest⟩ := List.pairwise_cons.mp hsorted
    rw [firstOfEach, List.find?_cons]
    split_ifs with hskip
    · -- the key was taken before
      rw [ih hrest fun l hl b hb => hlast l hl b (List.mem_cons_of_mem a hb)]
      refine and_congr_right fun hne => ?_
      have hkey : f a.1 ≠ f r := fun heq => hne (heq ▸ hskip)
      simp [hkey]
    · have hnext : ∀ l, some (f a.1) = some l → ∀ b ∈ as, l ≤ f b.1 :=
        fun l hl b hb => Option.some.inj hl ▸ hle b hb
      rw [List.mem_cons, ih hrest hnext]
      by_cases hkey : f a.1 = f r
      · simp only [hkey, decide_true, Option.some.injEq]
        refine ⟨?_, ?_⟩
        · rintro (rfl | ⟨hne, -⟩)
          · exact ⟨hskip, a.2, rfl⟩
          · exact absurd rfl hne
        · rintro ⟨-, i, rfl⟩
          exact Or.inl rfl
      · have hne : r ≠ a.1 := fun heq => hkey (heq ▸ rfl)
        simp only [hkey, decide_false, Option.some.injEq, hne, false_or, ne_eq, not_false_eq_true,
          true_and]
        refine ⟨fun hr => ⟨fun hl => ?_, hr⟩, And.right⟩
        -- a key that was taken before is at most every key that is left
        obtain ⟨i, hi⟩ := hr
        have hmem := List.mem_of_find?_eq_some hi
        exact hkey (le_antisymm (hle _ hmem) (hlast _ hl a List.mem_cons_self))

theorem ascending_firstOfEach {as : List (ρ × γ)} {last : Option β}
    (hsorted : as.Pairwise fun a b => f a.1 ≤ f b.1)
    (hlast : ∀ l, last = some l → ∀ a ∈ as, l ≤ f a.1) :
    Ascending f (firstOfEach f last as) := by
  induction as generalizing last with
  | nil => exact ascending_nil
  | cons a as ih =>
    obtain ⟨hle, hrest⟩ := List.pairwise_cons.mp hsorted
    rw [firstOfEach]
    split_ifs with hskip
    · exact ih hrest fun l hl b hb => hlast l hl b (List.mem_cons_of_mem a hb)
    · have hnext : ∀ l, some (f a.1) = some l → ∀ b ∈ as, l ≤ f b.1 :=
        fun l hl b hb => Option.some.inj hl ▸ hle b hb
      refine ascending_cons.mpr ⟨fun r hr => ?_, ih hrest hnext⟩
      obtain ⟨hne, i, hi⟩ := (mem_firstOfEach_iff_find? hrest hnext).mp hr
      exact lt_of_le_of_ne (hle _ (List.mem_of_find?_eq_some hi)) fun heq => hne (congrArg some heq)

/-- The first member with a property, of a list without repetitions that ascends in `g`, is
the least one. -/
theorem Ascending.find?_eq_some_iff_least {g : ρ → β} {xs : List ρ} (h : Ascending g xs)
    {p : ρ → Bool} {a : ρ} :
    xs.find? p = some a ↔ a ∈ xs ∧ p a = true ∧ ∀ b ∈ xs, p b = true → g a ≤ g b := by
  induction xs with
  | nil => simp
  | cons x xs ih =>
    obtain ⟨hlt, hrest⟩ := ascending_cons.mp h
    rw [List.find?_cons]
    cases hp : p x with
    | true =>
      simp only [Option.some.injEq]
      refine ⟨?_, ?_⟩
      · rintro rfl
        refine ⟨List.mem_cons_self, hp, fun b hb _ => ?_⟩
        rcases List.mem_cons.mp hb with rfl | hb
        · exact le_rfl
        · exact (hlt b hb).le
      · rintro ⟨hmem, -, hleast⟩
        rcases List.mem_cons.mp hmem with rfl | hmem
        · rfl
        · exact absurd (hlt a hmem) (not_lt.mpr (hleast x List.mem_cons_self hp))
    | false =>
      dsimp only
      rw [ih hrest]
      refine ⟨?_, ?_⟩
      · rintro ⟨hmem, ha, hleast⟩
        refine ⟨List.mem_cons_of_mem x hmem, ha, fun b hb hpb => ?_⟩
        rcases List.mem_cons.mp hb with rfl | hb
        · rw [hp] at hpb
          contradiction
        · exact hleast b hb hpb
      · rintro ⟨hmem, ha, hleast⟩
        rcases List.mem_cons.mp hmem with rfl | hmem
        · rw [hp] at ha
          contradiction
        · exact ⟨hmem, ha, fun b hb => hleast b (List.mem_cons_of_mem x hb)⟩

/-- Taking the first of each key from a sorted list takes the highest rank of each key. -/
theorem mem_firstOfEach {as : List (ρ × ℕ)} (hasc : Ascending (rankedKey f) as) {r : ρ} :
    r ∈ firstOfEach f none as ↔ ∃ i, (r, i) ∈ as ∧ ∀ b ∈ as, f b.1 = f r → b.2 ≤ i := by
  classical
  rw [mem_firstOfEach_iff_find? (sorted_of_rankedKey hasc) fun _ hl => by contradiction]
  simp only [ne_eq, reduceCtorEq, not_false_eq_true, true_and, hasc.find?_eq_some_iff_least]
  refine exists_congr fun i => and_congr_right fun _ => ?_
  simp only [decide_true, true_and, decide_eq_true_eq]
  refine forall₂_congr fun b _ => forall_congr' fun hkey => ?_
  rw [← not_lt, rankedKey_lt_iff, ← not_lt]
  simp [hkey]

theorem ascending_mergeRanked {lists : List (List ρ)} (h : ∀ xs ∈ lists, (xs.map f).Nodup) :
    Ascending f (mergeRanked f lists) :=
  ascending_firstOfEach (sorted_of_rankedKey (ascending_sortBy (nodup_rankedKey h)))
    fun _ hl => by contradiction

/-- The merge holds a member of a list exactly when no later list has its key. -/
theorem mem_mergeRanked {lists : List (List ρ)} (h : ∀ xs ∈ lists, (xs.map f).Nodup) {r : ρ} :
    r ∈ mergeRanked f lists ↔ ∃ (i : ℕ) (xs : List ρ), lists[i]? = some xs ∧ r ∈ xs ∧
      ∀ (j : ℕ) (ys : List ρ), lists[j]? = some ys → ∀ r' ∈ ys, f r' = f r → j ≤ i := by
  rw [mergeRanked, mem_firstOfEach (ascending_sortBy (nodup_rankedKey h))]
  simp only [mem_sortBy, mem_ranked]
  refine ⟨?_, fun hr => ?_⟩
  · intro hr
    obtain ⟨i, ⟨xs, hxs, hmem⟩, hmax⟩ := hr
    exact ⟨i, xs, hxs, hmem, fun j ys hys r' hr' heq => hmax (r', j) ⟨ys, hys, hr'⟩ heq⟩
  · obtain ⟨i, xs, hxs, hmem, hmax⟩ := hr
    refine ⟨i, ⟨xs, hxs, hmem⟩, fun b hb heq => ?_⟩
    obtain ⟨ys, hys, hb⟩ := hb
    exact hmax b.2 ys hys b.1 hb heq

/-- A member of an ascending list is what a search for its key finds. -/
theorem Ascending.find?_eq_some_iff [DecidableEq β] {xs : List ρ} (h : Ascending f xs) {k : β} {r : ρ} :
    (xs.find? fun a => f a = k) = some r ↔ r ∈ xs ∧ f r = k := by
  refine ⟨fun hf => ⟨List.mem_of_find?_eq_some hf, by simpa using List.find?_some hf⟩, ?_⟩
  intro hr
  obtain ⟨hmem, rfl⟩ := hr
  cases hf : xs.find? fun a => f a = f r with
  | none => simpa using List.find?_eq_none.mp hf r hmem
  | some a =>
    have heq : f a = f r := by simpa using List.find?_some hf
    rw [h.inj (List.mem_of_find?_eq_some hf) hmem heq]

/-- A search in the merge finds what the last list with the key holds. -/
theorem find?_mergeRanked [DecidableEq β] {lists : List (List ρ)} (h : ∀ xs ∈ lists, Ascending f xs) (k : β) :
    ((mergeRanked f lists).find? fun r => f r = k) =
      lists.reverse.findSome? fun xs => xs.find? fun r => f r = k := by
  have hnodup : ∀ xs ∈ lists, (xs.map f).Nodup := fun xs hxs => (h xs hxs).nodup_map
  have hasc := ascending_mergeRanked hnodup
  apply Option.ext
  intro r
  rw [hasc.find?_eq_some_iff, mem_mergeRanked hnodup, List.findSome?_eq_some_iff]
  refine ⟨?_, ?_⟩
  · intro hr
    obtain ⟨⟨i, xs, hxs, hmem, hmax⟩, rfl⟩ := hr
    obtain ⟨hi, hget⟩ := List.getElem?_eq_some_iff.mp hxs
    have hsplit : lists = lists.take i ++ xs :: lists.drop (i + 1) := by
      rw [← hget, List.getElem_cons_drop, List.take_append_drop]
    refine ⟨(lists.drop (i + 1)).reverse, xs, (lists.take i).reverse, ?_, ?_, fun ys hys => ?_⟩
    · conv_lhs => rw [hsplit]
      simp
    · exact (h xs (List.mem_of_getElem? hxs)).find?_eq_some_iff.mpr ⟨hmem, rfl⟩
    · rw [List.find?_eq_none]
      intro r' hr' heq
      obtain ⟨j, hj⟩ := List.getElem?_of_mem (List.mem_reverse.mp hys)
      rw [List.getElem?_drop] at hj
      have := hmax _ ys hj r' hr' (by simpa using heq)
      omega
  · intro hr
    obtain ⟨as, xs, bs, hsplit, hfind, hnone⟩ := hr
    have hlists : lists = bs.reverse ++ xs :: as.reverse := by
      rw [← List.reverse_inj, hsplit]
      simp
    have hxs : lists[bs.length]? = some xs := by rw [hlists]; simp
    obtain ⟨hmem, rfl⟩ := (h xs (List.mem_of_getElem? hxs)).find?_eq_some_iff.mp hfind
    refine ⟨⟨bs.length, xs, hxs, hmem, fun j ys hys r' hr' heq => ?_⟩, rfl⟩
    by_contra hlt
    rw [hlists, List.getElem?_append_right (by simp; omega)] at hys
    have hlen : j - bs.reverse.length = (j - bs.length - 1) + 1 := by simp; omega
    rw [hlen, List.getElem?_cons_succ] at hys
    have hys' : ys ∈ as := List.mem_reverse.mp (List.mem_of_getElem? hys)
    have := List.find?_eq_none.mp (hnone ys hys') r' hr'
    simp [heq] at this

/-- Ascending keys; under one key the lower rank first. -/
def byRank (f : ρ → β) (a : ρ × ℕ) : β ×ₗ ℕ := toLex (f a.1, a.2)

theorem byRank_lt_iff {a b : ρ × ℕ} :
    byRank f a < byRank f b ↔ f a.1 < f b.1 ∨ f a.1 = f b.1 ∧ a.2 < b.2 := by
  rw [byRank, byRank, Prod.Lex.toLex_lt_toLex]

theorem sorted_of_byRank {as : List (ρ × ℕ)} (h : Ascending (byRank f) as) :
    as.Pairwise fun a b => f a.1 ≤ f b.1 :=
  h.imp fun hlt => (byRank_lt_iff.mp hlt).elim le_of_lt fun heq => heq.1.le

theorem find?_sortBy_byRank [DecidableEq β] {as : List (ρ × ℕ)}
    (hrank : as.Pairwise fun a b => a.2 ≤ b.2) (hnodup : (as.map (byRank f)).Nodup) (k : β) :
    ((sortBy (byRank f) as).find? fun a => f a.1 = k) = as.find? fun a => f a.1 = k := by
  have hsorted := ascending_sortBy hnodup
  have hleft : Ascending Prod.snd ((sortBy (byRank f) as).filter fun a => f a.1 = k) := by
    refine List.pairwise_filter.mpr (hsorted.imp fun {a b} hlt ha hb => ?_)
    rcases byRank_lt_iff.mp hlt with h | h
    · exact absurd ((of_decide_eq_true ha).trans (of_decide_eq_true hb).symm) h.ne
    · exact h.2
  have hright : Ascending Prod.snd (as.filter fun a => f a.1 = k) := by
    refine List.pairwise_filter.mpr ((hrank.and (List.pairwise_map.mp hnodup)).imp
      fun {a b} h ha hb => lt_of_le_of_ne h.1 fun heq => h.2 ?_)
    rw [byRank, byRank, of_decide_eq_true ha, of_decide_eq_true hb, heq]
  have hsame : ((sortBy (byRank f) as).filter fun a => f a.1 = k) =
      as.filter fun a => f a.1 = k := hleft.ext hright fun a => by simp
  rw [← List.head?_filter, hsame, List.head?_filter]

/-- The members of the sources, each with the rank of its source. -/
def withRanks (sources : List (List ρ × ℕ)) : List (ρ × ℕ) :=
  sources.flatMap fun s => s.1.map fun r => (r, s.2)

variable {sources : List (List ρ × ℕ)} (hranks : sources.Pairwise fun s t => s.2 < t.2)

include hranks

omit [LinearOrder β] in
theorem pairwise_withRanks : (withRanks sources).Pairwise fun a b => a.2 ≤ b.2 := by
  refine List.pairwise_flatMap.mpr ⟨fun s _ => ?_, hranks.imp fun hlt a ha b hb => ?_⟩
  · exact List.pairwise_map.mpr (List.pairwise_of_forall fun _ _ => le_rfl)
  · obtain ⟨r, -, rfl⟩ := List.mem_map.mp ha
    obtain ⟨t, -, rfl⟩ := List.mem_map.mp hb
    exact hlt.le

omit [LinearOrder β] in
theorem nodup_byRank_withRanks (h : ∀ s ∈ sources, (s.1.map f).Nodup) :
    ((withRanks sources).map (byRank f)).Nodup := by
  refine List.pairwise_map.mpr (List.pairwise_flatMap.mpr ⟨fun s hs => ?_,
    hranks.imp fun hlt a ha b hb heq => ?_⟩)
  · refine List.pairwise_map.mpr ((List.pairwise_map.mp (h s hs)).imp fun hne heq => hne ?_)
    exact congrArg (fun z : β ×ₗ ℕ => (ofLex z).1) heq
  · obtain ⟨r, -, rfl⟩ := List.mem_map.mp ha
    obtain ⟨t, -, rfl⟩ := List.mem_map.mp hb
    exact hlt.ne (congrArg (fun z : β ×ₗ ℕ => (ofLex z).2) heq)

/-- Sorted and cut to one member a key, the sources hold what the first source with the key
holds. -/
theorem mem_firstOfEach_withRanks [DecidableEq β] (h : ∀ s ∈ sources, (s.1.map f).Nodup) {r : ρ} :
    r ∈ firstOfEach f none (sortBy (byRank f) (withRanks sources)) ↔
      (sources.findSome? fun s => s.1.find? fun a => f a = f r) = some r := by
  have hnodup := nodup_byRank_withRanks hranks h
  rw [mem_firstOfEach_iff_find? (sorted_of_byRank (ascending_sortBy hnodup))
    fun _ hl => by contradiction]
  simp only [find?_sortBy_byRank (pairwise_withRanks hranks) hnodup, ne_eq, reduceCtorEq,
    not_false_eq_true, true_and]
  have hfst : ((withRanks sources).find? fun a => f a.1 = f r).map Prod.fst =
      sources.findSome? fun s => s.1.find? fun a => f a = f r := by
    rw [withRanks, List.find?_flatMap, List.map_findSome?]
    congr 1
    funext s
    rw [Function.comp_apply, List.find?_map, Option.map_map]
    exact Option.map_id'
  rw [← hfst, Option.map_eq_some_iff]
  refine ⟨fun ⟨i, hi⟩ => ⟨(r, i), hi, rfl⟩, ?_⟩
  rintro ⟨⟨r', i⟩, hi, rfl⟩
  exact ⟨i, hi⟩

end Lib
