import MiniTsdb.Proofs.MemTable
import MiniTsdb.Spec.SkipList

/-! The skip list as an ordered map. Every level is a linked list of ascending keys and a
sublist of the level below it; a search goes along these lists, and an insert splices one node
into the lowest of them. -/

namespace MiniTsdb
open Lib

namespace SkipList
variable {κ ν : Type*}

theorem heightLoop_range (rnd : ℕ → ℕ) (turns height : ℕ) :
    height ≤ heightLoop rnd turns height ∧ heightLoop rnd turns height ≤ height + turns := by
  induction turns generalizing height with
  | zero => simp [heightLoop]
  | succ turns ih =>
    have hnext := ih (height + 1)
    rw [heightLoop]
    split_ifs <;> omega

theorem randomHeight_range (rnd : ℕ → ℕ) :
    1 ≤ randomHeight rnd ∧ randomHeight rnd ≤ kMaxLevel := heightLoop_range rnd _ _

def level (sl : SkipList κ ν) (i p : ℕ) : Option ℕ := (sl.nodes p).next_ i

def keyOf (sl : SkipList κ ν) (n : ℕ) : κ := (sl.nodes n).key

variable [LinearOrder κ]

/-- The list holds its nodes in these levels. -/
structure Holds (sl : SkipList κ ν) (levels : ℕ → List ℕ) : Prop where
  height : 1 ≤ sl.max_height ∧ sl.max_height ≤ kMaxLevel
  linked : ∀ i, Linked (sl.level i) 0 (levels i)
  above : ∀ i, sl.max_height ≤ i → levels i = []
  ascending : Ascending sl.keyOf (levels 0)
  sub : ∀ i, (levels (i + 1)).Sublist (levels i)
  nodes : ∀ n ∈ levels 0, 0 < n ∧ n < sl.size
  room : 0 < sl.size

section
variable {sl : SkipList κ ν} {levels : ℕ → List ℕ} (h : Holds sl levels)
include h

theorem Holds.sub_bottom (i : ℕ) : (levels i).Sublist (levels 0) := by
  induction i with
  | zero => exact List.Sublist.refl _
  | succ i ih => exact (h.sub i).trans ih

theorem Holds.asc (i : ℕ) : Ascending sl.keyOf (levels i) := h.ascending.sublist (h.sub_bottom i)

theorem Holds.mem_range {i n : ℕ} (hn : n ∈ levels i) : 0 < n ∧ n < sl.size :=
  h.nodes n ((h.sub_bottom i).subset hn)

theorem Holds.length_lt (i : ℕ) : (levels i).length < sl.size := by
  have hnodup : (0 :: levels i).Nodup :=
    List.nodup_cons.mpr ⟨fun hmem => absurd (h.mem_range hmem).1 (lt_irrefl 0), (h.asc i).nodup⟩
  have hsub : (0 :: levels i).Subperm (List.range sl.size) := by
    refine hnodup.subperm fun n hn => List.mem_range.mpr ?_
    rcases List.mem_cons.mp hn with rfl | hn
    · exact h.room
    · exact (h.mem_range hn).2
  simpa using hsub.length_le

end

/-- The nodes of a level before a key, and those from it on. -/
def before (sl : SkipList κ ν) (key : κ) (nodes : List ℕ) : List ℕ :=
  nodes.filter fun n => sl.keyOf n < key

def atLeast (sl : SkipList κ ν) (key : κ) (nodes : List ℕ) : List ℕ :=
  nodes.filter fun n => key ≤ sl.keyOf n

/-- The node that `prev` records: the last one before the key. -/
def pred (sl : SkipList κ ν) (key : κ) (nodes : List ℕ) : ℕ := (sl.before key nodes).getLastD 0

section
variable (cmp : Comparator κ) {sl : SkipList κ ν} {key : κ}

theorem keyIsAfterNode_iff {n : ℕ} : sl.keyIsAfterNode cmp key n = true ↔ sl.keyOf n < key := by
  rw [keyIsAfterNode, beq_iff_eq, cmp.lt_iff]
  rfl

/-- Along nodes before the key, the search goes on at the last of them. -/
theorem findLoop_right {i x turns : ℕ} {as bs : List ℕ} {prev : ℕ → Option ℕ}
    (hlinked : Linked (sl.level i) x (as ++ bs)) (hbefore : ∀ n ∈ as, sl.keyOf n < key) :
    sl.findLoop cmp key (as.length + turns) x i prev =
      sl.findLoop cmp key turns (as.getLastD x) i prev := by
  induction as generalizing x with
  | nil => simp
  | cons a as ih =>
    obtain ⟨hnext, hrest⟩ := hlinked
    have hafter : sl.keyIsAfterNode cmp key a = true :=
      (keyIsAfterNode_iff cmp).mpr (hbefore a List.mem_cons_self)
    rw [List.length_cons, Nat.add_right_comm, findLoop]
    dsimp only
    rw [show (sl.nodes x).next_ i = some a from hnext, Option.filter_some, if_pos hafter]
    dsimp only
    rw [ih hrest fun n hn => hbefore n (List.mem_cons_of_mem a hn), List.getLastD_cons]

/-- What the search does when it leaves a level at `x`, in front of `next`. -/
def leaveLevel (sl : SkipList κ ν) (key : κ) (turns x : ℕ) (next : Option ℕ) :
    ℕ → (ℕ → Option ℕ) → Option (Option ℕ × (ℕ → Option ℕ))
  | 0, prev => some (next, Function.update prev 0 (some x))
  | i + 1, prev => sl.findLoop cmp key turns x i (Function.update prev (i + 1) (some x))

/-- In front of the first node from the key on, it leaves the level. -/
theorem findLoop_stop {i x turns : ℕ} {bs : List ℕ} {prev : ℕ → Option ℕ}
    (hlinked : Linked (sl.level i) x bs) (hfrom : ∀ n ∈ bs, key ≤ sl.keyOf n) :
    sl.findLoop cmp key (turns + 1) x i prev = sl.leaveLevel cmp key turns x bs.head? i prev := by
  have hnext : (sl.nodes x).next_ i = bs.head? := hlinked.head?
  have hstop : bs.head?.filter (sl.keyIsAfterNode cmp key) = none := by
    rw [Option.filter_eq_none_iff]
    intro n hn hafter
    exact not_lt.mpr (hfrom n (List.mem_of_mem_head? hn)) ((keyIsAfterNode_iff cmp).mp hafter)
  rw [findLoop]
  dsimp only
  rw [hnext, hstop]
  cases i <;> rfl

/-- A node from which a level can be searched: only nodes before the key are behind it. -/
def Starts (sl : SkipList κ ν) (key : κ) (nodes : List ℕ) (x : ℕ) : Prop :=
  ∃ as bs, nodes = as ++ bs ∧ x = as.getLastD 0 ∧ ∀ n ∈ as, sl.keyOf n < key

theorem getLastD_append (as bs : List ℕ) (d : ℕ) :
    (as ++ bs).getLastD d = bs.getLastD (as.getLastD d) := by
  induction as generalizing d with
  | nil => rfl
  | cons a as ih => rw [List.cons_append, List.getLastD_cons, List.getLastD_cons, ih]

variable {levels : ℕ → List ℕ} (h : Holds sl levels)
include h

variable (key) in
theorem Holds.split (i : ℕ) : sl.before key (levels i) ++ sl.atLeast key (levels i) = levels i :=
  (h.asc i).filter_append key

/-- The node that a level was left at starts the level below. -/
theorem Holds.starts_below (i : ℕ) : sl.Starts key (levels i) (sl.pred key (levels (i + 1))) := by
  unfold pred
  cases hb : sl.before key (levels (i + 1)) with
  | nil => exact ⟨[], levels i, rfl, rfl, by simp⟩
  | cons a as =>
    set x := (a :: as).getLastD 0 with hx
    have hmem : x ∈ sl.before key (levels (i + 1)) := by
      rw [hb, hx, List.getLastD_cons]
      exact List.getLastD_mem_cons ..
    obtain ⟨hupper, hlt⟩ := List.mem_filter.mp hmem
    obtain ⟨cs, ds, hsplit⟩ := List.append_of_mem ((h.sub i).subset hupper)
    have hasc := h.asc i
    rw [hsplit] at hasc
    refine ⟨cs ++ [x], ds, by simp [hsplit], by simp, fun n hn => ?_⟩
    have hkey : sl.keyOf x < key := of_decide_eq_true hlt
    rcases List.mem_append.mp hn with hn | hn
    · exact ((ascending_append.mp hasc).2.2 n hn x List.mem_cons_self).trans hkey
    · exact List.mem_singleton.mp hn ▸ hkey

/-- A level is searched to the last node before the key, and left there. -/
theorem Holds.findLoop_level (turns : ℕ) {i x : ℕ} (hx : sl.Starts key (levels i) x)
    (hturns : sl.size ≤ turns) (prev : ℕ → Option ℕ) :
    ∃ rest, turns ≤ rest + sl.size ∧ sl.findLoop cmp key turns x i prev =
      sl.leaveLevel cmp key rest (sl.pred key (levels i)) (sl.atLeast key (levels i)).head? i prev := by
  obtain ⟨as, bs, hsplit, rfl, hbefore⟩ := hx
  have hlinked := h.linked i
  have hasc := h.asc i
  have hlength := h.length_lt i
  rw [hsplit] at hlinked hasc hlength
  have hrest : sl.before key bs ++ sl.atLeast key bs = bs :=
    (ascending_append.mp hasc).2.1.filter_append key
  have hall : sl.before key (levels i) = as ++ sl.before key bs := by
    rw [hsplit, before, List.filter_append, List.filter_eq_self.mpr]
    · rfl
    · exact fun n hn => decide_eq_true (hbefore n hn)
  have hlater : sl.atLeast key (levels i) = sl.atLeast key bs := by
    rw [hsplit, atLeast, List.filter_append, List.filter_eq_nil_iff.mpr]
    · rfl
    · exact fun n hn => by simpa using hbefore n hn
  have hpred : (sl.before key bs).getLastD (as.getLastD 0) = sl.pred key (levels i) := by
    rw [pred, hall, getLastD_append]
  have hwalk := hlinked.drop
  rw [← hrest] at hwalk
  have hshort : (sl.before key bs).length ≤ (as ++ bs).length :=
    (List.length_filter_le _ bs).trans (by simp)
  obtain ⟨rest, rfl⟩ : ∃ rest, turns = (sl.before key bs).length + (rest + 1) :=
    ⟨turns - (sl.before key bs).length - 1, by omega⟩
  refine ⟨rest, by omega, ?_⟩
  have hstop := hwalk.drop
  rw [hpred] at hstop
  rw [findLoop_right cmp hwalk fun n hn => of_decide_eq_true (List.mem_filter.mp hn).2, hpred, hlater]
  exact findLoop_stop cmp hstop fun n hn => of_decide_eq_true (List.mem_filter.mp hn).2

/-- From a node of some level, the search ends at the first node of the bottom level from the
key on, and records the last node before the key on each level it has passed. -/
theorem Holds.findLoop_eq (turns : ℕ) {i x : ℕ} (hx : sl.Starts key (levels i) x)
    (hturns : (i + 1) * sl.size ≤ turns) (prev : ℕ → Option ℕ) :
    ∃ prev', sl.findLoop cmp key turns x i prev =
        some ((sl.atLeast key (levels 0)).head?, prev') ∧
      (∀ j ≤ i, prev' j = some (sl.pred key (levels j))) ∧ ∀ j, i < j → prev' j = prev j := by
  induction i generalizing x turns prev with
  | zero =>
    obtain ⟨rest, -, hloop⟩ := h.findLoop_level cmp turns hx (by omega) prev
    refine ⟨_, hloop, fun j hj => ?_, fun j hj => Function.update_of_ne (by omega) ..⟩
    obtain rfl : j = 0 := by omega
    exact Function.update_self ..
  | succ i ih =>
    have hmul : (i + 1 + 1) * sl.size = (i + 1) * sl.size + sl.size := Nat.succ_mul ..
    obtain ⟨rest, hrest, hloop⟩ := h.findLoop_level cmp turns hx (by omega) prev
    obtain ⟨prev', hend, hpassed, hkept⟩ := ih rest (h.starts_below i) (by omega)
      (Function.update prev (i + 1) (some (sl.pred key (levels (i + 1)))))
    refine ⟨prev', hloop.trans hend, fun j hj => ?_, fun j hj => ?_⟩
    · rcases Nat.lt_or_ge i j with hlt | hge
      · obtain rfl : j = i + 1 := by omega
        rw [hkept _ (Nat.lt_succ_self i), Function.update_self]
      · exact hpassed j hge
    · rw [hkept j (by omega), Function.update_of_ne (by omega)]

variable (key) in
theorem Holds.find :
    ∃ prev, sl.findGreaterOrEqual cmp key = some ((sl.atLeast key (levels 0)).head?, prev) ∧
      ∀ j < sl.max_height, prev j = some (sl.pred key (levels j)) := by
  have hstart : sl.Starts key (levels (sl.max_height - 1)) 0 := ⟨[], _, rfl, rfl, by simp⟩
  have hheight := h.height.1
  obtain ⟨prev, hloop, hpassed, -⟩ := h.findLoop_eq cmp (sl.max_height * sl.size) hstart
    (by rw [Nat.sub_add_cancel hheight]) fun _ => none
  exact ⟨prev, hloop, fun j hj => hpassed j (by omega)⟩

end

def valueOf (sl : SkipList κ ν) (n : ℕ) : ν := (sl.nodes n).value

/-- The bottom level holds what a map holds. -/
def Represents (sl : SkipList κ ν) (levels : ℕ → List ℕ) (map : κ → Option ν) : Prop :=
  ∀ k v, map k = some v ↔ ∃ n ∈ levels 0, sl.keyOf n = k ∧ sl.valueOf n = v

section
variable {sl : SkipList κ ν} {levels : ℕ → List ℕ} (h : Holds sl levels) (cmp : Comparator κ) {key : κ}
include h

/-- The node that the search stops at is the one with the key, if there is one. -/
theorem Holds.isNode_iff {n : ℕ} : sl.isNode cmp key (sl.atLeast key (levels 0)).head? = some n ↔
    n ∈ levels 0 ∧ sl.keyOf n = key := by
  unfold isNode
  rw [Option.filter_eq_some_iff, beq_iff_eq, cmp.eq_iff]
  have hasc : Ascending sl.keyOf (sl.atLeast key (levels 0)) := h.ascending.filter _
  refine ⟨fun ⟨hhead, hkey⟩ => ?_, fun ⟨hn, hkey⟩ => ⟨?_, hkey.symm⟩⟩
  · exact ⟨(List.mem_filter.mp (List.mem_of_mem_head? hhead)).1, hkey.symm⟩
  · have hmem : n ∈ sl.atLeast key (levels 0) := List.mem_filter.mpr ⟨hn, decide_eq_true hkey.ge⟩
    cases hl : sl.atLeast key (levels 0) with
    | nil =>
      rw [hl] at hmem
      contradiction
    | cons m rest =>
      rw [hl] at hmem hasc
      have hm : key ≤ sl.keyOf m := by
        have : m ∈ sl.atLeast key (levels 0) := hl ▸ List.mem_cons_self
        exact of_decide_eq_true (List.mem_filter.mp this).2
      rcases List.mem_cons.mp hmem with rfl | hrest
      · rfl
      · exact absurd ((ascending_cons.mp hasc).1 n hrest) (not_lt.mpr (hkey ▸ hm))

theorem Holds.get_eq {map : κ → Option ν} (hmap : sl.Represents levels map) (key : κ) :
    sl.get cmp key = some (map key) ∧ sl.contains cmp key = some (map key).isSome := by
  obtain ⟨prev, hfind, -⟩ := h.find cmp key
  have hvalue : (sl.isNode cmp key (sl.atLeast key (levels 0)).head?).map sl.valueOf = map key := by
    apply Option.ext
    intro v
    simp only [Option.map_eq_some_iff, hmap key v, h.isNode_iff cmp, and_assoc]
  refine ⟨?_, ?_⟩
  · rw [get, hfind]
    exact congrArg some hvalue
  · rw [contains, hfind, ← hvalue, Option.isSome_map]
    rfl

end

omit [LinearOrder κ] in
theorem setNext_next (nodes : ℕ → SkipNode κ ν) (p i : ℕ) (target : Option ℕ) (j q : ℕ) :
    (setNext nodes p i target q).next_ j =
      if q = p ∧ j = i then target else (nodes q).next_ j := by
  unfold setNext
  by_cases hq : q = p
  · subst hq
    by_cases hj : j = i <;> simp [hj]
  · simp [hq]

omit [LinearOrder κ] in
theorem setNext_data (nodes : ℕ → SkipNode κ ν) (p i : ℕ) (target : Option ℕ) (q : ℕ) :
    (setNext nodes p i target q).key = (nodes q).key ∧
      (setNext nodes p i target q).value = (nodes q).value := by
  unfold setNext
  by_cases hq : q = p
  · subst hq
    simp
  · simp [hq]

omit [LinearOrder κ] in
/-- The loop splices the node into each of its levels, behind the node that `prev` gives. -/
theorem spliceLoop_eq {prev : ℕ → Option ℕ} {p : ℕ → ℕ} (n : ℕ) {count i : ℕ}
    (nodes : ℕ → SkipNode κ ν) (hprev : ∀ j, i ≤ j → j < i + count → prev j = some (p j)) :
    ∃ nodes', spliceLoop prev n count i nodes = some nodes' ∧
      (∀ q, (nodes' q).key = (nodes q).key ∧ (nodes' q).value = (nodes q).value) ∧
      ∀ j, (i ≤ j ∧ j < i + count → (fun q => (nodes' q).next_ j) =
          spliced (fun q => (nodes q).next_ j) (p j) n) ∧
        (¬ (i ≤ j ∧ j < i + count) → ∀ q, (nodes' q).next_ j = (nodes q).next_ j) := by
  induction count generalizing i nodes with
  | zero => exact ⟨nodes, rfl, fun q => ⟨rfl, rfl⟩, fun j => ⟨fun hj => by omega, fun _ q => rfl⟩⟩
  | succ count ih =>
    set first := setNext nodes n i ((nodes (p i)).next_ i) with hfirst
    set linked := setNext first (p i) i (some n) with hlinked
    have hnext : ∀ j q, (linked q).next_ j = if j = i then
        spliced (fun q => (nodes q).next_ i) (p i) n q else (nodes q).next_ j := by
      intro j q
      rw [hlinked, setNext_next, hfirst, setNext_next]
      by_cases hj : j = i
      · subst hj
        unfold spliced
        by_cases hp : q = p j
        · simp [hp]
        · by_cases hn : q = n
          · subst hn
            simp [hp]
          · simp [hp, hn]
      · simp [hj]
    obtain ⟨nodes', hloop, hdata, hspliced⟩ :=
      ih (i := i + 1) linked fun j hj hlt => hprev j (by omega) (by omega)
    refine ⟨nodes', ?_, fun q => ?_, fun j => ⟨fun hj => ?_, fun hj q => ?_⟩⟩
    · rw [spliceLoop, hprev i le_rfl (by omega)]
      exact hloop
    · rw [(hdata q).1, (hdata q).2, hlinked, (setNext_data _ _ _ _ q).1, (setNext_data _ _ _ _ q).2,
        hfirst, (setNext_data _ _ _ _ q).1, (setNext_data _ _ _ _ q).2]
      exact ⟨rfl, rfl⟩
    · by_cases hji : j = i
      · subst hji
        funext q
        rw [(hspliced j).2 (by omega) q, hnext, if_pos rfl]
      · rw [(hspliced j).1 (by omega)]
        congr 1
        funext q
        rw [hnext, if_neg hji]
    · rw [(hspliced j).2 (by omega) q, hnext, if_neg (by omega)]

section
variable {sl : SkipList κ ν} {levels : ℕ → List ℕ} (h : Holds sl levels)
include h

/-- A value that is overwritten leaves keys and links as they are. -/
theorem Holds.overwrite {map : κ → Option ν} (hmap : sl.Represents levels map) {n : ℕ}
    (hn : n ∈ levels 0) (value : ν) :
    let sl' : SkipList κ ν :=
      { sl with nodes := Function.update sl.nodes n { sl.nodes n with value := value } }
    Holds sl' levels ∧ sl'.Represents levels (Function.update map (sl.keyOf n) (some value)) := by
  intro sl'
  have hkey : sl'.keyOf = sl.keyOf := by
    funext q
    by_cases hq : q = n <;> simp [sl', keyOf, hq]
  have hlevel : sl'.level = sl.level := by
    funext i q
    by_cases hq : q = n <;> simp [sl', level, hq]
  have hvalue : sl'.valueOf = Function.update sl.valueOf n value := by
    funext q
    by_cases hq : q = n <;> simp [sl', valueOf, hq]
  refine ⟨⟨h.height, ?_, h.above, ?_, h.sub, h.nodes, h.room⟩, fun k v => ?_⟩
  · rw [hlevel]
    exact h.linked
  · rw [hkey]
    exact h.ascending
  · rw [hkey, hvalue]
    by_cases hk : k = sl.keyOf n
    · rw [hk, Function.update_self, Option.some.injEq]
      refine ⟨fun hv => ⟨n, hn, rfl, by rw [Function.update_self, hv]⟩, fun ⟨m, hm, hm', hv⟩ => ?_⟩
      obtain rfl : m = n := h.ascending.inj hm hn hm'
      rw [← hv, Function.update_self]
    · rw [Function.update_of_ne hk, hmap k v]
      refine exists_congr fun m => and_congr_right fun _ => and_congr_right fun hm => ?_
      have hne : m ≠ n := fun he => hk (he ▸ hm.symm)
      rw [Function.update_of_ne hne]

/-- The levels once a node is spliced in below a height. -/
def splicedLevels (sl : SkipList κ ν) (levels : ℕ → List ℕ) (key : κ) (height : ℕ) (i : ℕ) : List ℕ :=
  if i < height then sl.before key (levels i) ++ sl.size :: sl.atLeast key (levels i) else levels i

theorem Holds.fresh (i : ℕ) : sl.size ∉ 0 :: levels i := by
  intro hmem
  rcases List.mem_cons.mp hmem with hzero | hmem
  · exact absurd h.room (by omega)
  · exact absurd (h.mem_range hmem).2 (lt_irrefl _)

theorem Holds.nodup (i : ℕ) : (0 :: levels i).Nodup :=
  List.nodup_cons.mpr ⟨fun hmem => absurd (h.mem_range hmem).1 (lt_irrefl 0), (h.asc i).nodup⟩

theorem Holds.mem_splicedLevels {key : κ} {height i n : ℕ} :
    n ∈ sl.splicedLevels levels key height i ↔ n ∈ levels i ∨ i < height ∧ n = sl.size := by
  unfold splicedLevels
  have hsplit : n ∈ levels i ↔ n ∈ sl.before key (levels i) ∨ n ∈ sl.atLeast key (levels i) := by
    rw [← List.mem_append, h.split key]
  by_cases hi : i < height
  · simp only [hi, if_true, List.mem_append, List.mem_cons, hsplit, true_and]
    tauto
  · simp [hi]

/-- A node is spliced in on all levels below its height, so each stays a sublist of the one below. -/
theorem Holds.sub_spliced (key : κ) (height i : ℕ) :
    (sl.splicedLevels levels key height (i + 1)).Sublist (sl.splicedLevels levels key height i) := by
  have hbefore : (sl.before key (levels (i + 1))).Sublist (sl.before key (levels i)) :=
    (h.sub i).filter _
  have hfrom : (sl.atLeast key (levels (i + 1))).Sublist (sl.atLeast key (levels i)) :=
    (h.sub i).filter _
  unfold splicedLevels
  by_cases hupper : i + 1 < height
  · rw [if_pos hupper, if_pos (by omega)]
    exact hbefore.append (hfrom.cons_cons _)
  · rw [if_neg hupper]
    by_cases hi : i < height
    · rw [if_pos hi, ← h.split key]
      exact hbefore.append (hfrom.cons _)
    · rw [if_neg hi]
      exact h.sub i

variable {key : κ} {value : ν} {nodes : ℕ → SkipNode κ ν}

/-- The keys and values once a node is made in a fresh place. -/
def Made (sl : SkipList κ ν) (nodes : ℕ → SkipNode κ ν) (key : κ) (value : ν) : Prop :=
  ∀ q, (nodes q).key = (Function.update sl.nodes sl.size ⟨key, value, fun _ => none⟩ q).key ∧
    (nodes q).value = (Function.update sl.nodes sl.size ⟨key, value, fun _ => none⟩ q).value

omit [LinearOrder κ] h in
theorem Made.old (hmade : sl.Made nodes key value) {n : ℕ} (hn : n ≠ sl.size) :
    (nodes n).key = sl.keyOf n ∧ (nodes n).value = sl.valueOf n := by
  have hdata := hmade n
  rw [Function.update_of_ne hn] at hdata
  exact hdata

omit [LinearOrder κ] h in
theorem Made.self (hmade : sl.Made nodes key value) :
    (nodes sl.size).key = key ∧ (nodes sl.size).value = value := by
  have hdata := hmade sl.size
  rw [Function.update_self] at hdata
  exact hdata

/-- The bottom level with the new node is ascending if no node had its key. -/
theorem Holds.ascending_spliced (hmade : sl.Made nodes key value) {height : ℕ} (hheight : 1 ≤ height)
    (hnew : ∀ n ∈ levels 0, sl.keyOf n ≠ key) :
    Ascending (fun n => (nodes n).key) (sl.splicedLevels levels key height 0) := by
  have hold : ∀ n ∈ levels 0, (nodes n).key = sl.keyOf n := fun n hn =>
    (hmade.old (h.mem_range hn).2.ne).1
  have hbefore : ∀ n ∈ sl.before key (levels 0), n ∈ levels 0 ∧ sl.keyOf n < key := by
    intro n hn
    obtain ⟨hmem, hlt⟩ := List.mem_filter.mp hn
    exact ⟨hmem, of_decide_eq_true hlt⟩
  have hfrom : ∀ n ∈ sl.atLeast key (levels 0), n ∈ levels 0 ∧ key < sl.keyOf n := by
    intro n hn
    obtain ⟨hmem, hle⟩ := List.mem_filter.mp hn
    exact ⟨hmem, lt_of_le_of_ne (of_decide_eq_true hle) (hnew n hmem).symm⟩
  rw [splicedLevels, if_pos (by omega), ascending_append, ascending_cons]
  refine ⟨?_, ⟨fun n hn => ?_, ?_⟩, fun a ha b hb => ?_⟩
  · refine (h.ascending.filter _).imp_of_mem fun ha hb hlt => ?_
    beta_reduce
    rw [hold _ (hbefore _ ha).1, hold _ (hbefore _ hb).1]
    exact hlt
  · rw [hmade.self.1, hold n (hfrom n hn).1]
    exact (hfrom n hn).2
  · refine (h.ascending.filter _).imp_of_mem fun ha hb hlt => ?_
    beta_reduce
    rw [hold _ (hfrom _ ha).1, hold _ (hfrom _ hb).1]
    exact hlt
  · rw [hold a (hbefore a ha).1]
    rcases List.mem_cons.mp hb with rfl | hb
    · rw [hmade.self.1]
      exact (hbefore a ha).2
    · rw [hold b (hfrom b hb).1]
      exact (hbefore a ha).2.trans (hfrom b hb).2

variable (key) in
/-- The links of a level in which the node is spliced lead through the new level. -/
theorem Holds.linked_spliced (i : ℕ) {next : ℕ → Option ℕ}
    (hsame : ∀ q, q ≠ sl.size → next q = sl.level i q) :
    Linked (spliced next (sl.pred key (levels i)) sl.size) 0
      (sl.before key (levels i) ++ sl.size :: sl.atLeast key (levels i)) := by
  have hfresh := h.fresh i
  have hnodup := h.nodup i
  have hlinked : Linked next 0 (levels i) :=
    (h.linked i).congr fun q hq => hsame q fun he => hfresh (he ▸ hq)
  rw [← h.split key] at hlinked hnodup hfresh
  exact hlinked.splice hnodup hfresh

theorem Holds.represents_spliced {map : κ → Option ν} (hmap : sl.Represents levels map)
    (hmade : sl.Made nodes key value) {height : ℕ} (hheight : 1 ≤ height)
    (hnew : ∀ n ∈ levels 0, sl.keyOf n ≠ key) (k : κ) (v : ν) :
    Function.update map key (some value) k = some v ↔
      ∃ n ∈ sl.splicedLevels levels key height 0, (nodes n).key = k ∧ (nodes n).value = v := by
  have hmem : ∀ n, n ∈ sl.splicedLevels levels key height 0 ↔ n ∈ levels 0 ∨ n = sl.size := fun n =>
    h.mem_splicedLevels.trans (or_congr_right (and_iff_right (by omega)))
  have hold : ∀ n ∈ levels 0, (nodes n).key = sl.keyOf n ∧ (nodes n).value = sl.valueOf n :=
    fun n hn => hmade.old (h.mem_range hn).2.ne
  by_cases hk : k = key
  · subst hk
    rw [Function.update_self, Option.some.injEq]
    refine ⟨fun hv => ⟨sl.size, (hmem _).mpr (Or.inr rfl), hmade.self.1, hmade.self.2.trans hv⟩, ?_⟩
    rintro ⟨n, hn, hkey, hv⟩
    rcases (hmem n).mp hn with hn | rfl
    · exact absurd ((hold n hn).1.symm.trans hkey) (hnew n hn)
    · exact hmade.self.2.symm.trans hv
  · rw [Function.update_of_ne hk, hmap k v]
    refine ⟨fun ⟨n, hn, hkey, hv⟩ => ?_, fun ⟨n, hn, hkey, hv⟩ => ?_⟩
    · exact ⟨n, (hmem n).mpr (Or.inl hn), (hold n hn).1.trans hkey, (hold n hn).2.trans hv⟩
    · rcases (hmem n).mp hn with hn | rfl
      · exact ⟨n, hn, (hold n hn).1.symm.trans hkey, (hold n hn).2.symm.trans hv⟩
      · exact absurd (hkey.symm.trans hmade.self.1) hk

/-- A node for a new key is spliced in, below a height that may be above the list's. -/
theorem Holds.splice {map : κ → Option ν} (hmap : sl.Represents levels map)
    {height : ℕ} (hheight : 1 ≤ height ∧ height ≤ kMaxLevel) (hnew : ∀ n ∈ levels 0, sl.keyOf n ≠ key)
    (hmade : sl.Made nodes key value)
    (hlinks : ∀ j, (j < height → (fun q => (nodes q).next_ j) = spliced (fun q =>
        (Function.update sl.nodes sl.size ⟨key, value, fun _ => none⟩ q).next_ j)
          (sl.pred key (levels j)) sl.size) ∧
      (¬ j < height → ∀ q, (nodes q).next_ j =
        (Function.update sl.nodes sl.size ⟨key, value, fun _ => none⟩ q).next_ j)) :
    let sl' : SkipList κ ν := ⟨nodes, sl.size + 1, max sl.max_height height⟩
    Holds sl' (sl.splicedLevels levels key height) ∧
      sl'.Represents (sl.splicedLevels levels key height) (Function.update map key (some value)) := by
  have hsame : ∀ j q, q ≠ sl.size →
      (Function.update sl.nodes sl.size ⟨key, value, fun _ => none⟩ q).next_ j = sl.level j q := by
    intro j q hq
    rw [Function.update_of_ne hq]
    rfl
  refine ⟨⟨?_, fun j => ?_, fun j hj => ?_, h.ascending_spliced hmade hheight.1 hnew,
    h.sub_spliced key height, fun n hn => ?_, Nat.succ_pos _⟩,
    h.represents_spliced hmap hmade hheight.1 hnew⟩
  · have hold := h.height
    exact ⟨le_max_of_le_left hold.1, max_le hold.2 hheight.2⟩
  · by_cases hj : j < height
    · rw [splicedLevels, if_pos hj]
      have hlevel := h.linked_spliced key j (hsame j)
      rw [← (hlinks j).1 hj] at hlevel
      exact hlevel
    · rw [splicedLevels, if_neg hj]
      refine (h.linked j).congr fun q hq => ?_
      exact ((hlinks j).2 hj q).trans (hsame j q fun he => h.fresh j (he ▸ hq))
  · obtain ⟨hlow, hheight⟩ := max_le_iff.mp hj
    rw [splicedLevels, if_neg (not_lt.mpr hheight)]
    exact h.above j hlow
  · change 0 < n ∧ n < sl.size + 1
    rcases h.mem_splicedLevels.mp hn with hn | ⟨-, rfl⟩
    · have hrange := h.mem_range hn
      omega
    · exact ⟨h.room, Nat.lt_succ_self _⟩

theorem Holds.insert (cmp : Comparator κ) {map : κ → Option ν} (hmap : sl.Represents levels map)
    (key : κ) (value : ν) {height : ℕ} (hheight : 1 ≤ height ∧ height ≤ kMaxLevel) :
    ∃ sl' levels', sl.insert cmp key value height = some sl' ∧ Holds sl' levels' ∧
      sl'.Represents levels' (Function.update map key (some value)) := by
  obtain ⟨prev, hfind, hprev⟩ := h.find cmp key
  rw [SkipList.insert, hfind]
  dsimp only
  cases hnode : sl.isNode cmp key (sl.atLeast key (levels 0)).head? with
  | some n =>
    obtain ⟨hn, hkey⟩ := (h.isNode_iff cmp).mp hnode
    obtain ⟨hholds, hrep⟩ := h.overwrite hmap hn value
    rw [hkey] at hrep
    exact ⟨_, levels, rfl, hholds, hrep⟩
  | none =>
    have hnew : ∀ n ∈ levels 0, sl.keyOf n ≠ key := by
      intro n hn hkey
      have hfound := (h.isNode_iff cmp).mpr ⟨hn, hkey⟩
      rw [hnode] at hfound
      contradiction
    -- a level above the list's height is empty, and `head_` is its last node before the key
    have hpred : ∀ j, 0 ≤ j → j < 0 + height → (if sl.max_height ≤ j ∧ j < height then some 0 else prev j) =
        some (sl.pred key (levels j)) := by
      intro j _ hj
      split_ifs with hgrown
      · rw [h.above j hgrown.1]
        rfl
      · exact hprev j (by omega)
    obtain ⟨nodes, hloop, hmade, hlinks⟩ := spliceLoop_eq sl.size
      (Function.update sl.nodes sl.size ⟨key, value, fun _ => none⟩) hpred
    obtain ⟨hholds, hrep⟩ := h.splice hmap hheight hnew hmade fun j =>
      ⟨fun hj => (hlinks j).1 (by omega), fun hj => (hlinks j).2 (by omega)⟩
    rw [hloop]
    exact ⟨_, _, rfl, hholds, hrep⟩

end

theorem holds_new [Inhabited κ] [Inhabited ν] : Holds (new : SkipList κ ν) fun _ => [] := by
  refine ⟨⟨le_rfl, (by decide : 1 ≤ kMaxLevel)⟩, fun i => rfl, fun i _ => rfl, ascending_nil, fun i => ?_, ?_, Nat.one_pos⟩
  · exact List.Sublist.refl _
  · exact fun n hn => absurd hn List.not_mem_nil

/-- `Insert` calls, each with the height that `RandomHeight` may return in it. -/
def insertAll (cmp : Comparator κ) (sl : SkipList κ ν) (calls : List (κ × ν × ℕ)) :
    Option (SkipList κ ν) :=
  calls.foldlM (fun sl call => sl.insert cmp call.1 call.2.1 call.2.2) sl

def inserted (calls : List (κ × ν × ℕ)) : κ → Option ν :=
  calls.foldl (fun map call => Function.update map call.1 (some call.2.1)) fun _ => none

/-- What `FindGreaterOrEqual` returns for a key: a node of the bottom level with the least key
from it on, or null where there is none. -/
def LeastFrom (sl : SkipList κ ν) (bottom : List ℕ) (key : κ) : Option ℕ → Prop
  | none => ∀ n ∈ bottom, sl.keyOf n < key
  | some n => n ∈ bottom ∧ key ≤ sl.keyOf n ∧ ∀ m ∈ bottom, key ≤ sl.keyOf m → sl.keyOf n ≤ sl.keyOf m

section
variable (cmp : Comparator κ)

theorem Holds.insertAll {calls : List (κ × ν × ℕ)}
    (hheights : ∀ call ∈ calls, 1 ≤ call.2.2 ∧ call.2.2 ≤ kMaxLevel) {sl : SkipList κ ν}
    {levels : ℕ → List ℕ} (h : Holds sl levels) {map : κ → Option ν} (hmap : sl.Represents levels map) :
    ∃ sl' levels', sl.insertAll cmp calls = some sl' ∧ Holds sl' levels' ∧ sl'.Represents levels'
      (calls.foldl (fun map call => Function.update map call.1 (some call.2.1)) map) := by
  induction calls generalizing sl levels map with
  | nil => exact ⟨sl, levels, rfl, h, hmap⟩
  | cons call calls ih =>
    obtain ⟨hfirst, hrest⟩ := List.forall_mem_cons.mp hheights
    obtain ⟨sl₁, levels₁, hinsert, hholds, hrep⟩ := h.insert cmp hmap call.1 call.2.1 hfirst
    obtain ⟨sl₂, levels₂, hall, hend⟩ := ih hrest hholds hrep
    refine ⟨sl₂, levels₂, ?_, hend⟩
    rw [SkipList.insertAll, List.foldlM_cons, hinsert]
    exact hall

variable {sl : SkipList κ ν} {levels : ℕ → List ℕ} (h : Holds sl levels)
include h

theorem Holds.least (key : κ) :
    sl.LeastFrom (levels 0) key (sl.atLeast key (levels 0)).head? := by
  have hfrom : ∀ m ∈ levels 0, key ≤ sl.keyOf m → m ∈ sl.atLeast key (levels 0) := fun m hm hle =>
    List.mem_filter.mpr ⟨hm, decide_eq_true hle⟩
  have hasc : Ascending sl.keyOf (sl.atLeast key (levels 0)) := h.ascending.filter _
  cases hl : sl.atLeast key (levels 0) with
  | nil =>
    intro n hn
    refine not_le.mp fun hle => ?_
    have hmem := hfrom n hn hle
    rw [hl] at hmem
    contradiction
  | cons n rest =>
    have hn : n ∈ sl.atLeast key (levels 0) := hl ▸ List.mem_cons_self
    obtain ⟨hmem, hle⟩ := List.mem_filter.mp hn
    refine ⟨hmem, of_decide_eq_true hle, fun m hm hkey => ?_⟩
    have hlater := hfrom m hm hkey
    rw [hl] at hlater hasc
    rcases List.mem_cons.mp hlater with rfl | hlater
    · exact le_rfl
    · exact ((ascending_cons.mp hasc).1 m hlater).le

/-- The bottom level holds each key of the map once, with its value. -/
theorem Holds.once {map : κ → Option ν} (hmap : sl.Represents levels map) (k : κ) :
    ((levels 0).filter fun n => sl.keyOf n = k).map sl.valueOf = (map k).toList := by
  cases hk : map k with
  | none =>
    rw [List.filter_eq_nil_iff.mpr fun n hn => ?_]
    · rfl
    · intro hkey
      have hsome := (hmap k (sl.valueOf n)).mpr ⟨n, hn, of_decide_eq_true hkey, rfl⟩
      rw [hk] at hsome
      contradiction
  | some v =>
    obtain ⟨n, hn, rfl, rfl⟩ := (hmap k v).mp hk
    rw [h.ascending.filter_eq_singleton hn]
    rfl

end

instance : Inhabited TsKey := ⟨TsKey.default⟩

instance : Inhabited InternalEntry := ⟨⟨[], .kValue⟩⟩

def tsKey : Comparator TsKey := ⟨tsKeyComparator, tsKeyComparator_lt_iff, tsKeyComparator_eq_iff⟩

/-- After any calls the list holds what the map holds, and answers as the map does. -/
theorem insertAll_refines_map [Inhabited κ] [Inhabited ν] (cmp : Comparator κ)
    (calls : List (κ × ν × ℕ)) (hheights : ∀ call ∈ calls, 1 ≤ call.2.2 ∧ call.2.2 ≤ kMaxLevel) :
    ∃ (sl : SkipList κ ν) (levels : ℕ → List ℕ), new.insertAll cmp calls = some sl ∧
      (∀ i, Linked (sl.level i) 0 (levels i) ∧ Ascending sl.keyOf (levels i)) ∧
      (∀ i, (levels (i + 1)).Sublist (levels i)) ∧
      (∀ k, ((levels 0).filter fun n => sl.keyOf n = k).map sl.valueOf = (inserted calls k).toList) ∧
      (∀ k, sl.get cmp k = some (inserted calls k) ∧
        sl.contains cmp k = some (inserted calls k).isSome) ∧
      ∀ k, ∃ found prev, sl.findGreaterOrEqual cmp k = some (found, prev) ∧
        sl.LeastFrom (levels 0) k found := by
  have hempty : (new : SkipList κ ν).Represents (fun _ => []) fun _ => none := by
    intro k v
    simp
  obtain ⟨sl, levels, hall, h, hmap⟩ := holds_new.insertAll cmp hheights hempty
  refine ⟨sl, levels, hall, fun i => ⟨h.linked i, h.asc i⟩, h.sub, h.once hmap, h.get_eq cmp hmap, ?_⟩
  intro k
  obtain ⟨prev, hfind, -⟩ := h.find cmp k
  exact ⟨_, prev, hfind, h.least k⟩

def cpuCalls : List (TsKey × InternalEntry × ℕ) :=
  [(⟨[99], 2⟩, ⟨[1], .kValue⟩, 3), (⟨[99], 1⟩, ⟨[2], .kValue⟩, 1), (⟨[99], 2⟩, ⟨[3], .kValue⟩, 12)]

theorem insertAll_refines_map_cpu : ∃ sl : SkipList TsKey InternalEntry,
    new.insertAll tsKey cpuCalls = some sl ∧
    sl.get tsKey ⟨[99], 2⟩ = some (some ⟨[3], .kValue⟩) ∧ sl.contains tsKey ⟨[99], 3⟩ = some false := by
  obtain ⟨sl, levels, hall, -, -, -, hget, -⟩ := insertAll_refines_map tsKey cpuCalls (by decide)
  refine ⟨sl, hall, ?_, ?_⟩
  · rw [(hget _).1]
    simp [inserted, cpuCalls]
  · rw [(hget _).2]
    simp [inserted, cpuCalls]

end SkipList

end MiniTsdb
