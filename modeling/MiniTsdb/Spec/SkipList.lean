import MiniTsdb.Lib.Linked

/-! The skip list (`skiplist.h`), with its nodes in a heap: a pointer is the number of a node,
and node 0 is `head_`. -/

namespace MiniTsdb
open Lib

/-- A comparator that decides a linear order; it returns the sign of `compare_(a, b)`. -/
structure Comparator (κ : Type*) [LinearOrder κ] where
  compare : κ → κ → Ordering
  lt_iff : ∀ {a b}, compare a b = .lt ↔ a < b
  eq_iff : ∀ {a b}, compare a b = .eq ↔ a = b

def SkipList.kMaxLevel : ℕ := 12

/-- `next_` has `kMaxLevel` fields. -/
structure SkipNode (κ ν : Type*) where
  key : κ
  value : ν
  next_ : ℕ → Option ℕ

/-- `size` nodes have been made, `head_` included. -/
structure SkipList (κ ν : Type*) where
  nodes : ℕ → SkipNode κ ν
  size : ℕ
  max_height : ℕ

namespace SkipList
variable {κ ν : Type*}

def new [Inhabited κ] [Inhabited ν] : SkipList κ ν := ⟨fun _ => ⟨default, default, fun _ => none⟩, 1, 1⟩

/-- The loop of `RandomHeight`, with so many turns left; `rnd` gives the draw at each height. -/
def heightLoop (rnd : ℕ → ℕ) : ℕ → ℕ → ℕ
  | 0, height => height
  | turns + 1, height => if rnd height % 4 = 0 then heightLoop rnd turns (height + 1) else height

def randomHeight (rnd : ℕ → ℕ) : ℕ := heightLoop rnd (kMaxLevel - 1) 1

section
variable [LinearOrder κ] (cmp : Comparator κ)

def keyIsAfterNode (sl : SkipList κ ν) (key : κ) (n : ℕ) : Bool :=
  cmp.compare (sl.nodes n).key key == .lt

/-- The loop of `FindGreaterOrEqual`. A field of `prev` that is not written yet is `none`;
where the caller passes no `prev`, nobody reads it. -/
def findLoop (sl : SkipList κ ν) (key : κ) :
    ℕ → ℕ → ℕ → (ℕ → Option ℕ) → Option (Option ℕ × (ℕ → Option ℕ))
  | 0, _, _, _ => none
  | turns + 1, x, level, prev =>
    let next := (sl.nodes x).next_ level
    match next.filter (sl.keyIsAfterNode cmp key) with
    | some n => findLoop sl key turns n level prev
    | none =>
      let prev := Function.update prev level (some x)
      match level with
      | 0 => some (next, prev)
      | level + 1 => findLoop sl key turns x level prev

def findGreaterOrEqual (sl : SkipList κ ν) (key : κ) : Option (Option ℕ × (ℕ → Option ℕ)) :=
  sl.findLoop cmp key (sl.max_height * sl.size) 0 (sl.max_height - 1) fun _ => none

def isNode (sl : SkipList κ ν) (key : κ) (x : Option ℕ) : Option ℕ :=
  x.filter fun n => cmp.compare key (sl.nodes n).key == .eq

def get (sl : SkipList κ ν) (key : κ) : Option (Option ν) :=
  (sl.findGreaterOrEqual cmp key).map fun found =>
    (sl.isNode cmp key found.1).map fun n => (sl.nodes n).value

def contains (sl : SkipList κ ν) (key : κ) : Option Bool :=
  (sl.findGreaterOrEqual cmp key).map fun found => (sl.isNode cmp key found.1).isSome

end

def setNext (nodes : ℕ → SkipNode κ ν) (p level : ℕ) (target : Option ℕ) : ℕ → SkipNode κ ν :=
  Function.update nodes p { nodes p with next_ := Function.update (nodes p).next_ level target }

/-- The last loop of `Insert` from level `i` on; `none` where it reads an unwritten `prev`. -/
def spliceLoop (prev : ℕ → Option ℕ) (n : ℕ) : ℕ → ℕ → (ℕ → SkipNode κ ν) → Option (ℕ → SkipNode κ ν)
  | 0, _, nodes => some nodes
  | levels + 1, i, nodes =>
    match prev i with
    | none => none
    | some p =>
      let nodes := setNext nodes n i ((nodes p).next_ i)
      spliceLoop prev n levels (i + 1) (setNext nodes p i (some n))

/-- `Insert`; `height` is what `RandomHeight` returns if it is called. -/
def insert [LinearOrder κ] (cmp : Comparator κ) (sl : SkipList κ ν) (key : κ) (value : ν) (height : ℕ) :
    Option (SkipList κ ν) :=
  match sl.findGreaterOrEqual cmp key with
  | none => none
  | some (x, prev) =>
    match sl.isNode cmp key x with
    | some n => some { sl with nodes := Function.update sl.nodes n { sl.nodes n with value := value } }
    | none =>
      let prev i := if sl.max_height ≤ i ∧ i < height then some 0 else prev i
      let nodes := Function.update sl.nodes sl.size ⟨key, value, fun _ => none⟩
      (spliceLoop prev sl.size height 0 nodes).map fun nodes =>
        ⟨nodes, sl.size + 1, max sl.max_height height⟩

end SkipList

end MiniTsdb
