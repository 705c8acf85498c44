import MiniTsdb.Lib.SizeT
import MiniTsdb.Spec.BlockCache

/-! Calls of a block cache (`block_cache.cpp`), and the cache with both of its structures:
`lru_`, a list whose nodes keep their identity when they move, and `map_`, which leads from a
key to its node. -/

namespace MiniTsdb
open Lib

inductive CacheCall
  | get (key : Bytes)
  | put (key value : Bytes)
  | clear
  deriving DecidableEq, Repr

namespace BlockCache

def clear (c : BlockCache) : BlockCache :=
  { c with
    lru := []
    usage_bytes := 0
    hits := 0
    misses := 0 }

def call (c : BlockCache) : CacheCall → BlockCache
  | .get key => (c.get key).2
  | .put key value => c.put key value
  | .clear => c.clear

def run (capacity_bytes : ℕ) (calls : List CacheCall) : BlockCache :=
  calls.foldl call (new capacity_bytes)

end BlockCache

/-- A node of `lru_`; an iterator is the `id` of its node. -/
structure CacheNode where
  id : ℕ
  entry : CacheEntry
  deriving DecidableEq, Repr

structure NodeCache where
  capacity_bytes : ℕ
  usage_bytes : ℕ
  lru : List CacheNode
  map : Bytes → Option ℕ
  /-- Where the next node is allocated. -/
  next_id : ℕ
  hits : ℕ
  misses : ℕ

namespace NodeCache

def new (capacity_bytes : ℕ) : NodeCache := ⟨capacity_bytes, 0, [], fun _ => none, 0, 0, 0⟩

/-- What an iterator leads to; none if it dangles. -/
def node (c : NodeCache) (it : ℕ) : Option CacheNode := c.lru.find? fun n => n.id == it

def erased (c : NodeCache) (it : ℕ) : List CacheNode := c.lru.eraseP fun n => n.id == it

/-- None is undefined behaviour: an iterator of the map dangles. -/
def get (c : NodeCache) (key : Bytes) : Option (Option Bytes × NodeCache) :=
  match c.map key with
  | none => some (none, { c with misses := c.misses + 1 })
  | some it =>
    match c.node it with
    | none => none
    | some n => some (some n.entry.value, { c with
        lru := n :: c.erased it
        hits := c.hits + 1 })

def pruneLoop : ℕ → NodeCache → NodeCache
  | 0, c => c
  | turns + 1, c =>
    match c.lru.getLast? with
    | none => c
    | some n =>
      if c.usage_bytes > c.capacity_bytes then
        pruneLoop turns { c with
          usage_bytes := sizeSub c.usage_bytes n.entry.charge
          map := Function.update c.map n.entry.key none
          lru := c.lru.dropLast }
      else c

def pruneUnlocked (c : NodeCache) : NodeCache := pruneLoop c.lru.length c

def dropOld (c : NodeCache) (key : Bytes) : Option NodeCache :=
  match c.map key with
  | none => some c
  | some it =>
    match c.node it with
    | none => none
    | some old => some { c with
        usage_bytes := sizeSub c.usage_bytes old.entry.charge
        lru := c.erased it
        map := Function.update c.map key none }

/-- `Put` does not return early. -/
def accepts (c : NodeCache) (value : Bytes) : Bool :=
  !(c.capacity_bytes == 0 || decide (value.length > c.capacity_bytes))

def pushFront (c : NodeCache) (entry : CacheEntry) : NodeCache :=
  { c with
    lru := ⟨c.next_id, entry⟩ :: c.lru
    map := Function.update c.map entry.key (some c.next_id)
    usage_bytes := sizeAdd c.usage_bytes entry.charge
    next_id := c.next_id + 1 }

def put (c : NodeCache) (key value : Bytes) : Option NodeCache :=
  if c.accepts value then
    match c.dropOld key with
    | none => none
    | some c => some (pruneUnlocked (c.pushFront ⟨key, value, value.length⟩))
  else some c

def clear (c : NodeCache) : NodeCache :=
  { c with
    lru := []
    map := fun _ => none
    usage_bytes := 0
    hits := 0
    misses := 0 }

end NodeCache

end MiniTsdb
