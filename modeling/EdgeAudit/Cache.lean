namespace EdgeAudit

structure CacheEntry (ν κ : Type) where
  value : ν
  stamp : κ
  deriving DecidableEq, Repr

inductive CacheError
  | noRoom
  deriving DecidableEq, Repr

def CacheError.message : CacheError → String
  | .noRoom => "max_size must be at least 1"

/-- A store with a bounded number of keys, the least recently used first. -/
structure Cache (ν κ : Type) where
  capacity : Nat
  entries : List (String × CacheEntry ν κ)
  deriving Repr

namespace Cache

variable {ν κ : Type}

def defaultCapacity : Int := 100

def create (capacity : Int) : Except CacheError (Cache ν κ) :=
  if capacity < 1 then .error .noRoom else .ok ⟨capacity.toNat, []⟩

def keys (c : Cache ν κ) : List String :=
  c.entries.map (·.1)

def size (c : Cache ν κ) : Nat :=
  c.entries.length

def find? (c : Cache ν κ) (key : String) : Option (CacheEntry ν κ) :=
  (c.entries.find? fun e => e.1 == key).map (·.2)

def contains (c : Cache ν κ) (key : String) : Bool :=
  (c.find? key).isSome

def without (c : Cache ν κ) (key : String) : List (String × CacheEntry ν κ) :=
  c.entries.filter fun e => e.1 != key

def place (c : Cache ν κ) (key : String) (entry : CacheEntry ν κ) : Cache ν κ :=
  { c with entries := c.without key ++ [(key, entry)] }

def get (c : Cache ν κ) (key : String) : Option (CacheEntry ν κ) × Cache ν κ :=
  match c.find? key with
  | none => (none, c)
  | some entry => (some entry, c.place key entry)

/-- The value of a key if it was stored under the same stamp. The key is touched in any case. -/
def getValid [BEq κ] (c : Cache ν κ) (key : String) (stamp : κ) : Option ν × Cache ν κ :=
  match c.get key with
  | (none, c) => (none, c)
  | (some entry, c) => (if entry.stamp == stamp then some entry.value else none, c)

def evict (c : Cache ν κ) : Cache ν κ :=
  if c.capacity ≤ c.size then { c with entries := c.entries.drop 1 } else c

def set (c : Cache ν κ) (key : String) (value : ν) (stamp : κ) : Cache ν κ :=
  (if c.contains key then c else c.evict).place key ⟨value, stamp⟩

def delete (c : Cache ν κ) (key : String) : Cache ν κ :=
  { c with entries := c.without key }

def clear (c : Cache ν κ) : Cache ν κ :=
  { c with entries := [] }

end Cache

end EdgeAudit
