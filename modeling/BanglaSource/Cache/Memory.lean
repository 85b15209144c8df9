-- SUMMARY: The bounded memory tier of the cache, which evicts the key that was inserted first.
import BanglaSource.Cache.Entry

/-!
# Memory tier

Entries are kept under their keys up to a capacity. A queue holds the keys in the
order of insertion. When a new key finds the tier full, the oldest key leaves, no
matter when it was last read. Inserting a key that is present replaces its entry
and keeps its place in the queue.
-/
namespace BanglaSource

/-- The memory tier of the cache. -/
structure Memory where
  capacity : Nat
  entries : Assoc Entry
  /-- The keys, the oldest first. -/
  order : List Text
deriving Repr

namespace Memory

def empty (capacity : Nat) : Memory := ⟨capacity, [], []⟩

def get? (m : Memory) (key : Text) : Option Entry :=
  Assoc.find? key m.entries

def size (m : Memory) : Nat :=
  m.entries.length

/-- Makes room for one more key if the tier is full. The second result is the
    key that leaves. -/
def makeRoom (m : Memory) : Memory × Option Text :=
  if m.size < m.capacity then (m, none)
  else match m.order with
    | [] => (m, none)
    | oldest :: order =>
      ({ m with entries := Assoc.erase oldest m.entries, order := order }, some oldest)

/-- Inserts an entry. The second result is the key that leaves to make room. A
    tier of capacity zero stores nothing. -/
def insert (m : Memory) (key : Text) (e : Entry) : Memory × Option Text :=
  if m.capacity = 0 then (m, none)
  else if Assoc.contains key m.entries then
    ({ m with entries := Assoc.insert key e m.entries }, none)
  else
    let (m, evicted) := m.makeRoom
    ({ m with entries := Assoc.insert key e m.entries, order := m.order ++ [key] }, evicted)

def clear (m : Memory) : Memory :=
  empty m.capacity

end Memory
end BanglaSource
