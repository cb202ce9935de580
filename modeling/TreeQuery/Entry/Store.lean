import TreeQuery.Entry.Basic

/-!
# The store of entries

Entries are only ever added, each under the next number, as long as there is one. `EntryStore` has
the functions of the type of this name, `next_id` and `push` among them.
-/

namespace TreeQuery

/-- The stored entries, in the order of their numbers. -/
structure EntryStore where
  entries : Array Entry := #[]

namespace EntryStore

/-- How many entries there are. -/
def size (s : EntryStore) : Nat := s.entries.size

/-- The number that the next entry gets, unless they are used up. -/
def nextId? (s : EntryStore) : Option EntryId := EntryId.ofSlot? s.size

/-- One more entry, at the end. -/
def append (s : EntryStore) (e : Entry) : EntryStore := ⟨s.entries.push e⟩

/-- Stores an entry under the next number, and gives the number. -/
def push? (s : EntryStore) (new : NewEntry) : Option (EntryId × EntryStore) :=
  s.nextId?.map fun id => (id, s.append ⟨new, id⟩)

/-- The entry of a number. -/
def get? (s : EntryStore) (id : EntryId) : Option Entry := s.entries[id.slot]?

/-- Whether there is an entry of this number. -/
def contains (s : EntryStore) (id : EntryId) : Bool := id.slot < s.size

/-- The entries in the order of their numbers. -/
def toList (s : EntryStore) : List Entry := s.entries.toList

@[simp] theorem toList_append (s : EntryStore) (e : Entry) :
    (s.append e).toList = s.toList ++ [e] := by
  simp [toList, append]

@[simp] theorem size_append (s : EntryStore) (e : Entry) : (s.append e).size = s.size + 1 := by
  simp [size, append]

end EntryStore

end TreeQuery
