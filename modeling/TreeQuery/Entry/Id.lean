/-!
# Numbers of entries

Entries are numbered from 1 in the order in which they are stored, so a directory has a smaller
number than everything below it. A number has 32 bits. Not all numbers are given out: once
`EntryId.capacity` entries are stored there is none left for another one.

`EntryId` with its `new` is `EntryId.ofNumber?`, its `slot` is `EntryId.slot`, and `from_slot` is
`EntryId.ofSlot?`. Where `new` and `from_slot` stop with a failed assertion there is no number.
-/

namespace TreeQuery

/-- The number of a stored entry. -/
structure EntryId where
  number : Nat
  pos : 0 < number
  lt : number < UInt32.size
  deriving DecidableEq

namespace EntryId

/-- How many entries can be numbered. -/
def capacity : Nat := UInt32.size - 2

-- With this zero, whatever else is imported, a numeral can stand for a position.
instance : @NeZero Nat Zero.ofOfNat0 capacity := ⟨by decide⟩

/-- The number of the entry at a position, counted from zero. -/
def ofSlot (slot : Fin capacity) : EntryId where
  number := slot + 1
  pos := Nat.succ_pos slot
  lt := Nat.lt_of_le_of_lt slot.isLt (by decide)

/-- The number of the entry at a position, unless the numbers are used up. -/
def ofSlot? (slot : Nat) : Option EntryId :=
  if h : slot < capacity then some (ofSlot ⟨slot, h⟩) else none

/-- What is said when the numbers are used up. -/
def exhaustion : String := "entry id space exhausted"

/-- The position of an entry, counted from zero. -/
def slot (id : EntryId) : Nat := id.number - 1

/-- The entry of a given number; zero numbers none. -/
def ofNumber? (number : Nat) : Option EntryId :=
  if h : 0 < number ∧ number < UInt32.size then some ⟨number, h.1, h.2⟩ else none

/-- The rule that a number of zero breaks. -/
def rule : String := "entry ids start at 1"

theorem number_eq (id : EntryId) : id.number = id.slot + 1 := by
  have hpos := id.pos
  unfold slot
  omega

theorem slot_inj {a b : EntryId} : a.slot = b.slot ↔ a = b := by
  constructor
  · intro h
    obtain ⟨number, pos, lt⟩ := a
    have hnumber := b.number_eq
    rw [← h, ← number_eq] at hnumber
    subst hnumber
    rfl
  · rintro rfl
    rfl

/-- Which position a number stands for, and that it is one of those that are given out. -/
theorem ofSlot?_eq_some_iff {slot : Nat} {id : EntryId} :
    ofSlot? slot = some id ↔ slot < capacity ∧ id.slot = slot := by
  unfold ofSlot?
  split
  · rename_i h
    rw [Option.some.injEq, ← slot_inj, eq_comm]
    exact (and_iff_right h).symm
  · rename_i h
    simp [h]

theorem ofSlot?_eq_none_iff {slot : Nat} : ofSlot? slot = none ↔ capacity ≤ slot := by
  unfold ofSlot?
  split <;> simp_all

instance : ToString EntryId := ⟨fun id => toString id.number⟩

end EntryId

end TreeQuery
