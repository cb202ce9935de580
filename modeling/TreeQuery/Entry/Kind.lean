/-!
# Kinds of entries

The kind of an entry is held in four bits of its mode. Seven of the sixteen values of those bits
name a kind; an entry whose mode holds another value has none.

`EntryKind` is the type of this name: `ofMode?` is `from_mode`, `bits` is `mode_bits`, `code` is
`code`, and `mask` is `S_IFMT`.
-/

namespace TreeQuery

/-- The kind of a file-system entry. -/
inductive EntryKind where
  | directory | regular | charDevice | blockDevice | fifo | symlink | socket
  deriving DecidableEq, Repr

namespace EntryKind

/-- Every kind once. -/
def list : List EntryKind :=
  [directory, regular, charDevice, blockDevice, fifo, symlink, socket]

/-- The bits of a mode that hold the kind. -/
def mask : UInt32 := 0o170000

/-- The bits of a mode that say this kind. -/
def bits : EntryKind → UInt32
  | directory => 0o040000
  | regular => 0o100000
  | charDevice => 0o020000
  | blockDevice => 0o060000
  | fifo => 0o010000
  | symlink => 0o120000
  | socket => 0o140000

/-- The kind that a mode says. -/
def ofMode? (mode : UInt32) : Option EntryKind :=
  list.find? fun kind => kind.bits == mode &&& mask

/-- The letter shown in the column `file_type`. -/
def code : EntryKind → Char
  | directory => 'D'
  | regular => 'F'
  | charDevice => 'C'
  | blockDevice => 'B'
  | fifo => 'N'
  | symlink => 'L'
  | socket => 'S'

theorem ofMode?_bits (kind : EntryKind) : ofMode? kind.bits = some kind := by
  cases kind <;> decide

theorem code_injective {a b : EntryKind} (h : a.code = b.code) : a = b := by
  cases a <;> cases b <;> first | rfl | exact absurd h (by decide)

end EntryKind

end TreeQuery
