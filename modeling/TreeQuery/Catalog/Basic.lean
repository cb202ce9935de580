import TreeQuery.Catalog.Closure
import TreeQuery.Catalog.Registry
import TreeQuery.Entry.Store

/-!
# The catalog

A catalog is all that is known of a walked tree: its entries, who lies below whom, and which entry
each directory has. It only grows. An operation that fails leaves the catalog in the state that it
had reached, so that what a failure leaves behind can be stated.

`Catalog` has the functions `insert`, `register_path`, `subtree` and `entry` of the type of this
name.
-/

namespace TreeQuery

/-- The entries of a walked tree and how they hang together. -/
structure Catalog where
  store : EntryStore := {}
  closure : Closure := {}
  registry : Registry := {}

/-- A computation on a state that may fail; what it did to the state before it failed stays. -/
abbrev Build (σ : Type) := ExceptT Halt (StateM σ)

namespace Build

variable {σ α : Type}

/-- Replaces the state, or fails without touching it. -/
def update (f : σ → Except Halt σ) : Build σ Unit := do
  match f (← get) with
  | .ok s => set s
  | .error e => throw e

/-- Runs a computation on a part of the state. -/
def onPart {τ : Type} (part : σ → τ) (replace : σ → τ → σ) (m : Build τ α) : Build σ α :=
  fun s =>
    let (result, t) := m (part s)
    (result, replace s t)

end Build

namespace Catalog

/-- How many entries there are. -/
def size (c : Catalog) : Nat := c.store.size

/-- The entry of a number. -/
def entry? (c : Catalog) (id : EntryId) : Option Entry := c.store.get? id

/-- The entries at and below an entry, with their distance from it. -/
def subtree (c : Catalog) (root : EntryId) : List (Entry × Nat) :=
  (c.closure.subtree root).filterMap fun k => (c.entry? k.id).map (·, k.depth)

/-- Stores an entry and links it below its parent, which must be stored already. -/
def insert (new : NewEntry) (parent? : Option EntryId) : Build Catalog EntryId := do
  let c ← get
  match parent? with
  | some parent =>
    unless c.store.contains parent do throw (.refused (.missingParent parent new.name))
  | none => pure ()
  let (id, store) ← MonadExcept.ofExcept (Halt.orExhausted (c.store.push? new))
  set { c with store }
  Build.update fun c => return { c with closure := ← c.closure.insert id parent? }
  return id

/-- Registers the entry of a directory. -/
def register (text : String) (id : EntryId) : Build Catalog Unit :=
  Build.update fun c =>
    return { c with registry := ← (c.registry.register text id).mapError .refused }

end Catalog

end TreeQuery
