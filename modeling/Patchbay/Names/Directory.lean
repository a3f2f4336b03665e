/-!
# Directories

A **directory** maps keys to values that live in numbered slots. The number of a slot is a handle:
it leads to its value without a look-up of the key. A value is dropped when it is left unused, and
its slot is then given to a later key, the slot left last before all others.
-/

namespace Patchbay

/-- Values in numbered slots, found by key. -/
structure Directory (κ α : Type) where
  slots : Array (Option α) := #[]
  /-- Slots without a value, the next to be filled first. -/
  free : List Nat := []
  /-- The slot of each key. -/
  index : List (κ × Nat) := []
deriving Inhabited

namespace Directory

variable {κ α : Type} [DecidableEq κ]

/-- The slot of a key. -/
def find? (d : Directory κ α) (key : κ) : Option Nat :=
  (d.index.find? (·.1 = key)).map (·.2)

/-- The value in a slot. -/
def get? (d : Directory κ α) (slot : Nat) : Option α :=
  (d.slots[slot]?).getD none

/-- The number of keys. -/
def size (d : Directory κ α) : Nat := d.index.length

/-- Changes the value in a slot, if there is one. -/
def modify (d : Directory κ α) (slot : Nat) (f : α → α) : Directory κ α :=
  { d with slots := d.slots.modify slot (·.map f) }

/-- Changes every value. -/
def mapValues (d : Directory κ α) (f : α → α) : Directory κ α :=
  { d with slots := d.slots.map (·.map f) }

/-- The slot of a key, which gets the value `fresh` if it has none. -/
def enter (d : Directory κ α) (key : κ) (fresh : α) : Nat × Directory κ α :=
  match d.find? key with
  | some slot => (slot, d)
  | none =>
    match d.free with
    | slot :: rest =>
      (slot,
        { slots := d.slots.setIfInBounds slot (some fresh)
          free := rest
          index := d.index ++ [(key, slot)] })
    | [] =>
      (d.slots.size,
        { d with
          slots := d.slots.push (some fresh)
          index := d.index ++ [(key, d.slots.size)] })

/-- Changes the value of a key, and drops it together with the key if that leaves it unused. -/
def leave (d : Directory κ α) (key : κ) (f : α → α) (unused : α → Bool) : Directory κ α :=
  match d.find? key with
  | none => d
  | some slot =>
    match d.get? slot with
    | none => d
    | some value =>
      if unused (f value) then
        { slots := d.slots.setIfInBounds slot none
          free := slot :: d.free
          index := d.index.filter (·.1 ≠ key) }
      else d.modify slot f

end Directory
end Patchbay
