import Wireform.Layout.Arena

/-!
# Types that contain themselves

A type of which every value contains another value of the same type has no values
at all. Such types show as cycles of mandatory parts, which a depth-first search
finds.

* `Arena.cycle?`: a slot on a cycle among the slots from a given one on.
-/

namespace Wireform.Arena

variable (arena : Arena)

/-- How far the search has got with a slot. -/
inductive Progress where
  /-- Its parts are being looked at. -/
  | active
  | done
deriving DecidableEq

/-- A search; it stops with the slot at which a cycle closes. -/
abbrev Search := EStateM TypeId (List (Nat × Progress))

/-- The mandatory parts of a slot that are among the slots from a given one on. -/
def partsFrom (start : Nat) (id : TypeId) : List TypeId :=
  match arena.get? id with
  | none => []
  | some type =>
    type.layout.mandatory.filter fun part => start ≤ part.index && part.index < arena.size

/-- Looks at a slot unless that has been done; a slot that is being looked at closes a cycle. -/
def explore (visit : TypeId → Search Unit) (id : TypeId) : Search Unit := do
  match (← get).lookup id.index with
  | none => visit id
  | some .active => throw id
  | some .done => pure ()

/-- Looks at a slot and at its parts, the last one first, given how deep the search may go. -/
def visit (start : Nat) : Nat → TypeId → Search Unit
  | 0, _ => pure ()
  | depth + 1, id => do
    modify ((id.index, .active) :: ·)
    (arena.partsFrom start id).reverse.forM (explore (visit start depth))
    modify ((id.index, .done) :: ·)

/-- Looks at all slots from a given one on that have not been looked at. -/
def visitAll (start : Nat) : Search Unit :=
  (List.range' start (arena.size - start)).forM fun index =>
    explore (arena.visit start (arena.size + 1)) ⟨index⟩

/-- A slot at which a cycle closes, among the slots from a given one on. -/
def cycle? (start : Nat) : Option TypeId :=
  match (arena.visitAll start).run [] with
  | .ok _ _ => none
  | .error id _ => some id

/-- The text of a slot in messages. -/
def slotName (id : TypeId) : String :=
  match arena.get? id with
  | some type => type.ident
  | none => "#" ++ toString id.index

end Wireform.Arena
