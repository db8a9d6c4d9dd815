/-!
# Pools of slots

A pool keeps values in numbered slots and hands vacated slots out again, the one
vacated last first. Slot 0 is the ground: it is occupied from the start and is
never vacated, so that no value that was put in bears the number 0.
-/

namespace LiveTable

structure Pool (α : Type) where
  slots : Array (Option α)
  /-- The slots to hand out before the pool grows. -/
  vacant : List Nat

namespace Pool

variable {α : Type}

def withGround (a : α) : Pool α := ⟨#[some a], []⟩

def get? (p : Pool α) (slot : Nat) : Option α := p.slots[slot]?.join

def alloc (p : Pool α) (a : α) : Nat × Pool α :=
  match p.vacant with
  | slot :: rest => (slot, ⟨p.slots.setIfInBounds slot (some a), rest⟩)
  | [] => (p.slots.size, ⟨p.slots.push (some a), []⟩)

/-- Takes the value out of a slot; there is none to take from the ground, from a vacant slot or
from a slot that the pool does not have. -/
def release? (p : Pool α) (slot : Nat) : Option (α × Pool α) :=
  if slot = 0 then none
  else (p.get? slot).map fun a => (a, ⟨p.slots.setIfInBounds slot none, slot :: p.vacant⟩)

def size (p : Pool α) : Nat := p.slots.size - p.vacant.length - 1

def clear (p : Pool α) : Pool α := ⟨p.slots.take 1, []⟩

/-- The values in the order of their slots, without the ground. -/
def toList (p : Pool α) : List α := p.slots.toList.tail.filterMap id

theorem get?_withGround (a : α) : (withGround a).get? 0 = some a := rfl

@[simp] theorem size_withGround (a : α) : (withGround a).size = 0 := rfl

theorem release?_eq_none_iff (p : Pool α) (slot : Nat) :
    p.release? slot = none ↔ slot = 0 ∨ p.get? slot = none := by
  by_cases h : slot = 0 <;> simp [release?, h]

end Pool

end LiveTable
