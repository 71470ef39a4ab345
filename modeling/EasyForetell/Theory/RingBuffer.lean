import Mathlib.Data.List.Basic
import Mathlib.Data.Nat.ModEq
import Mathlib.Tactic.Common

/-!
# Bounded queues and ring buffers

A bounded queue is a list whose length stays below its capacity; the bound is
part of the value. A ring buffer stores such a list in numbered slots, from the
drain index on and around the end of the slots. Slots outside the stored range
are unconstrained, so they may keep old values.

## Main results

* `RingHolds.push`: writing the slot at the fill index appends
* `RingHolds.pop`: stepping the drain index removes the oldest element
-/

namespace EasyForetell.Theory

/-! ### Bounded queues -/

/-- A queue of at most `capacity` elements, oldest first. -/
structure BoundedQueue (α : Type*) (capacity : ℕ) where
  items : List α
  bounded : items.length ≤ capacity

namespace BoundedQueue

variable {α : Type*} {capacity : ℕ}

/-- The queue without elements. -/
def empty (α : Type*) (capacity : ℕ) : BoundedQueue α capacity := ⟨[], Nat.zero_le _⟩

/-- Append an element when there is room; the flag tells whether there was. -/
def enqueue (queue : BoundedQueue α capacity) (x : α) : BoundedQueue α capacity × Bool :=
  if hroom : queue.items.length < capacity then
    (⟨queue.items ++ [x], by rw [List.length_append]; exact hroom⟩, true)
  else (queue, false)

/-- Remove the oldest element, if there is one. -/
def dequeue (queue : BoundedQueue α capacity) : BoundedQueue α capacity × Option α :=
  (⟨queue.items.tail, by have := queue.bounded; rw [List.length_tail]; omega⟩, queue.items.head?)

theorem enqueue_of_room {queue : BoundedQueue α capacity} (hroom : queue.items.length < capacity)
    (x : α) :
    (queue.enqueue x).1.items = queue.items ++ [x] ∧ (queue.enqueue x).2 = true := by
  simp [enqueue, hroom]

theorem enqueue_of_full {queue : BoundedQueue α capacity} (hfull : ¬ queue.items.length < capacity)
    (x : α) : queue.enqueue x = (queue, false) := by
  simp [enqueue, hfull]

@[simp] theorem dequeue_items (queue : BoundedQueue α capacity) :
    queue.dequeue.1.items = queue.items.tail := rfl

@[simp] theorem dequeue_value (queue : BoundedQueue α capacity) :
    queue.dequeue.2 = queue.items.head? := rfl

end BoundedQueue

/-! ### Ring buffers -/

/-- The slots of a ring hold a list from the drain index on. -/
structure RingHolds {α : Type*} (slot : ℕ → α) (capacity fill drain occupied : ℕ)
    (items : List α) : Prop where
  occupied_eq : occupied = items.length
  le_capacity : occupied ≤ capacity
  fill_lt : fill < capacity
  drain_lt : drain < capacity
  fill_eq : fill = (drain + occupied) % capacity
  slot_eq : ∀ i (hi : i < items.length), slot ((drain + i) % capacity) = items[i]

section Ring

variable {α : Type*} {slot slot' : ℕ → α} {capacity fill drain occupied : ℕ} {items : List α} {x : α}

/-- Different offsets below the capacity reach different slots. -/
theorem ringIndex_inj {i j : ℕ} (hi : i < capacity) (hj : j < capacity)
    (heq : (drain + i) % capacity = (drain + j) % capacity) : i = j := by
  have hmod : Nat.ModEq capacity i j := Nat.ModEq.add_left_cancel' drain heq
  exact Nat.ModEq.eq_of_lt_of_lt hmod hi hj

/-- A fresh ring of positive capacity holds the empty list. -/
theorem RingHolds.empty (slot : ℕ → α) (hcapacity : 0 < capacity) :
    RingHolds slot capacity 0 0 0 [] where
  occupied_eq := rfl
  le_capacity := Nat.zero_le _
  fill_lt := hcapacity
  drain_lt := hcapacity
  fill_eq := by simp
  slot_eq := by simp

/-- Writing the slot at the fill index and stepping it appends the element. -/
theorem RingHolds.push (h : RingHolds slot capacity fill drain occupied items)
    (hroom : occupied < capacity) (hnew : slot' fill = x)
    (hold : ∀ i, i < capacity → i ≠ fill → slot' i = slot i) :
    RingHolds slot' capacity ((fill + 1) % capacity) drain (occupied + 1) (items ++ [x]) where
  occupied_eq := by simp [h.occupied_eq]
  le_capacity := hroom
  fill_lt := Nat.mod_lt _ (by omega)
  drain_lt := h.drain_lt
  fill_eq := by rw [h.fill_eq, Nat.mod_add_mod, Nat.add_assoc]
  slot_eq := by
    intro i hi
    have hlength : items.length = occupied := h.occupied_eq.symm
    -- an old offset reaches its old slot, the new one reaches the slot at `fill`
    rcases Nat.lt_or_ge i items.length with hlt | hge
    · have hbound : (drain + i) % capacity < capacity := Nat.mod_lt _ (by omega)
      have hne : (drain + i) % capacity ≠ fill := by
        rw [h.fill_eq]
        intro heq
        have := ringIndex_inj (by omega) hroom heq
        omega
      rw [hold _ hbound hne, h.slot_eq i hlt, List.getElem_append_left hlt]
    · have hi' : i = occupied := by
        rw [List.length_append, List.length_singleton] at hi
        omega
      subst hi'
      rw [← h.fill_eq, hnew, List.getElem_append_right hge]
      simp [hlength]

/-- The slot at the drain index holds the oldest element. -/
theorem RingHolds.head (h : RingHolds slot capacity fill drain occupied (x :: items)) :
    slot drain = x := by
  have hslot := h.slot_eq 0 (by simp)
  simpa [Nat.mod_eq_of_lt h.drain_lt] using hslot

/-- Stepping the drain index removes the oldest element. -/
theorem RingHolds.pop (h : RingHolds slot capacity fill drain occupied (x :: items)) :
    RingHolds slot capacity fill ((drain + 1) % capacity) (occupied - 1) items where
  occupied_eq := by simp [h.occupied_eq]
  le_capacity := Nat.le_trans (Nat.sub_le _ _) h.le_capacity
  fill_lt := h.fill_lt
  drain_lt := Nat.mod_lt _ (by have := h.drain_lt; omega)
  fill_eq := by
    have hpos : 0 < occupied := by simp [h.occupied_eq]
    rw [Nat.mod_add_mod, h.fill_eq]
    congr 1
    omega
  slot_eq := by
    intro i hi
    have hslot := h.slot_eq (i + 1) (by simpa using hi)
    rw [Nat.mod_add_mod, Nat.add_assoc, Nat.add_comm 1 i, hslot, List.getElem_cons_succ]

end Ring

end EasyForetell.Theory
