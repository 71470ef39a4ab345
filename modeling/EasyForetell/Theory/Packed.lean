import Mathlib.Data.List.Basic
import Mathlib.Tactic.Common

/-!
# Arrays packed from the front

An array of a fixed number of slots that holds items in its first slots and nothing in the
others, as it arises when each item is stored in the first free slot. A scan that stops at the
first empty slot, or at the end, meets the items.

## Main results

* `set_packed`: storing an item in the first free slot
* `getElem?_packed_length`: the slot behind the items
* `scan_packed`: what the scan meets
-/

namespace EasyForetell.Theory

variable {α : Type*} {size : ℕ} {items : List α}

/-- The items in the first slots of an array, and nothing behind them. -/
def packed (size : ℕ) (items : List α) : List (Option α) :=
  items.map some ++ List.replicate (size - items.length) none

/-- The items before the first empty slot. -/
def scan : List (Option α) → List α
  | some item :: slots => item :: scan slots
  | _ => []

@[simp] theorem packed_nil : packed size ([] : List α) = List.replicate size none := rfl

theorem length_packed (hroom : items.length ≤ size) : (packed size items).length = size := by
  rw [packed, List.length_append, List.length_map, List.length_replicate]
  omega

/-- Without a free slot. -/
theorem packed_length (items : List α) : packed items.length items = items.map some := by
  rw [packed, Nat.sub_self, List.replicate_zero, List.append_nil]

theorem some_mem_packed {item : α} : some item ∈ packed size items ↔ item ∈ items := by
  simp [packed]

/-- The slot behind the items is empty, if there is one. -/
theorem getElem?_packed_length (size : ℕ) (items : List α) :
    (packed size items)[items.length]? = if items.length < size then some none else none := by
  rw [packed, List.getElem?_append_right (Nat.le_of_eq (List.length_map _)), List.length_map,
    Nat.sub_self, List.getElem?_replicate]
  simp only [Nat.sub_pos_iff_lt]

/-- An item stored in the first free slot. -/
theorem set_packed (item : α) (hroom : items.length < size) :
    (packed size items).set items.length (some item) = packed size (items ++ [item]) := by
  have hfree : size - items.length = size - (items ++ [item]).length + 1 := by
    rw [List.length_append, List.length_singleton]
    omega
  rw [packed, packed, hfree, List.replicate_succ, List.set_append_right _ _ (by simp)]
  simp

/-- The first free slot is empty already. -/
theorem set_packed_none (hroom : items.length < size) :
    (packed size items).set items.length none = packed size items := by
  obtain ⟨hlt, hempty⟩ := List.getElem?_eq_some_iff.mp
    ((getElem?_packed_length size items).trans (if_pos hroom))
  have hsame := List.set_getElem_self hlt
  rwa [hempty] at hsame

/-- The scan passes items up to what follows them. -/
theorem scan_map_some_append (items : List α) (slots : List (Option α)) :
    scan (items.map some ++ slots) = items ++ scan slots := by
  induction items with
  | nil => rfl
  | cons item items ih => exact congrArg (item :: ·) ih

/-- The scan of a packed array meets its items. -/
@[simp] theorem scan_packed (size : ℕ) (items : List α) : scan (packed size items) = items := by
  have hfree : scan (List.replicate (size - items.length) (none : Option α)) = [] := by
    cases size - items.length <;> rfl
  rw [packed, scan_map_some_append, hfree, List.append_nil]

end EasyForetell.Theory
