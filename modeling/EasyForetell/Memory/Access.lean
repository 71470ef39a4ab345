import Mathlib.Tactic.Common

/-!
# Accesses to an array

The reads and writes of a program on one array, in order. They are sound when each is
inside the array and nothing is read that was not written before. Where only their places
matter they are given as spans of consecutive slots.
-/

namespace EasyForetell.Memory

/-- An access to a slot. -/
inductive Access
  | read (index : ℕ)
  | write (index : ℕ)
  deriving DecidableEq

/-- The accesses stay in an array of that size, and read only slots that they, or those
before them, have written. -/
def Sound (size : ℕ) : List ℕ → List Access → Prop
  | _, [] => True
  | written, .read index :: accesses =>
    index < size ∧ index ∈ written ∧ Sound size written accesses
  | written, .write index :: accesses => index < size ∧ Sound size (index :: written) accesses

instance decidableSound (size : ℕ) :
    ∀ (written : List ℕ) (accesses : List Access), Decidable (Sound size written accesses)
  | _, [] => inferInstanceAs (Decidable True)
  | written, .read _ :: accesses =>
    have := decidableSound size written accesses
    inferInstanceAs (Decidable (_ ∧ _ ∧ _))
  | written, .write index :: accesses =>
    have := decidableSound size (index :: written) accesses
    inferInstanceAs (Decidable (_ ∧ _))

variable {size index : ℕ} {written : List ℕ} {accesses : List Access}

/-- Reads of a slot that was written are sound. -/
theorem sound_reads (hindex : index < size) (hwritten : index ∈ written)
    (hreads : ∀ access ∈ accesses, access = .read index) : Sound size written accesses := by
  induction accesses with
  | nil => trivial
  | cons access accesses ih =>
    obtain ⟨rfl, hlater⟩ := List.forall_mem_cons.mp hreads
    exact ⟨hindex, hwritten, ih hlater⟩

/-! ### Spans -/

/-- Consecutive slots that are read or written. -/
structure Span where
  start : ℕ
  count : ℕ
  deriving DecidableEq

/-- Every slot of a span is in an array of that size. -/
def Span.Within (span : Span) (size : ℕ) : Prop := ∀ i < span.count, span.start + i < size

/-- Every slot of all the spans is in an array of that size. -/
def Inside (size : ℕ) (spans : List Span) : Prop := ∀ span ∈ spans, span.Within size

section Spans

variable {spans others : List Span}

@[simp] theorem Span.within_iff {start count : ℕ} :
    (Span.mk start count).Within size ↔ count = 0 ∨ start + count ≤ size := by
  constructor
  · intro hwithin
    rcases Nat.eq_zero_or_pos count with hnone | hsome
    · exact Or.inl hnone
    · have hlast : start + (count - 1) < size := hwithin (count - 1) (by dsimp only; omega)
      exact Or.inr (by omega)
  · intro hbound i hi
    dsimp only at hi ⊢
    omega

@[simp] theorem inside_nil : Inside size [] := List.forall_mem_nil _

@[simp] theorem inside_cons {span : Span} :
    Inside size (span :: spans) ↔ span.Within size ∧ Inside size spans :=
  List.forall_mem_cons

@[simp] theorem inside_append :
    Inside size (spans ++ others) ↔ Inside size spans ∧ Inside size others :=
  List.forall_mem_append

end Spans

end EasyForetell.Memory
