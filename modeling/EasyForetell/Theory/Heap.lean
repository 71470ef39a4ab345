import Mathlib.Data.Set.Insert
import Mathlib.Logic.Function.Basic
import Mathlib.Tactic.Common

/-!
# A heap

What `malloc` has given away and `free` has not taken back. A heap holds a cell at each address
that is allocated, and no address is given away twice. Freeing or writing where nothing is
allocated has no result, so a program that has one frees nothing twice and writes to nothing
that is gone.

## Main results

* `Grown.alloc`, `Grown.write`, `Grown.trans`: what was allocated since, and nothing else changed
* `freeAll_eq_some`: freeing a number of addresses
* `Grown.freeAll`: freeing some of what was allocated
* `Grown.cell_eq`: with nothing left of it the heap is as it was
-/

namespace EasyForetell.Theory

/-- What stands at each address that is allocated, and where the addresses start that were never
given away. -/
structure Heap (Cell : Type*) where
  cell : ℕ → Option Cell
  fresh : ℕ
  unused : ∀ a, fresh ≤ a → cell a = none

namespace Heap

variable {Cell : Type*} {h h' h'' : Heap Cell} {a b : ℕ} {c : Cell}

/-- The heap in which nothing is allocated. -/
def empty : Heap Cell := ⟨fun _ => none, 0, fun _ _ => rfl⟩

/-- Allocate a cell, at the address `h.fresh`. -/
def alloc (h : Heap Cell) (c : Cell) : Heap Cell where
  cell := Function.update h.cell h.fresh (some c)
  fresh := h.fresh + 1
  unused a ha := by
    rw [Function.update_of_ne (by omega)]
    exact h.unused a (by omega)

/-- Change an allocated cell. -/
def write (h : Heap Cell) (a : ℕ) (c : Cell) : Option (Heap Cell) :=
  if hlive : (h.cell a).isSome then
    some {
      cell := Function.update h.cell a (some c)
      fresh := h.fresh
      unused := fun b hb => by
        have hne : b ≠ a := by
          rintro rfl
          rw [h.unused b hb] at hlive
          cases hlive
        rw [Function.update_of_ne hne]
        exact h.unused b hb }
  else none

/-- Free an allocated cell. -/
def free (h : Heap Cell) (a : ℕ) : Option (Heap Cell) :=
  if (h.cell a).isSome then
    some {
      cell := Function.update h.cell a none
      fresh := h.fresh
      unused := fun b hb => by
        by_cases hsame : b = a
        · rw [hsame, Function.update_self]
        · rw [Function.update_of_ne hsame]
          exact h.unused b hb }
  else none

/-- Free a number of cells, one after another. -/
def freeAll (h : Heap Cell) (addresses : List ℕ) : Option (Heap Cell) := addresses.foldlM free h

@[simp] theorem cell_alloc_self (h : Heap Cell) (c : Cell) :
    (h.alloc c).cell h.fresh = some c :=
  Function.update_self ..

theorem cell_alloc_of_ne (c : Cell) (hne : a ≠ h.fresh) : (h.alloc c).cell a = h.cell a :=
  Function.update_of_ne hne _ _

@[simp] theorem fresh_alloc (h : Heap Cell) (c : Cell) : (h.alloc c).fresh = h.fresh + 1 := rfl

theorem lt_fresh (hlive : h.cell a ≠ none) : a < h.fresh := by
  by_contra hle
  exact hlive (h.unused a (by omega))

/-- What is allocated already keeps its cell. -/
theorem cell_alloc_of_live (c : Cell) (hlive : h.cell a ≠ none) :
    (h.alloc c).cell a = h.cell a :=
  cell_alloc_of_ne c (Nat.ne_of_lt (lt_fresh hlive))

theorem exists_write (c : Cell) (hlive : h.cell a ≠ none) :
    ∃ h', h.write a c = some h' ∧ h'.cell = Function.update h.cell a (some c) ∧
      h'.fresh = h.fresh := by
  refine ⟨_, dif_pos ?_, rfl, rfl⟩
  rwa [Option.isSome_iff_ne_none]

theorem exists_free (hlive : h.cell a ≠ none) :
    ∃ h', h.free a = some h' ∧ h'.cell = Function.update h.cell a none ∧ h'.fresh = h.fresh := by
  refine ⟨_, if_pos ?_, rfl, rfl⟩
  rwa [Option.isSome_iff_ne_none]

/-- Distinct addresses that are allocated can be freed, and nothing else goes with them. -/
theorem freeAll_eq_some {addresses : List ℕ} (hnodup : addresses.Nodup)
    (hlive : ∀ a ∈ addresses, h.cell a ≠ none) :
    ∃ h', h.freeAll addresses = some h' ∧ h'.fresh = h.fresh ∧
      ∀ b, h'.cell b = if b ∈ addresses then none else h.cell b := by
  induction addresses generalizing h with
  | nil => exact ⟨h, rfl, rfl, fun b => by simp⟩
  | cons a addresses ih =>
    obtain ⟨hnew, hnodup⟩ := List.nodup_cons.mp hnodup
    obtain ⟨h', hfree, hcell, hfresh⟩ := exists_free (hlive a (by simp))
    have hrest : ∀ b ∈ addresses, h'.cell b ≠ none := by
      intro b hb
      have hne : b ≠ a := by
        rintro rfl
        exact hnew hb
      rw [hcell, Function.update_of_ne hne]
      exact hlive b (by simp [hb])
    obtain ⟨h'', hall, hfresh', hcells⟩ := ih hnodup hrest
    refine ⟨h'', ?_, hfresh'.trans hfresh, fun b => ?_⟩
    · rw [freeAll, List.foldlM_cons, hfree]
      exact hall
    · rw [hcells, hcell]
      by_cases hsame : b = a
      · simp [hsame]
      · simp [hsame]

/-! ### What was allocated since -/

/-- One heap came from another by allocating `owned`, apart from what was freed again: nothing
stood there before, something stands there now, and everywhere else all is as it was. -/
structure Grown (h h' : Heap Cell) (owned : Set ℕ) : Prop where
  fresh_le : h.fresh ≤ h'.fresh
  new : ∀ a ∈ owned, h.cell a = none
  live : ∀ a ∈ owned, h'.cell a ≠ none
  same : ∀ a ∉ owned, h'.cell a = h.cell a

namespace Grown

variable {owned more : Set ℕ}

theorem refl (h : Heap Cell) : Grown h h ∅ :=
  ⟨le_rfl, by simp, by simp, fun _ _ => rfl⟩

/-- With nothing left of it the heap is as it was. -/
theorem cell_eq (hgrown : Grown h h' ∅) : h'.cell = h.cell :=
  funext fun a => hgrown.same a (Set.notMem_empty a)

/-- What was allocated since is what is there now and was not there before. -/
theorem mem_iff (hgrown : Grown h h' owned) : a ∈ owned ↔ h.cell a = none ∧ h'.cell a ≠ none := by
  refine ⟨fun hmem => ⟨hgrown.new a hmem, hgrown.live a hmem⟩, fun ⟨hnew, hlive⟩ => ?_⟩
  by_contra hnot
  exact hlive ((hgrown.same a hnot).trans hnew)

theorem congr (hgrown : Grown h h' owned) (hsame : ∀ a, a ∈ owned ↔ a ∈ more) :
    Grown h h' more :=
  Set.ext hsame ▸ hgrown

/-- What was there before is there still. -/
theorem live_of_live (hgrown : Grown h h' owned) (hlive : h.cell a ≠ none) :
    h'.cell a = h.cell a :=
  hgrown.same a fun hmem => hlive (hgrown.new a hmem)

/-- One after another. -/
theorem trans (hgrown : Grown h h' owned) (hmore : Grown h' h'' more) :
    Grown h h'' (owned ∪ more) where
  fresh_le := hgrown.fresh_le.trans hmore.fresh_le
  new a ha := by
    rcases ha with hmem | hmem
    · exact hgrown.new a hmem
    · by_contra hlive
      exact hlive ((hgrown.live_of_live hlive).symm.trans (hmore.new a hmem))
  live a ha := by
    rcases ha with hmem | hmem
    · rw [hmore.live_of_live (hgrown.live a hmem)]
      exact hgrown.live a hmem
    · exact hmore.live a hmem
  same a ha := by
    rw [Set.mem_union, not_or] at ha
    rw [hmore.same a ha.2, hgrown.same a ha.1]

/-- What comes later is apart from what came before. -/
theorem notMem_of_trans (hgrown : Grown h h' owned) (hmore : Grown h' h'' more) (hmem : a ∈ owned) :
    a ∉ more :=
  fun hmem' => hgrown.live a hmem (hmore.new a hmem')

theorem alloc (h : Heap Cell) (c : Cell) : Grown h (h.alloc c) {h.fresh} where
  fresh_le := Nat.le_succ _
  new a ha := h.unused a (Set.mem_singleton_iff.mp ha).ge
  live a ha := by
    obtain rfl := Set.mem_singleton_iff.mp ha
    simp
  same a ha := cell_alloc_of_ne c (by simpa using ha)

/-- What was allocated since can be written to. -/
theorem write (hgrown : Grown h h' owned) (hmem : a ∈ owned) (c : Cell) :
    ∃ h'', h'.write a c = some h'' ∧ Grown h h'' owned ∧
      h''.cell = Function.update h'.cell a (some c) := by
  obtain ⟨h'', hwrite, hcell, hfresh⟩ := exists_write c (hgrown.live a hmem)
  refine ⟨h'', hwrite, ⟨hgrown.fresh_le.trans hfresh.ge, hgrown.new, fun b hb => ?_,
    fun b hb => ?_⟩, hcell⟩
  · rw [hcell]
    by_cases hsame : b = a
    · simp [hsame]
    · rw [Function.update_of_ne hsame]
      exact hgrown.live b hb
  · have hne : b ≠ a := by
      rintro rfl
      exact hb hmem
    rw [hcell, Function.update_of_ne hne]
    exact hgrown.same b hb

/-- Some of what was allocated since can be freed, and the rest stays. -/
theorem freeAll (hgrown : Grown h h' owned) {addresses : List ℕ} (hnodup : addresses.Nodup)
    (hmem : ∀ a ∈ addresses, a ∈ owned) :
    ∃ h'', h'.freeAll addresses = some h'' ∧ Grown h h'' (owned \ {a | a ∈ addresses}) ∧
      ∀ b ∉ addresses, h''.cell b = h'.cell b := by
  obtain ⟨h'', hall, hfresh, hcell⟩ :=
    freeAll_eq_some hnodup fun a ha => hgrown.live a (hmem a ha)
  refine ⟨h'', hall, ⟨hgrown.fresh_le.trans hfresh.ge, fun b hb => ?_, fun b hb => ?_,
    fun b hb => ?_⟩, fun b hb => (hcell b).trans (if_neg hb)⟩
  · exact hgrown.new b hb.1
  · obtain ⟨howned, hkept⟩ := hb
    rw [hcell, if_neg (show b ∉ addresses from hkept)]
    exact hgrown.live b howned
  · rw [hcell]
    split_ifs with hfreed
    · exact (hgrown.new b (hmem b hfreed)).symm
    · exact hgrown.same b fun howned => hb ⟨howned, hfreed⟩

theorem free (hgrown : Grown h h' owned) (hmem : a ∈ owned) :
    ∃ h'', h'.free a = some h'' ∧ Grown h h'' (owned \ {a}) ∧ ∀ b ≠ a, h''.cell b = h'.cell b := by
  obtain ⟨h'', hall, hleft, hsame⟩ := hgrown.freeAll (show [a].Nodup by simp)
    fun b hb => List.mem_singleton.mp hb ▸ hmem
  rw [Heap.freeAll, List.foldlM_cons] at hall
  refine ⟨h'', by simpa using hall, hleft.congr fun b => by simp, fun b hb => hsame b (by simpa)⟩

end Grown

end Heap

end EasyForetell.Theory
