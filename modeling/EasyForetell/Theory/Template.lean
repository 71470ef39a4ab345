import EasyForetell.Theory.StringRewriting
import Mathlib.Algebra.BigOperators.Group.List.Basic
import Mathlib.Tactic.Common

/-!
# Templates with marked references

A template is a sequence of literal texts and references. Written out, a
reference is a mark followed by the name it refers to; expanded, it is the value
of that name. When the literals, the names and the values are free of the mark
and no name begins with another one, the written text determines where the
references are, and filling in one name at a time expands the template.

## Main results

* `exists_template`: a text whose marks all start a reference is a template
* `split_of_occurrence`: an occurrence of a reference in the text is one in the template
* `rewriteAll_encode`: the rewriting loop fills in one name
* `expand_fill`, `encode_eq_expand`: filling in every name expands the template
-/

namespace EasyForetell.Theory

/-- A piece of a template. -/
inductive Piece (α ι : Type*)
  | literal (text : List α)
  | reference (i : ι)

namespace Template

variable {α ι : Type*}

/-- The template as it is written. -/
def encode (mark : α) (name : ι → List α) (template : List (Piece α ι)) : List α :=
  template.flatMap fun
    | .literal text => text
    | .reference i => mark :: name i

/-- The template with every reference replaced by its value. -/
def expand (value : ι → List α) (template : List (Piece α ι)) : List α :=
  template.flatMap fun
    | .literal text => text
    | .reference i => value i

/-- The room a template needs while it is filled in: a reference may stand there
or its value. -/
def room (name value : ι → List α) (template : List (Piece α ι)) : ℕ :=
  (template.map fun
    | .literal text => text.length
    | .reference i => max ((name i).length + 1) (value i).length).sum

/-- No literal contains the mark, and every reference is to a listed name. -/
def WellFormed (mark : α) (names : List ι) (template : List (Piece α ι)) : Prop :=
  ∀ piece ∈ template, match piece with
    | .literal text => mark ∉ text
    | .reference i => i ∈ names

/-- Replace the references to one name by its value. -/
def fill [DecidableEq ι] (value : ι → List α) (i : ι) (template : List (Piece α ι)) :
    List (Piece α ι) :=
  template.map fun
    | .literal text => .literal text
    | .reference j => if j = i then .literal (value j) else .reference j

/-- The references to one name. -/
def references [DecidableEq ι] (i : ι) (template : List (Piece α ι)) : ℕ :=
  template.countP fun
    | .literal _ => false
    | .reference j => j = i

section Encoding

variable {mark : α} {name value : ι → List α} {names : List ι}
  {template first second : List (Piece α ι)}
  {i : ι} {text : List α}

@[simp] theorem encode_nil : encode mark name ([] : List (Piece α ι)) = [] := rfl

@[simp] theorem encode_literal :
    encode mark name (.literal text :: template) = text ++ encode mark name template := rfl

@[simp] theorem encode_reference :
    encode mark name (.reference i :: template) =
      mark :: (name i ++ encode mark name template) := rfl

@[simp] theorem encode_append :
    encode mark name (first ++ second) = encode mark name first ++ encode mark name second :=
  List.flatMap_append

@[simp] theorem expand_nil : expand value ([] : List (Piece α ι)) = [] := rfl

@[simp] theorem expand_literal :
    expand value (.literal text :: template) = text ++ expand value template := rfl

@[simp] theorem expand_reference :
    expand value (.reference i :: template) = value i ++ expand value template := rfl

@[simp] theorem room_nil : room name value ([] : List (Piece α ι)) = 0 := rfl

@[simp] theorem room_literal :
    room name value (.literal text :: template) = text.length + room name value template := rfl

@[simp] theorem room_reference :
    room name value (.reference i :: template) =
      max ((name i).length + 1) (value i).length + room name value template := rfl

@[simp] theorem room_append :
    room name value (first ++ second) = room name value first + room name value second := by
  simp [room]

/-- Filling in one reference needs no more room. -/
theorem room_split_le (first second : List (Piece α ι)) :
    room name value (first ++ .literal (value i) :: second) ≤
      room name value (first ++ .reference i :: second) := by
  rw [room_append, room_append, room_literal, room_reference]
  have := le_max_right ((name i).length + 1) (value i).length
  omega

theorem length_encode_le (mark : α) (name value : ι → List α) (template : List (Piece α ι)) :
    (encode mark name template).length ≤ room name value template := by
  induction template with
  | nil => simp
  | cons piece template ih =>
    cases piece with
    | literal text =>
      rw [encode_literal, room_literal, List.length_append]
      omega
    | reference i =>
      rw [encode_reference, room_reference, List.length_cons, List.length_append]
      omega

theorem wellFormed_append :
    WellFormed mark names (first ++ second) ↔
      WellFormed mark names first ∧ WellFormed mark names second :=
  List.forall_mem_append

/-! ### Where the references are -/

/-- A text without the mark ends before any mark. -/
theorem append_eq_mark_split {free rest before after : List α} (hfree : mark ∉ free)
    (hsplit : free ++ rest = before ++ mark :: after) :
    ∃ before', before = free ++ before' ∧ rest = before' ++ mark :: after := by
  rcases List.append_eq_append_iff.mp hsplit with ⟨more, hmore, hrest⟩ | ⟨more, hmore, hrest⟩
  · exact ⟨more, hmore, hrest⟩
  · cases more with
    | nil => exact ⟨[], by simpa using hmore.symm, hrest.symm⟩
    | cons c more =>
      rw [List.cons_append] at hrest
      obtain ⟨rfl, -⟩ := List.cons.inj hrest
      exact absurd (by simp [hmore]) hfree

/-- Every mark in a written template starts a reference. -/
theorem split_of_mark (hnames : ∀ i ∈ names, mark ∉ name i)
    (hformed : WellFormed mark names template)
    {before after : List α} (hsplit : encode mark name template = before ++ mark :: after) :
    ∃ first i second, template = first ++ .reference i :: second ∧
      before = encode mark name first ∧ after = name i ++ encode mark name second := by
  induction template generalizing before with
  | nil => simp at hsplit
  | cons piece template ih =>
    have hrest : WellFormed mark names template := fun p hp => hformed p (List.mem_cons_of_mem _ hp)
    cases piece with
    -- no literal and no name holds the mark, so it stands further on or starts the piece
    | literal text =>
      rw [encode_literal] at hsplit
      obtain ⟨before', rfl, hlater⟩ := append_eq_mark_split (hformed _ List.mem_cons_self) hsplit
      obtain ⟨first, i, second, rfl, rfl, hafter⟩ := ih hrest hlater
      exact ⟨.literal text :: first, i, second, rfl, rfl, hafter⟩
    | reference j =>
      rw [encode_reference] at hsplit
      cases before with
      | nil =>
        obtain ⟨-, hafter⟩ := List.cons.inj hsplit
        exact ⟨[], j, template, rfl, rfl, hafter.symm⟩
      | cons c before =>
        rw [List.cons_append] at hsplit
        obtain ⟨rfl, htail⟩ := List.cons.inj hsplit
        obtain ⟨before', rfl, hlater⟩ :=
          append_eq_mark_split (hnames j (hformed _ List.mem_cons_self)) htail
        obtain ⟨first, i, second, rfl, rfl, hafter⟩ := ih hrest hlater
        exact ⟨.reference j :: first, i, second, rfl, rfl, hafter⟩

/-- Where a reference occurs in the written template, there is that reference:
another name would begin with this one, or this one with it. -/
theorem split_of_occurrence (hnames : ∀ j ∈ names, mark ∉ name j)
    (hformed : WellFormed mark names template)
    (hdistinct : ∀ j ∈ names, name j <+: name i ∨ name i <+: name j → j = i)
    {before after : List α}
    (hsplit : encode mark name template = before ++ (mark :: name i) ++ after) :
    ∃ first second, template = first ++ .reference i :: second ∧
      before = encode mark name first ∧ after = encode mark name second := by
  rw [List.append_assoc, List.cons_append] at hsplit
  obtain ⟨first, j, second, rfl, hbefore, hafter⟩ := split_of_mark hnames hformed hsplit
  have hmember : j ∈ names := hformed (.reference j) (by simp)
  obtain rfl : j = i := hdistinct j hmember
    (List.prefix_or_prefix_of_prefix ⟨_, hafter.symm⟩ (List.prefix_append _ _))
  exact ⟨first, second, rfl, hbefore, (List.append_cancel_left hafter)⟩

/-- A text whose marks are all followed by a listed name is a template. -/
theorem exists_template {text : List α} (hmarks : ∀ before rest, text = before ++ mark :: rest →
    ∃ i ∈ names, name i <+: rest) :
    ∃ template, WellFormed mark names template ∧ encode mark name template = text := by
  classical
  -- cut the text at its first mark and take off the name behind it
  induction hlength : text.length using Nat.strongRecOn generalizing text with
  | ind length ih =>
    by_cases hmark : mark ∈ text
    · obtain ⟨before, rest, rfl, hbefore⟩ := List.eq_append_cons_of_mem hmark
      obtain ⟨i, hi, later, rfl⟩ := hmarks before rest rfl
      have hlater : ∀ before' rest', later = before' ++ mark :: rest' →
          ∃ j ∈ names, name j <+: rest' := by
        rintro before' rest' rfl
        exact hmarks (before ++ mark :: (name i ++ before')) rest' (by simp)
      obtain ⟨template, hformed, rfl⟩ := ih later.length (by simp at hlength; omega) hlater rfl
      refine ⟨.literal before :: .reference i :: template, ?_, by simp⟩
      simp only [WellFormed, List.forall_mem_cons]
      exact ⟨hbefore, hi, hformed⟩
    · exact ⟨[.literal text], by simpa [WellFormed] using hmark, by simp⟩

end Encoding

/-! ### Filling in -/

section Filling

variable [DecidableEq ι] {mark : α} {name value : ι → List α} {names : List ι}
  {template first second : List (Piece α ι)} {i : ι}

@[simp] theorem references_append :
    references i (first ++ second) = references i first + references i second :=
  List.countP_append

@[simp] theorem references_literal {text : List α} :
    references i (.literal text :: template) = references i template := by
  simp [references]

@[simp] theorem references_reference_self :
    references i (.reference i :: template) = references i template + 1 := by
  simp [references]

@[simp] theorem fill_nil : fill value i ([] : List (Piece α ι)) = [] := rfl

@[simp] theorem fill_literal {text : List α} :
    fill value i (.literal text :: template) = .literal text :: fill value i template := rfl

@[simp] theorem fill_reference_self :
    fill value i (.reference i :: template) = .literal (value i) :: fill value i template := by
  simp [fill]

theorem fill_reference_of_ne {j : ι} (hother : j ≠ i) :
    fill value i (.reference j :: template) = .reference j :: fill value i template := by
  simp [fill, hother]

theorem fill_append : fill value i (first ++ second) = fill value i first ++ fill value i second :=
  List.map_append

/-- Filling in one reference by hand makes no difference. -/
theorem fill_split :
    fill value i (first ++ .literal (value i) :: second) =
      fill value i (first ++ .reference i :: second) := by
  rw [fill_append, fill_append, fill_literal, fill_reference_self]

theorem fill_of_references_eq_zero (hnone : references i template = 0) :
    fill value i template = template := by
  refine (List.map_congr_left fun piece hpiece => ?_).trans (List.map_id template)
  cases piece with
  | literal text => rfl
  | reference j =>
    have hother := List.countP_eq_zero.mp hnone _ hpiece
    have hne : j ≠ i := by simpa using hother
    simp [hne]

/-- A template with a reference is written with an occurrence of it. -/
theorem exists_occurrence (hsome : 0 < references i template) :
    mark :: name i <:+: encode mark name template := by
  obtain ⟨piece, hpiece, hreference⟩ := List.countP_pos_iff.mp hsome
  obtain ⟨first, second, rfl⟩ := List.append_of_mem hpiece
  cases piece with
  | literal text => cases hreference
  | reference j =>
    obtain rfl : j = i := by simpa using hreference
    exact ⟨encode mark name first, encode mark name second, by simp⟩

theorem WellFormed.fill (hformed : WellFormed mark (i :: names) template) (hvalue : mark ∉ value i) :
    WellFormed mark names (fill value i template) := by
  intro piece hpiece
  obtain ⟨original, horiginal, rfl⟩ := List.mem_map.mp hpiece
  have hpiece := hformed original horiginal
  cases original with
  | literal text => exact hpiece
  | reference j =>
    by_cases hself : j = i
    · rw [hself]
      simpa using hvalue
    · simpa [hself] using hpiece

theorem room_fill_le (template : List (Piece α ι)) :
    room name value (fill value i template) ≤ room name value template := by
  induction template with
  | nil => exact Nat.le_refl _
  | cons piece template ih =>
    cases piece with
    | literal text => exact Nat.add_le_add_left ih _
    | reference j =>
      by_cases hself : j = i
      · subst hself
        rw [fill_reference_self, room_literal, room_reference]
        exact Nat.add_le_add (le_max_right _ _) ih
      · rw [fill_reference_of_ne hself, room_reference, room_reference]
        exact Nat.add_le_add_left ih _

/-- Filling in does not change what a template expands to. -/
theorem expand_fill (template : List (Piece α ι)) :
    expand value (fill value i template) = expand value template := by
  induction template with
  | nil => rfl
  | cons piece template ih =>
    cases piece with
    | literal text => rw [fill_literal, expand_literal, expand_literal, ih]
    | reference j =>
      by_cases hself : j = i
      · subst hself
        rw [fill_reference_self, expand_literal, expand_reference, ih]
      · rw [fill_reference_of_ne hself, expand_reference, expand_reference, ih]

/-- The rewriting loop fills in every reference to one name, if every replacement
that stays in the room of the template is allowed. -/
theorem rewriteAll_encode [DecidableEq α] {allowed : List α → List α → Prop}
    [∀ before after, Decidable (allowed before after)] {bound : ℕ}
    (hallowed : ∀ before after,
      before.length + max ((name i).length + 1) (value i).length + after.length < bound →
        allowed before after)
    (hnames : ∀ j ∈ names, mark ∉ name j)
    (hdistinct : ∀ j ∈ names, name j <+: name i ∨ name i <+: name j → j = i)
    (hvalue : mark ∉ value i) (hformed : WellFormed mark names template)
    (hroom : room name value template < bound) :
    rewriteAll allowed (mark :: name i) (value i) (references i template + 1)
        (encode mark name template) =
      some (encode mark name (fill value i template)) := by
  induction hcount : references i template generalizing template with
  | zero =>
    -- no reference is left, so the search finds none
    have hstays : ∀ text', rewriteFirst allowed (mark :: name i) (value i)
        (encode mark name template) ≠ .rewritten text' := by
      intro text' hrewritten
      obtain ⟨before, after, hsplit, -, -⟩ := rewriteFirst_eq_rewritten hrewritten
      obtain ⟨first, second, rfl, -, -⟩ := split_of_occurrence hnames hformed hdistinct hsplit
      rw [references_append, references_reference_self] at hcount
      omega
    rw [rewriteAll_of_not_rewritten _ hstays, fill_of_references_eq_zero hcount]
  | succ count ih =>
    -- wherever the search finds the reference, the replacement is allowed
    have hroom' : ∀ before after,
        encode mark name template = before ++ (mark :: name i) ++ after → allowed before after := by
      intro before after hsplit
      obtain ⟨first, second, rfl, rfl, rfl⟩ := split_of_occurrence hnames hformed hdistinct hsplit
      apply hallowed
      have hfirst := length_encode_le mark name value first
      have hsecond := length_encode_le mark name value second
      rw [room_append, room_reference] at hroom
      omega
    obtain ⟨text', hrewritten⟩ := exists_rewritten (value i) (exists_occurrence (by omega)) hroom'
    rw [rewriteAll_of_rewritten _ hrewritten]
    obtain ⟨before, after, hsplit, rfl, -⟩ := rewriteFirst_eq_rewritten hrewritten
    obtain ⟨first, second, rfl, rfl, rfl⟩ := split_of_occurrence hnames hformed hdistinct hsplit
    -- one reference is filled in, and the loop goes on with one less
    have hless : references i (first ++ .literal (value i) :: second) = count := by
      rw [references_append, references_reference_self] at hcount
      rw [references_append, references_literal]
      omega
    have hformed' : WellFormed mark names (first ++ .literal (value i) :: second) := by
      obtain ⟨hfirst, hsecond⟩ := wellFormed_append.mp hformed
      refine wellFormed_append.mpr ⟨hfirst, ?_⟩
      intro piece hpiece
      rcases List.mem_cons.mp hpiece with rfl | hlater
      · exact hvalue
      · exact hsecond piece (List.mem_cons_of_mem _ hlater)
    have hnext := ih hformed' (Nat.lt_of_le_of_lt (room_split_le first second) hroom) hless
    rw [← fill_split, ← hnext, encode_append, encode_literal, List.append_assoc]

end Filling

/-- A template without references is written as it expands. -/
theorem encode_eq_expand {mark : α} {name value : ι → List α} {template : List (Piece α ι)}
    (hformed : WellFormed mark [] template) :
    encode mark name template = expand value template := by
  refine List.flatMap_congr fun piece hpiece => ?_
  cases piece with
  | literal text => rfl
  | reference i => exact absurd (hformed _ hpiece) List.not_mem_nil

end Template

end EasyForetell.Theory
