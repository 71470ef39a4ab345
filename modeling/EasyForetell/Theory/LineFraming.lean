import Mathlib.Data.List.Basic
import Mathlib.Data.List.Forall2
import Mathlib.Tactic.Common

/-!
# Lines of a stream

A stream over any alphabet is cut at a separator into complete lines and an
unterminated tail. Framing continues an open line through more text, so the
lines of a stream do not depend on how it is cut into pieces.

## Main results

* `frame_append`: framing a concatenation is framing its parts in turn
* `lineInduction`: induction over a stream line by line
* `sep_mem_take`: a window over whole lines completes the open line
-/

namespace EasyForetell.Theory

variable {α : Type*} [DecidableEq α] {sep : α}

/-- Continue an open line through a text: the lines completed, and the line that
is open at the end. -/
def frame (sep : α) : List α → List α → List (List α) × List α
  | openLine, [] => ([], openLine)
  | openLine, c :: text =>
    if c = sep then
      let later := frame sep [] text
      (openLine :: later.1, later.2)
    else frame sep (openLine ++ [c]) text

/-- The separator-terminated lines of a stream, without their separators. -/
def lines (sep : α) (stream : List α) : List (List α) := (frame sep [] stream).1

/-- What a stream holds after its last separator. -/
def tail (sep : α) (stream : List α) : List α := (frame sep [] stream).2

/-- Text without a separator extends the open line. -/
theorem frame_of_notMem {text : List α} (htext : sep ∉ text) (openLine : List α) :
    frame sep openLine text = ([], openLine ++ text) := by
  induction text generalizing openLine with
  | nil => simp [frame]
  | cons c text ih =>
    have hc : c ≠ sep := fun h => htext (by simp [h])
    have hmore : sep ∉ text := fun h => htext (by simp [h])
    simp [frame, hc, ih hmore]

/-- Framing a concatenation carries the open line across the cut. -/
theorem frame_append (openLine first second : List α) :
    frame sep openLine (first ++ second) =
      ((frame sep openLine first).1 ++ (frame sep (frame sep openLine first).2 second).1,
        (frame sep (frame sep openLine first).2 second).2) := by
  induction first generalizing openLine with
  | nil => simp [frame]
  | cons c first ih =>
    by_cases hc : c = sep
    · simp [frame, hc, ih]
    · simp [frame, hc, ih]

/-- The first separator completes the open line; the rest is framed afresh. -/
theorem frame_append_sep {text : List α} (htext : sep ∉ text) (openLine rest : List α) :
    frame sep openLine (text ++ sep :: rest) =
      ((openLine ++ text) :: lines sep rest, tail sep rest) := by
  rw [frame_append, frame_of_notMem htext]
  simp [frame, lines, tail]

/-- A text with a separator splits at the first one. -/
theorem exists_split_of_mem {text : List α} (hmem : sep ∈ text) :
    ∃ line rest, text = line ++ sep :: rest ∧ sep ∉ line := by
  induction text with
  | nil => simp at hmem
  | cons c text ih =>
    by_cases hc : c = sep
    · exact ⟨[], text, by simp [hc], by simp⟩
    · obtain ⟨line, rest, rfl, hline⟩ := ih (by simpa [Ne.symm hc] using hmem)
      exact ⟨c :: line, rest, rfl, by simp [hline, Ne.symm hc]⟩

@[simp] theorem lines_nil : lines sep ([] : List α) = [] := rfl

@[simp] theorem tail_nil : tail sep ([] : List α) = [] := rfl

theorem lines_of_notMem {text : List α} (htext : sep ∉ text) : lines sep text = [] := by
  rw [lines, frame_of_notMem htext]

theorem tail_of_notMem {text : List α} (htext : sep ∉ text) : tail sep text = text := by
  rw [tail, frame_of_notMem htext, List.nil_append]

theorem lines_append_sep {line : List α} (hline : sep ∉ line) (rest : List α) :
    lines sep (line ++ sep :: rest) = line :: lines sep rest := by
  rw [lines, frame_append_sep hline, List.nil_append]

theorem tail_append_sep {line : List α} (hline : sep ∉ line) (rest : List α) :
    tail sep (line ++ sep :: rest) = tail sep rest := by
  rw [tail, frame_append_sep hline]

/-- Induction over a stream line by line. -/
theorem lineInduction (sep : α) {motive : List α → Prop}
    (hlast : ∀ text, sep ∉ text → motive text)
    (hline : ∀ line rest, sep ∉ line → motive rest → motive (line ++ sep :: rest))
    (stream : List α) : motive stream := by
  induction hlength : stream.length using Nat.strongRecOn generalizing stream with
  | ind n ih =>
    by_cases hmem : sep ∈ stream
    · obtain ⟨line, rest, rfl, hfree⟩ := exists_split_of_mem hmem
      refine hline line rest hfree (ih rest.length ?_ rest rfl)
      rw [← hlength, List.length_append, List.length_cons]
      omega
    · exact hlast stream hmem

/-- A stream leaves no tail exactly when it is empty or ends with a separator. -/
theorem tail_eq_nil_iff {stream : List α} :
    tail sep stream = [] ↔ stream = [] ∨ stream.getLast? = some sep := by
  induction stream using lineInduction sep with
  | hlast text htext =>
    rw [tail_of_notMem htext]
    refine ⟨Or.inl, ?_⟩
    rintro (rfl | hlast)
    · rfl
    · exact absurd (List.mem_of_getLast? hlast) htext
  | hline line rest hline ih =>
    -- the last symbol is that of the rest, unless the rest is empty
    rw [tail_append_sep hline, ih]
    cases rest with
    | nil => simp
    | cons c rest => simp [List.getLast?_append, List.getLast?_cons_cons]

/-- A text with a separator forgets the line that was open before it. -/
theorem frame_snd_of_mem {text : List α} (hmem : sep ∈ text) (openLine : List α) :
    (frame sep openLine text).2 = tail sep text := by
  obtain ⟨line, rest, rfl, hline⟩ := exists_split_of_mem hmem
  rw [frame_append_sep hline, tail_append_sep hline]

/-- The lines are made of the symbols of the open line and the text. -/
theorem mem_of_mem_frame {openLine text line : List α} (hline : line ∈ (frame sep openLine text).1)
    {c : α} (hc : c ∈ line) : c ∈ openLine ∨ c ∈ text := by
  induction text generalizing openLine with
  | nil => simp [frame] at hline
  | cons d text ih =>
    by_cases hd : d = sep
    · simp only [frame, hd, if_true, List.mem_cons] at hline
      rcases hline with rfl | hlater
      · exact Or.inl hc
      · exact Or.inr (List.mem_cons_of_mem _ ((ih hlater).resolve_left List.not_mem_nil))
    · simp only [frame, hd, if_false] at hline
      rcases ih hline with hopen | htext
      · rcases List.mem_append.mp hopen with hopen | hlast
        · exact Or.inl hopen
        · exact Or.inr (by simpa using Or.inl (List.mem_singleton.mp hlast))
      · exact Or.inr (List.mem_cons_of_mem _ htext)

/-- A terminated line is one line and leaves none open. -/
theorem frame_line {line : List α} (hline : sep ∉ line) :
    frame sep [] (line ++ [sep]) = ([line], []) := by
  rw [frame_append_sep hline]
  simp

/-- In a stream of whole lines that fit in a window, the next window completes a line
that is open. -/
theorem sep_mem_take {openLine text : List α} {window : ℕ} (hopen : openLine ≠ [])
    (hwhole : (frame sep openLine text).2 = [])
    (hshort : ∀ line ∈ (frame sep openLine text).1, line.length ≤ window) :
    sep ∈ text.take window := by
  have hmem : sep ∈ text := by
    by_contra hfree
    rw [frame_of_notMem hfree] at hwhole
    exact hopen (List.append_eq_nil_iff.mp hwhole).1
  obtain ⟨line, rest, rfl, hline⟩ := exists_split_of_mem hmem
  rw [frame_append_sep hline] at hshort
  have hfirst := hshort (openLine ++ line) List.mem_cons_self
  have hpos := List.length_pos_iff.mpr hopen
  rw [List.length_append] at hfirst
  -- the separator stands right behind the rest of the open line
  have htake : line ++ [sep] <+: (line ++ sep :: rest).take window := by
    rw [List.prefix_take_iff]
    refine ⟨⟨rest, by simp⟩, ?_⟩
    rw [List.length_append, List.length_singleton]
    omega
  exact htake.subset (by simp)

/-- A line and its separator are part of the text. -/
theorem length_lt_of_mem_lines {text line : List α} (hline : line ∈ lines sep text) :
    line.length < text.length := by
  induction text using lineInduction sep with
  | hlast text htext => simp [lines_of_notMem htext] at hline
  | hline first rest hfirst ih =>
    rw [lines_append_sep hfirst] at hline
    rw [List.length_append, List.length_cons]
    rcases List.mem_cons.mp hline with rfl | hmore
    · omega
    · have := ih hmore
      omega

/-- A shorter open line gives the same lines up to a shorter first one. -/
theorem frame_length_le (sep : α) {first second : List α} (hle : first.length ≤ second.length)
    (text : List α) :
    List.Forall₂ (fun a b => a.length ≤ b.length) (frame sep first text).1
        (frame sep second text).1 ∧
      (frame sep first text).2.length ≤ (frame sep second text).2.length := by
  induction text using lineInduction sep with
  | hlast text htext =>
    rw [frame_of_notMem htext, frame_of_notMem htext]
    exact ⟨.nil, by simpa using hle⟩
  -- from the first separator on both continue alike
  | hline line rest hline _ =>
    rw [frame_append_sep hline, frame_append_sep hline]
    exact ⟨.cons (by simpa using hle) (List.forall₂_same.mpr fun _ _ => Nat.le_refl _),
      Nat.le_refl _⟩

end EasyForetell.Theory
