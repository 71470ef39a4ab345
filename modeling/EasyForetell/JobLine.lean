import EasyForetell.Worker

/-!
# What a worker reads in a line (queral.c, get_command in worker_thread)

The command a line stands for, its argument, and the word it leaves in the buffer `command`, as
functions of the line alone: what `get_command` leaves of the line in a slot, in whatever
buffers the worker brings along.

## Main results

* `parse_spec`: what the worker's buffers hold behind the parser
* `parse_congr`: two workers read the same in a line
-/

namespace EasyForetell

open Memory

/-- The word before the first space of a line without the whitespace around it. -/
def lineWord (line : List UInt8) : List UInt8 := (trim line).takeWhile (· != space)

/-- What stands behind that word. -/
def lineArgument (line : List UInt8) : List UInt8 := trim ((trim line).dropWhile (· != space))

/-- The command a line stands for. -/
def lineKind (line : List UInt8) : Command :=
  if space ∈ trim line then Command.ofKeyword (lineWord line) else .undefined

/-- The word in `command` behind a line: its own, if it has a space, and otherwise the word that
was there before. -/
def wordBehind (word line : List UInt8) : List UInt8 :=
  if space ∈ trim line then lineWord line else word

section Parsing

variable {slot : Block}

theorem cstr_dequeued (w : Worker) (hnul : (0 : UInt8) ∈ slot) :
    (0 : UInt8) ∈ memcpy w.job slot (strlen slot + 1) ∧
      cstr (memcpy w.job slot (strlen slot + 1)) = cstr slot := by
  refine ⟨mem_store ?_, cstr_memcpy_strlen hnul⟩
  rw [take_strlen_succ hnul]
  exact List.mem_append_right _ (List.mem_singleton_self 0)

/-- The kind of a job and its argument do not depend on the buffers. -/
theorem parse_congr (w w' : Worker) (hnul : (0 : UInt8) ∈ slot) :
    (w.parse slot).res = (w'.parse slot).res ∧
      cstr (w.parse slot).job = cstr (w'.parse slot).job := by
  obtain ⟨hmem, hstring⟩ := cstr_dequeued w hnul
  obtain ⟨hmem', hstring'⟩ := cstr_dequeued w' hnul
  exact getCommand_congr hmem' hmem (by rw [hstring, hstring'])

/-- A line splits at its first space. -/
theorem trim_eq_lineWord_append {line : List UInt8} (hspace : space ∈ trim line) :
    ∃ rest, trim line = lineWord line ++ space :: rest ∧ space ∉ lineWord line ∧
      lineArgument line = trim rest := by
  obtain ⟨word, rest, hline, hword⟩ := List.eq_append_cons_of_mem hspace
  have hall : ∀ c ∈ word, (c != space) = true := by
    intro c hc
    simpa using fun h : c = space => hword (h ▸ hc)
  have hfirst : lineWord line = word := by
    rw [lineWord, hline, List.takeWhile_append_of_pos hall]
    simp
  have hrest : (trim line).dropWhile (· != space) = space :: rest := by
    rw [hline, List.dropWhile_append_of_pos hall]
    simp
  refine ⟨rest, by rw [hfirst, hline], hfirst ▸ hword, ?_⟩
  rw [lineArgument, hrest, trim_cons_of_space (by decide)]

/-- No space in the trimmed line: the operation is undefined, and `command` keeps its word. -/
theorem parse_of_no_space (w : Worker) (hnul : (0 : UInt8) ∈ slot)
    (hline : space ∉ trim (cstr slot)) :
    (w.parse slot).res = .undefined ∧ (w.parse slot).command = w.command := by
  obtain ⟨hmem, hstring⟩ := cstr_dequeued w hnul
  obtain ⟨hres, hcommand, -⟩ := getCommand_of_no_space w.command hmem (by rwa [hstring])
  exact ⟨hres, hcommand⟩

/-- Behind the parser the worker has the kind of the line, the word in `command` and, for a
command that is defined, the argument in `job`. -/
theorem parse_spec (w : Worker) (hnul : (0 : UInt8) ∈ slot) :
    (w.parse slot).res = lineKind (cstr slot) ∧
      cstr (w.parse slot).command = wordBehind (cstr w.command) (cstr slot) ∧
      (lineKind (cstr slot) ≠ .undefined →
        cstr (w.parse slot).job = lineArgument (cstr slot)) := by
  obtain ⟨hmem, hstring⟩ := cstr_dequeued w hnul
  by_cases hspace : space ∈ trim (cstr slot)
  · obtain ⟨rest, hline, hword, hargument⟩ := trim_eq_lineWord_append hspace
    obtain ⟨hres, hcommand, hjob, -⟩ :=
      getCommand_of_space w.command hmem (by rw [hstring, hline]) hword
    rw [lineKind, wordBehind, if_pos hspace, if_pos hspace, hargument]
    exact ⟨hres, hcommand, hjob⟩
  · obtain ⟨hres, hcommand⟩ := parse_of_no_space w hnul hspace
    rw [lineKind, wordBehind, if_neg hspace, if_neg hspace, hcommand]
    exact ⟨hres, rfl, fun hdefined => absurd rfl hdefined⟩

end Parsing

end EasyForetell
