import EasyForetell.JobLine
import EasyForetell.Memory.Access
import EasyForetell.Substitution

/-!
# Shifts inside a buffer (queral.c, get_command; config_utils.c, substitute_variables)

`get_command` trims a job by moving it to the front of its buffer, and `substitute_variables`
brings the value of a variable to the front in the same way. Each move starts behind what it
drops and still copies a number of bytes taken before that: the length of the untrimmed
string, or the size of the whole buffer.

The bytes that a function reads and writes are given as spans of its buffer, in the order of
the calls that do it.

## Main results

* `inside_trimJobSpans_iff`, `inside_redefineJobSpans_iff`: when the moves of `get_command`
  stay in a buffer
* `shifts_inside_iff`: when all shifts stay in their buffers
-/

namespace EasyForetell

open Memory

/-! ### The bytes that are read and written -/

/-- `strlen`, from an index on. -/
def strlenSpan (block : Block) (index : ℕ) : Span := ⟨index, strlen (block.drop index) + 1⟩

/-- `strchr` reads up to the character, or else up to the NUL. -/
def strchrSpan (block : Block) (c : UInt8) : Span :=
  ⟨0, (strchr block c).getD (strlen block) + 1⟩

/-- `memmove` to the front, from an index on. -/
def memmoveSpans (index count : ℕ) : List Span := [⟨index, count⟩, ⟨0, count⟩]

/-- `strim`: the whitespace in front and the byte behind it, the rest of the string, the
whitespace at its end back to the byte before, and the NUL. -/
def strimSpans (str : Block) : List Span :=
  let start := skipSpaces str
  let text := cstr (str.drop start)
  let kept := (text.rdropWhile isspace).length
  ⟨0, start + 1⟩ :: strlenSpan str start ::
    if text.length = 0 then []
    else [⟨start + kept - 1, text.length - kept + 1⟩, ⟨start + kept, 1⟩]

/-- `memmove (job, strim (job), job_length)`. -/
def trimJobSpans (job : Block) (jobLength : ℕ) : List Span :=
  strimSpans job ++ memmoveSpans (strim job).2 jobLength

/-- Redefining the job. -/
def redefineJobSpans (job : Block) (commandLength : ℕ) : List Span :=
  let jobLength := strlen (job.drop (commandLength - 1))
  let moved := memmove job (commandLength - 1) jobLength
  strlenSpan job (commandLength - 1) :: memmoveSpans (commandLength - 1) jobLength ++
    ⟨jobLength, 1⟩ :: trimJobSpans (store moved jobLength [0]) jobLength

/-- What is read and written in the two buffers of `get_command`. -/
structure CommandSpans where
  job : List Span
  command : List Span

/-- `get_command`. -/
def getCommandSpans (command job : Block) : CommandSpans :=
  let trimming := strlenSpan job 0 :: trimJobSpans job (strlen job)
  let job := trimJob job (strlen job)
  match strchr job space with
  | none => ⟨trimming ++ [strchrSpan job space], []⟩
  | some found =>
    let commandLength := strlen job - strlen (job.drop found) + 1
    let command := store (strncpy command job commandLength) (commandLength - 1) [0]
    -- `strncpy` reads no further than the NUL, and writes as many bytes as it is told
    let splitting := [strchrSpan job space, strlenSpan job 0, strlenSpan job found,
      ⟨0, min commandLength (strlen job + 1)⟩]
    let redefining :=
      if Command.ofKeyword (cstr command) = .undefined then []
      else redefineJobSpans job commandLength
    ⟨trimming ++ splitting ++ redefining,
      [⟨0, commandLength⟩, ⟨commandLength - 1, 1⟩, strlenSpan command 0]⟩

/-- `memmove (variable, ptok, str_length)`, for a line with a second token. -/
def VariableBuffers.shiftSpans (buffers : VariableBuffers) (strLength : ℕ) (line : Block) :
    List Span :=
  match strtok varSeparator (strcpy buffers.variableBuffer line) 0 with
  | none => []
  | some first =>
    match strtok varSeparator first.block first.next with
    | none => []
    | some second => memmoveSpans second.start strLength

/-! ### When they stay inside -/

/-- A text is trimmed inside a buffer: what is copied is as long as the text, and starts behind
the whitespace in front. -/
def TrimFits (size : ℕ) (text : List UInt8) : Prop :=
  (text.takeWhile isspace).length + text.length ≤ size

instance (size : ℕ) (text : List UInt8) : Decidable (TrimFits size text) :=
  inferInstanceAs (Decidable (_ ≤ _))

/-- A line is trimmed inside the buffer, and so is what stands behind its keyword, if it has
one. -/
@[mk_iff]
structure JobShiftsFit (line : List UInt8) : Prop where
  line_fits : TrimFits bufferSize line
  argument_fits : lineKind line ≠ .undefined →
    TrimFits bufferSize ((trim line).dropWhile (· != space))

/-- Nothing but separators stands behind the first token of a line. -/
def OneToken (line : List UInt8) : Prop :=
  ∀ c ∈ (line.dropWhile (· == varSeparator)).dropWhile (· != varSeparator), c = varSeparator

instance (line : List UInt8) : Decidable (OneToken line) :=
  List.decidableBAll (fun c => c = varSeparator)
    ((line.dropWhile (· == varSeparator)).dropWhile (· != varSeparator))

section Trimming

variable {size index : ℕ} {str job block : Block} {keyword rest : List UInt8}

theorem strlenSpan_within (hindex : index ≤ strlen block) (hshort : strlen block < size) :
    (strlenSpan block index).Within size := by
  rw [strlenSpan, Span.within_iff, strlen_drop hindex]
  omega

theorem strchrSpan_within (c : UInt8) (hshort : strlen block < size) :
    (strchrSpan block c).Within size := by
  rw [strchrSpan, Span.within_iff]
  cases hfound : strchr block c with
  | none =>
    rw [Option.getD_none]
    omega
  | some index =>
    obtain ⟨text, rest, hstring, -, rfl⟩ := eq_append_of_strchr hfound
    have hlength := congrArg List.length hstring
    rw [List.length_append, List.length_cons, ← strlen] at hlength
    rw [Option.getD_some]
    omega

/-- `strim` keeps to the string and its NUL. -/
theorem inside_strimSpans (hshort : strlen str < size) : Inside size (strimSpans str) := by
  have hbound := skipSpaces_add_length_trim_le str
  have hrest := strlen_drop (show skipSpaces str ≤ strlen str by omega)
  have hkept : ((cstr (str.drop (skipSpaces str))).rdropWhile isspace).length =
      (trim (cstr str)).length := by rw [cstr_drop_skipSpaces, trim]
  unfold strimSpans
  dsimp only
  rw [hkept, ← strlen]
  split_ifs with hblank
  · simp only [strlenSpan, inside_cons, Span.within_iff, inside_nil, and_true]
    omega
  · simp only [strlenSpan, inside_cons, Span.within_iff, inside_nil, and_true]
    omega

/-- Trimming a job copies its whole length from behind the whitespace in front. -/
theorem inside_trimJobSpans_iff (hshort : strlen job < size) :
    Inside size (trimJobSpans job (strlen job)) ↔ TrimFits size (cstr job) := by
  have hfits : TrimFits size (cstr job) ↔ skipSpaces job + strlen job ≤ size := Iff.rfl
  have hbound := skipSpaces_add_length_trim_le job
  rw [trimJobSpans, inside_append, and_iff_right (inside_strimSpans hshort), strim_snd, hfits]
  simp only [memmoveSpans, inside_cons, Span.within_iff, inside_nil, and_true]
  omega

/-- Redefining the job copies the text behind the command twice, the second time from behind the
whitespace in front. -/
theorem inside_redefineJobSpans_iff (hjob : cstr job = keyword ++ rest)
    (hshort : strlen job < size) :
    Inside size (redefineJobSpans job (keyword.length + 1)) ↔ TrimFits size rest := by
  obtain ⟨hlength, hmoved⟩ := cstr_moved_argument hjob
  have htotal : strlen job = keyword.length + rest.length := by
    rw [strlen, hjob, List.length_append]
  have hstring : strlen (store (memmove job keyword.length rest.length) rest.length [0]) =
      rest.length := by rw [strlen, hmoved]
  have htrimmed := inside_trimJobSpans_iff (hstring.trans_lt (by omega) : _ < size)
  rw [hstring, hmoved] at htrimmed
  rw [redefineJobSpans, Nat.add_sub_cancel, hlength]
  simp only [inside_append, inside_cons, inside_nil, htrimmed, strlenSpan, memmoveSpans, hlength,
    Span.within_iff, and_true]
  constructor
  · rintro ⟨-, -, hfits⟩
    exact hfits
  · intro hfits
    refine ⟨⟨?_, ?_, ?_⟩, ?_, hfits⟩ <;> omega

end Trimming

section Shifts

variable {size : ℕ} {job : Block} {keyword rest line : List UInt8}

/-- The calls that find the command read inside the string. -/
theorem inside_splitting (hjob : cstr job = keyword ++ space :: rest) (hshort : strlen job < size) :
    Inside size [strchrSpan job space, strlenSpan job 0, strlenSpan job keyword.length,
      ⟨0, min (keyword.length + 1) (strlen job + 1)⟩] := by
  have hlength : strlen job = keyword.length + (rest.length + 1) := by
    rw [strlen, hjob, List.length_append, List.length_cons]
  simp only [inside_cons, inside_nil, Span.within_iff, and_true]
  exact ⟨strchrSpan_within space hshort, strlenSpan_within (Nat.zero_le _) hshort,
    strlenSpan_within (by omega) hshort, by omega⟩

/-- What stands behind the keyword of a line starts with the space. -/
theorem jobShiftsFit_iff_of_space (hline : trim line = lineWord line ++ space :: rest) :
    JobShiftsFit line ↔ TrimFits bufferSize line ∧
      (Command.ofKeyword (lineWord line) ≠ .undefined → TrimFits bufferSize (space :: rest)) := by
  have hspace : space ∈ trim line := by simp [hline]
  have hargument : (trim line).dropWhile (· != space) = space :: rest :=
    List.append_cancel_left (List.takeWhile_append_dropWhile.trans hline)
  rw [jobShiftsFit_iff, hargument, lineKind, if_pos hspace]

/-- The shifts of `get_command`, on a string in the buffer. -/
theorem inside_job_iff (command : Block) (hnul : (0 : UInt8) ∈ job)
    (hshort : strlen job < bufferSize) :
    Inside bufferSize (getCommandSpans command job).job ↔ JobShiftsFit (cstr job) := by
  obtain ⟨htrim, -⟩ := cstr_trimJob job hnul
  have hshifted : strlen (trimJob job (strlen job)) < bufferSize := by
    have hshorter := skipSpaces_add_length_trim_le job
    rw [strlen, htrim]
    omega
  have hfirst : Inside bufferSize (strlenSpan job 0 :: trimJobSpans job (strlen job)) ↔
      TrimFits bufferSize (cstr job) := by
    rw [inside_cons, and_iff_right (strlenSpan_within (Nat.zero_le _) hshort),
      inside_trimJobSpans_iff hshort]
  by_cases hspace : space ∈ trim (cstr job)
  · obtain ⟨rest, hline, hword, -⟩ := trim_eq_lineWord_append hspace
    rw [hline] at htrim
    rw [jobShiftsFit_iff_of_space hline, getCommandSpans]
    generalize trimJob job (strlen job) = shifted at htrim hshifted
    obtain ⟨hfound, hcommandLength, hcommand⟩ := split_command command htrim hword
    have hredefine : Inside bufferSize
        (redefineJobSpans shifted ((lineWord (cstr job)).length + 1)) ↔
          TrimFits bufferSize (space :: rest) :=
      inside_redefineJobSpans_iff htrim hshifted
    simp only [hfound, hcommandLength, Nat.add_sub_cancel, hcommand, inside_append, hfirst,
      inside_splitting htrim hshifted, and_true]
    -- the job is redefined only for a command that is known
    refine and_congr_right fun _ => ?_
    split_ifs with hkind
    · exact iff_of_true inside_nil fun hdefined => absurd hkind hdefined
    · exact hredefine.trans ⟨fun hfits _ => hfits, fun hfits => hfits hkind⟩
  · have hkind : lineKind (cstr job) = .undefined := by rw [lineKind, if_neg hspace]
    rw [← htrim] at hspace
    rw [getCommandSpans, strchr_eq_none_iff.mpr hspace, jobShiftsFit_iff, hkind]
    rw [inside_append, hfirst, inside_cons]
    refine and_congr_right fun _ => ?_
    exact iff_of_true ⟨strchrSpan_within space hshifted, inside_nil⟩ fun hdefined =>
      absurd rfl hdefined

/-- The word that is copied to `command` and its NUL fit there. -/
theorem inside_command (command : Block) (hnul : (0 : UInt8) ∈ job)
    (hshort : strlen job < bufferSize) :
    Inside bufferSize (getCommandSpans command job).command := by
  obtain ⟨htrim, -⟩ := cstr_trimJob job hnul
  have hshorter := skipSpaces_add_length_trim_le job
  rw [← htrim, ← strlen] at hshorter
  rw [getCommandSpans]
  cases hfound : strchr (trimJob job (strlen job)) space with
  | none => exact inside_nil
  | some index =>
    obtain ⟨word, rest, hstring, hword, rfl⟩ := eq_append_of_strchr hfound
    obtain ⟨-, hcommandLength, hcommand⟩ := split_command command hstring hword
    have hlength : strlen (trimJob job (strlen job)) = word.length + (rest.length + 1) := by
      rw [strlen, hstring, List.length_append, List.length_cons]
    have hwritten := congrArg List.length hcommand
    rw [← strlen] at hwritten
    simp only [hcommandLength, Nat.add_sub_cancel, inside_cons, inside_nil, Span.within_iff,
      and_true]
    exact ⟨by omega, by omega, strlenSpan_within (Nat.zero_le _) (by omega)⟩

/-- A value is brought to the front from behind the name, with as many bytes as the buffer has. -/
theorem inside_shiftSpans_iff (buffers : VariableBuffers) (strLength : ℕ) (line : Block)
    (hsize : 0 < strLength) :
    Inside strLength (buffers.shiftSpans strLength line) ↔ OneToken (cstr line) := by
  have htext : cstr ((strcpy buffers.variableBuffer line).drop 0) = cstr line := by
    rw [List.drop_zero, cstr_strcpy]
  rw [OneToken, VariableBuffers.shiftSpans]
  generalize strcpy buffers.variableBuffer line = block at htext ⊢
  by_cases hblank : ∀ c ∈ cstr line, c = varSeparator
  · have hnothing : (cstr line).dropWhile (· == varSeparator) = [] := by simpa using hblank
    rw [strtok_eq_none_iff.mpr (by rwa [htext]), hnothing]
    exact iff_of_true inside_nil (List.forall_mem_nil _)
  · obtain ⟨spaces, token, rest, hsplit, hspaces, htoken, hsome, hrest, -, hbehind⟩ :=
      exists_first_token hblank
    obtain ⟨first, hfirst, hnext⟩ :=
      cstr_drop_next_of_strtok (htext.trans hsplit) hspaces htoken hsome hrest
    -- `strtok` overwrote the separator behind the first token
    have htail : (∀ c ∈ rest, c = varSeparator) ↔ ∀ c ∈ rest.tail, c = varSeparator := by
      cases rest with
      | nil => exact Iff.rfl
      | cons c rest => exact List.forall_mem_cons.trans (and_iff_right (hrest c rfl))
    rw [← hbehind, htail, ← hnext, ← strtok_eq_none_iff, hfirst]
    dsimp only
    cases hsecond : strtok varSeparator first.block first.next with
    | none => exact iff_of_true inside_nil rfl
    | some second =>
      refine iff_of_false (fun hinside => ?_) nofun
      have hlater := start_lt_next_of_strtok hfirst
      have hstart := start_lt_next_of_strtok hsecond
      have hread := Span.within_iff.mp (inside_cons.mp hinside).1
      omega

end Shifts

/-- The shifts of `get_command` and the one of `substitute_variables` stay in their buffers if
and only if the whitespace in front of the job, or of the argument, is no longer than what is
free behind it, and the line has no value to bring to the front. -/
theorem shifts_inside_iff (command job : Block) (buffers : VariableBuffers) (line : Block)
    (hnul : (0 : UInt8) ∈ job) (hjob : strlen job < bufferSize) :
    ((Inside bufferSize (getCommandSpans command job).job ∧
        Inside bufferSize (getCommandSpans command job).command) ∧
      Inside maxLineLength (buffers.shiftSpans maxLineLength line)) ↔
        JobShiftsFit (cstr job) ∧ OneToken (cstr line) := by
  rw [inside_job_iff command hnul hjob, and_iff_left (inside_command command hnul hjob),
    inside_shiftSpans_iff buffers maxLineLength line (by decide)]

/-- A command without whitespace to drop, and a variable without a value. -/
theorem shifts_inside_plain :
    let job := ascii "CACHE key" ++ [0]
    (Inside bufferSize (getCommandSpans [] job).job ∧
        Inside bufferSize (getCommandSpans [] job).command) ∧
      Inside maxLineLength
        ((VariableBuffers.mk [] []).shiftSpans maxLineLength (ascii "$a" ++ [0])) :=
  (shifts_inside_iff [] (ascii "CACHE key" ++ [0]) ⟨[], []⟩ (ascii "$a" ++ [0]) (by decide)
    (by decide)).mpr ⟨⟨by decide, fun _ => by decide⟩, by decide⟩

/-- 128 blanks before a word: 129 bytes are copied from index 128 on, in an array of 255. And
256 bytes are copied from index 3 of the 256 bytes that hold the line `$a b`. -/
theorem shifts_overrun :
    let job := List.replicate 128 space ++ ascii "x" ++ List.replicate 126 0
    let line := ascii "$a b" ++ [0]
    (job.length = bufferSize ∧ strlen job < bufferSize ∧ strlen line < maxLineLength) ∧
      (⟨128, 129⟩ ∈ (getCommandSpans [] job).job ∧
        ¬ Inside bufferSize (getCommandSpans [] job).job) ∧
      ⟨3, 256⟩ ∈ (VariableBuffers.mk [] []).shiftSpans maxLineLength line ∧
        ¬ Inside maxLineLength ((VariableBuffers.mk [] []).shiftSpans maxLineLength line) := by
  intro job line
  have hread : ⟨128, 129⟩ ∈ (getCommandSpans [] job).job := by decide +kernel
  have hmoved : ⟨3, 256⟩ ∈ (VariableBuffers.mk [] []).shiftSpans maxLineLength line := by decide
  refine ⟨by decide +kernel, ⟨hread, fun hinside => ?_⟩, hmoved, fun hinside => ?_⟩
  · exact absurd (Span.within_iff.mp (hinside _ hread)) (by decide)
  · exact absurd (Span.within_iff.mp (hinside _ hmoved)) (by decide)

end EasyForetell
