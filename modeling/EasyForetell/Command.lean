import EasyForetell.Action
import EasyForetell.SocketCallback

/-!
# Commands (queral.c, get_command and the UPDATE branch)

A worker takes a job apart into a command and its argument, in place. For an UPDATE
it writes one CACHE command per page to the FIFO, all of them built in the same
buffer.

## Main results

* `getCommand_of_space`, `getCommand_of_no_space`: the command and the argument by
  what the trimmed job is
* `get_command_grammar`: the lines that `get_command` accepts
* `UpdateLoop.next_of_fits`, `UpdateLoop.Ready.cstr_built`: what the UPDATE branch writes
  for a page
-/

namespace EasyForetell

open Memory

/-! ### get_command -/

/-- `FETCH`, `CACHE`, `UPDATE` and `UNDEFINED`. -/
inductive Command
  | fetch
  | cache
  | update
  | undefined
  deriving DecidableEq

/-- `FETCH_COMMAND`. -/
def fetchCommand : List UInt8 := ascii "FETCH"

/-- `CACHE_COMMAND`. -/
def cacheCommand : List UInt8 := ascii "CACHE"

/-- `UPDATE_COMMAND`. -/
def updateCommand : List UInt8 := ascii "UPDATE"

/-- `' '`. -/
def space : UInt8 := 32

/-- `memmove (job, strim (job), job_length)`. -/
def trimJob (job : Block) (jobLength : ℕ) : Block :=
  let trimmed := strim job
  memmove trimmed.1 trimmed.2 jobLength

/-- Redefine the job: move what stands behind the command to the front and trim it. -/
def redefineJob (job : Block) (commandLength : ℕ) : Block :=
  let jobLength := strlen (job.drop (commandLength - 1))
  let job := memmove job (commandLength - 1) jobLength
  trimJob (store job jobLength [0]) jobLength

/-- What `get_command` returns and leaves in its buffers. -/
structure CommandResult where
  res : Command
  command : Block
  job : Block

/-- `get_command`. -/
def getCommand (command job : Block) : CommandResult :=
  let job := trimJob job (strlen job)
  match strchr job space with
  | none => ⟨.undefined, command, job⟩
  | some found =>
    let commandLength := strlen job - strlen (job.drop found) + 1
    let command := store (strncpy command job commandLength) (commandLength - 1) [0]
    if cstr command = fetchCommand then ⟨.fetch, command, redefineJob job commandLength⟩
    else if cstr command = cacheCommand then ⟨.cache, command, redefineJob job commandLength⟩
    else if cstr command = updateCommand then ⟨.update, command, redefineJob job commandLength⟩
    else ⟨.undefined, command, job⟩

section GetCommand

variable {job : Block} {keyword rest : List UInt8}

theorem cstr_trimJob (job : Block) (hnul : (0 : UInt8) ∈ job) :
    cstr (trimJob job (strlen job)) = trim (cstr job) ∧
      (0 : UInt8) ∈ trimJob job (strlen job) :=
  cstr_memmove_strim hnul

/-- What follows the command, behind the move and the NUL stored after it. -/
theorem cstr_moved_argument (hjob : cstr job = keyword ++ rest) :
    strlen (job.drop keyword.length) = rest.length ∧
      cstr (store (memmove job keyword.length rest.length) rest.length [0]) = rest := by
  have hrest : cstr (job.drop keyword.length) = rest := by
    rw [cstr_drop (by rw [strlen, hjob, List.length_append]; omega), hjob, List.drop_left]
  have hlength : strlen (job.drop keyword.length) = rest.length := by rw [strlen, hrest]
  -- the move leaves the NUL behind, and the store puts one there
  have hfree : (0 : UInt8) ∉ rest := hrest ▸ nul_notMem_cstr _
  refine ⟨hlength, cstr_store_nul_of_take hfree ?_⟩
  rw [take_memmove (hlength ▸ strlen_le_length _), ← hlength, take_strlen, hrest]

/-- The argument is what follows the command, trimmed. -/
theorem cstr_redefineJob (hjob : cstr job = keyword ++ rest) :
    cstr (redefineJob job (keyword.length + 1)) = trim rest ∧
      (0 : UInt8) ∈ redefineJob job (keyword.length + 1) := by
  obtain ⟨hlength, hmoved⟩ := cstr_moved_argument hjob
  have htrimmed := cstr_trimJob
    (store (memmove job keyword.length rest.length) rest.length [0]) (mem_store (by simp))
  rw [strlen, hmoved] at htrimmed
  rw [redefineJob, Nat.add_sub_cancel, hlength]
  exact htrimmed

/-- At its first space a job is split: `command_length` counts the space, where the NUL goes. -/
theorem split_command (command : Block) (hjob : cstr job = keyword ++ space :: rest)
    (hspace : space ∉ keyword) :
    strchr job space = some keyword.length ∧
      strlen job - strlen (job.drop keyword.length) + 1 = keyword.length + 1 ∧
      cstr (store (strncpy command job (keyword.length + 1)) keyword.length [0]) = keyword := by
  have hlength : strlen job = keyword.length + (rest.length + 1) := by
    rw [strlen, hjob, List.length_append, List.length_cons]
  refine ⟨strchr_of_append hjob hspace, ?_, ?_⟩
  · rw [strlen_drop (by omega)]
    omega
  · have hfree : (0 : UInt8) ∉ keyword := fun h => nul_notMem_cstr job (by simp [hjob, h])
    refine cstr_store_nul_of_take hfree ?_
    rw [take_strncpy (Nat.le_succ _) (by omega), hjob, List.take_left]

/-- The command that a keyword stands for. -/
def Command.ofKeyword (keyword : List UInt8) : Command :=
  if keyword = fetchCommand then .fetch
  else if keyword = cacheCommand then .cache
  else if keyword = updateCommand then .update
  else .undefined

/-- A job without a space is undefined. -/
theorem getCommand_of_no_space (command : Block) (hnul : (0 : UInt8) ∈ job)
    (hspace : space ∉ trim (cstr job)) :
    (getCommand command job).res = .undefined ∧ (getCommand command job).command = command ∧
      cstr (getCommand command job).job = trim (cstr job) := by
  obtain ⟨htrim, -⟩ := cstr_trimJob job hnul
  rw [← htrim] at hspace ⊢
  rw [getCommand, strchr_eq_none_iff.mpr hspace]
  exact ⟨rfl, rfl, rfl⟩

/-- The text before the first space of a job is its command. A keyword leaves the
text behind it in the job; otherwise the job keeps its text. -/
theorem getCommand_of_space (command : Block) (hnul : (0 : UInt8) ∈ job)
    (hjob : trim (cstr job) = keyword ++ space :: rest) (hspace : space ∉ keyword) :
    (getCommand command job).res = .ofKeyword keyword ∧
      cstr (getCommand command job).command = keyword ∧
      (Command.ofKeyword keyword ≠ .undefined →
        cstr (getCommand command job).job = trim rest) ∧
      (Command.ofKeyword keyword = .undefined →
        cstr (getCommand command job).job = trim (cstr job)) := by
  obtain ⟨htrim, -⟩ := cstr_trimJob job hnul
  rw [← htrim] at hjob ⊢
  generalize hshifted : trimJob job (strlen job) = shifted at *
  obtain ⟨hfound, hcommandLength, hcommand⟩ := split_command command hjob hspace
  have hargument : cstr (redefineJob shifted (keyword.length + 1)) = trim rest := by
    rw [(cstr_redefineJob hjob).1, trim_cons_of_space (by decide)]
  rw [getCommand, hshifted]
  simp only [hfound, hcommandLength, Nat.add_sub_cancel, hcommand, Command.ofKeyword]
  split_ifs with hfetch hcache hupdate
  · exact ⟨rfl, hcommand, fun _ => hargument, nofun⟩
  · exact ⟨rfl, hcommand, fun _ => hargument, nofun⟩
  · exact ⟨rfl, hcommand, fun _ => hargument, nofun⟩
  · exact ⟨rfl, hcommand, fun h => absurd rfl h, fun _ => rfl⟩

/-- The result depends on the trimmed job only. -/
theorem getCommand_congr {command command' job' : Block} (hnul : (0 : UInt8) ∈ job)
    (hnul' : (0 : UInt8) ∈ job') (htrim : trim (cstr job') = trim (cstr job)) :
    (getCommand command' job').res = (getCommand command job).res ∧
      cstr (getCommand command' job').job = cstr (getCommand command job).job := by
  by_cases hspace : space ∈ trim (cstr job)
  · obtain ⟨keyword, rest, hjob, hfree⟩ := List.eq_append_cons_of_mem hspace
    obtain ⟨hres, -, hkeyword, hundefined⟩ := getCommand_of_space command hnul hjob hfree
    obtain ⟨hres', -, hkeyword', hundefined'⟩ :=
      getCommand_of_space command' hnul' (htrim.trans hjob) hfree
    refine ⟨hres'.trans hres.symm, ?_⟩
    by_cases hkind : Command.ofKeyword keyword = .undefined
    · rw [hundefined hkind, hundefined' hkind, htrim]
    · rw [hkeyword hkind, hkeyword' hkind]
  · obtain ⟨hres, -, hstring⟩ := getCommand_of_no_space command hnul hspace
    obtain ⟨hres', -, hstring'⟩ := getCommand_of_no_space command' hnul' (htrim ▸ hspace)
    exact ⟨hres'.trans hres.symm, by rw [hstring, hstring', htrim]⟩

end GetCommand

/-! ### The grammar of commands -/

/-- The keywords, and the commands they stand for. -/
def keywords : List (List UInt8 × Command) :=
  [(fetchCommand, .fetch), (cacheCommand, .cache), (updateCommand, .update)]

/-- A line with whitespace added: around it, or behind the space that follows its
keyword. -/
inductive Spaced : List UInt8 → List UInt8 → Prop
  | around {front line back : List UInt8} (hfront : ∀ c ∈ front, isspace c = true)
      (hback : ∀ c ∈ back, isspace c = true) : Spaced line (front ++ line ++ back)
  | inside {keyword : List UInt8} {kind : Command} (hkeyword : (keyword, kind) ∈ keywords)
      {front more : List UInt8} (hfront : ∀ c ∈ front, isspace c = true)
      (hmore : ∀ c ∈ more, isspace c = true) (rest : List UInt8) :
      Spaced (front ++ (keyword ++ space :: rest)) (front ++ (keyword ++ space :: (more ++ rest)))

section Grammar

variable {keyword rest : List UInt8} {kind : Command} {command job : Block}

theorem ofKeyword_of_mem (hkeyword : (keyword, kind) ∈ keywords) :
    Command.ofKeyword keyword = kind ∧ kind ≠ .undefined := by
  simp only [keywords, List.mem_cons, Prod.mk.injEq, List.not_mem_nil, or_false] at hkeyword
  rcases hkeyword with ⟨rfl, rfl⟩ | ⟨rfl, rfl⟩ | ⟨rfl, rfl⟩ <;> decide

theorem keyword_of_mem (hkeyword : (keyword, kind) ∈ keywords) :
    keyword ≠ [] ∧ space ∉ keyword ∧ Trimmed keyword := by
  simp only [keywords, List.mem_cons, Prod.mk.injEq, List.not_mem_nil, or_false] at hkeyword
  rcases hkeyword with ⟨rfl, rfl⟩ | ⟨rfl, rfl⟩ | ⟨rfl, rfl⟩ <;> decide

/-- Different keywords stand for different commands. -/
theorem eq_of_mem_keywords {first second : List UInt8} (hfirst : (first, kind) ∈ keywords)
    (hsecond : (second, kind) ∈ keywords) : first = second := by
  simp only [keywords, List.mem_cons, Prod.mk.injEq, List.not_mem_nil, or_false] at hfirst hsecond
  rcases hfirst with ⟨rfl, rfl⟩ | ⟨rfl, rfl⟩ | ⟨rfl, rfl⟩ <;> exact Eq.symm (by simpa using hsecond)

theorem ofKeyword_eq_undefined_iff :
    Command.ofKeyword keyword = .undefined ↔ ∀ kind, (keyword, kind) ∉ keywords := by
  unfold Command.ofKeyword
  split_ifs with hfetch hcache hupdate
  · exact iff_of_false nofun fun hnone => hnone .fetch (by simp [keywords, hfetch])
  · exact iff_of_false nofun fun hnone => hnone .cache (by simp [keywords, hcache])
  · exact iff_of_false nofun fun hnone => hnone .update (by simp [keywords, hupdate])
  · simp [keywords, hfetch, hcache, hupdate]

/-- Behind a keyword and a space a trimmed job has a text that is not blank. -/
theorem trim_argument_ne_nil (hjob : trim (cstr job) = keyword ++ space :: rest) :
    trim rest ≠ [] := by
  intro hblank
  have hall := trim_eq_nil_iff.mp hblank
  -- otherwise the job would end with whitespace
  have hlast : ∀ c ∈ space :: rest, isspace c = true := by
    intro c hc
    rcases List.mem_cons.mp hc with rfl | hc
    · decide
    · exact hall c hc
  have hagain : (trim (cstr job)).rdropWhile isspace = trim (cstr job) :=
    List.rdropWhile_idempotent _ _
  rw [hjob, rdropWhile_append, if_pos hlast] at hagain
  have hlength := congrArg List.length hagain
  have hprefix := (List.rdropWhile_prefix (l := keyword) isspace).length_le
  rw [List.length_append, List.length_cons] at hlength
  omega

/-- A keyword with a blank argument is trimmed to the keyword, any other argument only
loses the whitespace behind it. -/
theorem trim_keyword (hkeyword : (keyword, kind) ∈ keywords) {front : List UInt8}
    (hfront : ∀ c ∈ front, isspace c = true) (rest : List UInt8)
    [Decidable (∀ c ∈ rest, isspace c = true)] :
    trim (front ++ (keyword ++ space :: rest)) =
      if ∀ c ∈ rest, isspace c = true then keyword
      else keyword ++ space :: rest.rdropWhile isspace := by
  obtain ⟨hne, -, htrimmed⟩ := keyword_of_mem hkeyword
  have hstart : (keyword ++ space :: rest).dropWhile isspace = keyword ++ space :: rest := by
    rw [List.dropWhile_append, dropWhile_of_trimmed htrimmed, if_neg (by simpa using hne)]
  have hspace : (space :: rest).rdropWhile isspace =
      if ∀ c ∈ rest, isspace c = true then [] else space :: rest.rdropWhile isspace :=
    rdropWhile_append [space] rest
  have hblank : (∀ c ∈ space :: rest, isspace c = true) ↔ ∀ c ∈ rest, isspace c = true := by
    simp [show isspace space = true by decide]
  rw [trim, List.dropWhile_append_of_pos hfront, hstart, rdropWhile_append,
    rdropWhile_of_trimmed htrimmed, hspace]
  simp only [hblank]
  split_ifs <;> rfl

/-- Adding whitespace does not change the result. -/
theorem getCommand_of_spaced {command command' job' : Block} (hnul : (0 : UInt8) ∈ job)
    (hnul' : (0 : UInt8) ∈ job') (hspaced : Spaced (cstr job) (cstr job')) :
    (getCommand command' job').res = (getCommand command job).res ∧
      cstr (getCommand command' job').job = cstr (getCommand command job).job := by
  generalize hline : cstr job = line at hspaced
  generalize hline' : cstr job' = line' at hspaced
  cases hspaced with
  | around hfront hback =>
    refine getCommand_congr hnul hnul' ?_
    rw [hline', hline, trim_around hfront hback]
  | @inside keyword kind hkeyword front more hfront hmore rest =>
    have htrim := trim_keyword hkeyword hfront rest
    have htrim' := trim_keyword hkeyword hfront (more ++ rest)
    rw [← hline] at htrim
    rw [← hline'] at htrim'
    -- more blanks do not make an argument blank or stop it being so
    have hblank : (∀ c ∈ more ++ rest, isspace c = true) ↔ ∀ c ∈ rest, isspace c = true := by
      simp only [List.forall_mem_append]
      exact and_iff_right hmore
    simp only [hblank] at htrim'
    by_cases hrest : ∀ c ∈ rest, isspace c = true
    · -- a blank argument leaves the keyword alone in both lines
      rw [if_pos hrest] at htrim htrim'
      exact getCommand_congr hnul hnul' (htrim'.trans htrim.symm)
    · rw [if_neg hrest] at htrim htrim'
      obtain ⟨-, hfree, -⟩ := keyword_of_mem hkeyword
      obtain ⟨hkind, hdefined⟩ := ofKeyword_of_mem hkeyword
      obtain ⟨hres, -, hargument, -⟩ := getCommand_of_space command hnul htrim hfree
      obtain ⟨hres', -, hargument', -⟩ := getCommand_of_space command' hnul' htrim' hfree
      rw [← hkind] at hdefined
      refine ⟨hres'.trans hres.symm, ?_⟩
      -- the blanks in front of the argument are trimmed away with the rest
      have hmoved := @trim_around rest more [] hmore (List.forall_mem_nil _)
      rw [List.append_nil] at hmoved
      rw [hargument hdefined, hargument' hdefined, trim_rdropWhile, trim_rdropWhile, hmoved]

/-- What `get_command` returns names the keyword before the first space of the trimmed
job. -/
theorem getCommand_res_iff (command : Block) (hnul : (0 : UInt8) ∈ job)
    (hkeyword : (keyword, kind) ∈ keywords) :
    (getCommand command job).res = kind ↔ ∃ rest, trim (cstr job) = keyword ++ space :: rest := by
  obtain ⟨hkind, hdefined⟩ := ofKeyword_of_mem hkeyword
  obtain ⟨-, hfree, -⟩ := keyword_of_mem hkeyword
  constructor
  · intro hres
    by_cases hspace : space ∈ trim (cstr job)
    · obtain ⟨found, rest, hjob, hfound⟩ := List.eq_append_cons_of_mem hspace
      obtain ⟨hcommand, -⟩ := getCommand_of_space command hnul hjob hfound
      rw [hres] at hcommand
      -- different keywords stand for different commands
      have hsame : found = keyword := by
        have hmember : ∃ other, (found, other) ∈ keywords := by
          by_contra hnone
          refine hdefined (hcommand.trans (ofKeyword_eq_undefined_iff.mpr fun other hother => ?_))
          exact hnone ⟨other, hother⟩
        obtain ⟨other, hother⟩ := hmember
        obtain ⟨hkind', -⟩ := ofKeyword_of_mem hother
        obtain rfl : kind = other := hcommand.trans hkind'
        exact eq_of_mem_keywords hother hkeyword
      exact ⟨rest, hsame ▸ hjob⟩
    · exact absurd (hres.symm.trans (getCommand_of_no_space command hnul hspace).1) hdefined
  · rintro ⟨rest, hjob⟩
    exact (getCommand_of_space command hnul hjob hfree).1.trans hkind

end Grammar

/-- `get_command` accepts exactly a keyword followed by a space: then the job holds the
text behind the keyword, trimmed and not empty. Everything else is undefined and only
trimmed. Whitespace added around the line or behind the space changes nothing. -/
theorem get_command_grammar (command job : Block) (hnul : (0 : UInt8) ∈ job) :
    (∀ keyword kind, (keyword, kind) ∈ keywords →
      ((getCommand command job).res = kind ↔
        ∃ rest, trim (cstr job) = keyword ++ space :: rest)) ∧
      (∀ keyword kind rest, (keyword, kind) ∈ keywords →
        trim (cstr job) = keyword ++ space :: rest →
          cstr (getCommand command job).job = trim rest ∧ trim rest ≠ []) ∧
      ((∀ keyword kind rest, (keyword, kind) ∈ keywords →
        trim (cstr job) ≠ keyword ++ space :: rest) →
          (getCommand command job).res = .undefined ∧
            cstr (getCommand command job).job = trim (cstr job)) ∧
      ∀ command' job', (0 : UInt8) ∈ job' → Spaced (cstr job) (cstr job') →
        (getCommand command' job').res = (getCommand command job).res ∧
          cstr (getCommand command' job').job = cstr (getCommand command job).job := by
  refine ⟨fun keyword kind hkeyword => getCommand_res_iff command hnul hkeyword, ?_, ?_,
    fun command' job' hnul' hspaced => getCommand_of_spaced hnul hnul' hspaced⟩
  · intro keyword kind rest hkeyword hjob
    obtain ⟨hkind, hdefined⟩ := ofKeyword_of_mem hkeyword
    obtain ⟨-, hfree, -⟩ := keyword_of_mem hkeyword
    obtain ⟨-, -, hargument, -⟩ := getCommand_of_space command hnul hjob hfree
    exact ⟨hargument (hkind ▸ hdefined), trim_argument_ne_nil hjob⟩
  · intro hnone
    by_cases hspace : space ∈ trim (cstr job)
    · obtain ⟨keyword, rest, hjob, hfree⟩ := List.eq_append_cons_of_mem hspace
      -- a word that is no keyword
      obtain ⟨hres, -, -, hundefined⟩ := getCommand_of_space command hnul hjob hfree
      have hkind : Command.ofKeyword keyword = .undefined :=
        ofKeyword_eq_undefined_iff.mpr fun kind hkeyword => hnone keyword kind rest hkeyword hjob
      exact ⟨hres.trans hkind, hundefined hkind⟩
    · obtain ⟨hres, -, hstring⟩ := getCommand_of_no_space command hnul hspace
      exact ⟨hres, hstring⟩

/-- A line with blanks in all places. -/
theorem get_command_grammar_fetch :
    (getCommand [] (ascii "  FETCH   a b \t" ++ [0, 7])).res = .fetch ∧
      cstr (getCommand [] (ascii "  FETCH   a b \t" ++ [0, 7])).job = ascii "a b" := by
  obtain ⟨hres, hargument, -, -⟩ :=
    get_command_grammar [] (ascii "  FETCH   a b \t" ++ [0, 7]) (by decide)
  have hjob : trim (cstr (ascii "  FETCH   a b \t" ++ [0, 7])) =
      fetchCommand ++ space :: ascii "  a b" := by decide
  refine ⟨(hres fetchCommand .fetch (by decide)).mpr ⟨_, hjob⟩, ?_⟩
  rw [(hargument fetchCommand .fetch _ (by decide) hjob).1]
  decide

/-! ### write_fifo -/

/-- How opening the FIFO and writing to it go. -/
inductive FifoAccess
  | unopened
  | failed
  | wrote (count : ℕ)

/-- `write_fifo`: the bytes in the FIFO, the value returned and the messages. -/
def writeFifo (fifoFilename : Block) (access : FifoAccess) (fifo : List UInt8) (str : Block) :
    List UInt8 × ℤ × List LogMessage :=
  let failure : LogMessage :=
    ⟨.error, ascii "Failed to write on socket: '" ++ cstr fifoFilename ++ ascii "'"⟩
  match access with
  | .unopened => (fifo, -1,
      [⟨.error, ascii "Failed to open socket for writing: '" ++ cstr fifoFilename ++ ascii "'"⟩])
  | .failed => (fifo, -1, [failure])
  | .wrote count =>
    if count = strlen str then (fifo ++ (cstr str).take count, 0, [])
    else (fifo ++ (cstr str).take count, -1, [failure])

/-- An atomic write puts the whole string behind what is in the FIFO. -/
theorem writeFifo_of_whole (fifoFilename : Block) (fifo : List UInt8) (str : Block) :
    writeFifo fifoFilename (.wrote (strlen str)) fifo str = (fifo ++ cstr str, 0, []) := by
  rw [writeFifo, if_pos rfl, strlen, List.take_length]

/-! ### The UPDATE branch -/

/-- `action->refresh_list[i]`, while `i < action->count`. -/
def Action.refresh (action : Action) (i : ℕ) : Option Block :=
  if i < action.count then (action.refreshList.getD [])[i]?.join else none

/-- The local variables of the UPDATE branch: `i`, `length1` and `new_command`. -/
structure UpdateLoop where
  index : ℕ
  length1 : ℕ
  newCommand : Block

/-- What an iteration does: write a command or log a message. -/
inductive UpdateOutput
  | command (str : Block)
  | message (log : LogMessage)

/-- The UPDATE branch before its loop, with what `new_command` held before. -/
def UpdateLoop.start (newCommand : Block) : UpdateLoop :=
  let newCommand := strcat (strcpy newCommand cacheCommand) [space]
  ⟨0, strlen newCommand, newCommand⟩

/-- An iteration of the UPDATE branch, unless its loop is over. -/
def UpdateLoop.next (action : Action) (loop : UpdateLoop) : Option (UpdateLoop × UpdateOutput) :=
  match action.refresh loop.index with
  | none => none
  | some url =>
    let newCommand := store loop.newCommand loop.length1 [0]
    let length2 := strlen url
    if loop.length1 + length2 + 1 ≤ bufferSize then
      let newCommand := strcat (strncat newCommand url length2) [newline]
      some ({ loop with index := loop.index + 1, newCommand }, .command newCommand)
    else
      some ({ loop with index := loop.index + 1, newCommand },
        .message ⟨.error, ascii "Maximum buffer length exceeded: '" ++
          ascii (toString bufferSize) ++ ascii "'"⟩)

/-- `new_command` with a page, as an iteration builds it. -/
def UpdateLoop.built (loop : UpdateLoop) (url : Block) : Block :=
  strcat (strncat (store loop.newCommand loop.length1 [0]) url (strlen url)) [newline]

/-- Between two iterations `new_command` starts with the command and a space, whatever
was built behind them. -/
structure UpdateLoop.Ready (loop : UpdateLoop) : Prop where
  length1_eq : loop.length1 = (cacheCommand ++ [space]).length
  command : cacheCommand ++ [space] <+: cstr loop.newCommand

section Update

variable {action : Action} {loop loop' : UpdateLoop} {output : UpdateOutput} {url : Block}

theorem UpdateLoop.ready_start (newCommand : Block) : (UpdateLoop.start newCommand).Ready := by
  have hstring : cstr (strcat (strcpy newCommand cacheCommand) [space]) =
      cacheCommand ++ [space] := by
    rw [cstr_strcat, cstr_strcpy, cstr_of_nulFree (by decide), cstr_of_nulFree (by decide)]
  exact ⟨by rw [start, strlen, hstring], by rw [start, hstring]⟩

/-- The NUL of an iteration cuts off the page of the one before. -/
theorem UpdateLoop.Ready.cstr_cut (hready : loop.Ready) :
    cstr (store loop.newCommand loop.length1 [0]) = cacheCommand ++ [space] := by
  obtain ⟨hlength1, hcommand⟩ := hready
  rw [cstr_store_nul (by rw [hlength1]; exact hcommand.length_le), hlength1]
  exact (List.prefix_iff_eq_take.mp hcommand).symm

/-- An iteration builds the command of its page, and the buffer is ready for the next. -/
theorem UpdateLoop.Ready.cstr_built (hready : loop.Ready) (url : Block) :
    cstr (loop.built url) = cacheCommand ++ [space] ++ cstr url ++ [newline] ∧
      UpdateLoop.Ready { loop with index := loop.index + 1, newCommand := loop.built url } := by
  have hnewline : cstr [newline] = [newline] := cstr_of_nulFree (by decide)
  have hstring : cstr (loop.built url) = cacheCommand ++ [space] ++ cstr url ++ [newline] := by
    rw [built, cstr_strcat, cstr_strncat, hready.cstr_cut, strlen, List.take_length, hnewline]
  refine ⟨hstring, hready.length1_eq, ?_⟩
  rw [hstring, List.append_assoc]
  exact List.prefix_append _ _

/-- A page for which there is room is written as one command. -/
theorem UpdateLoop.next_of_fits (hurl : action.refresh loop.index = some url)
    (hfits : loop.length1 + strlen url + 1 ≤ bufferSize) :
    loop.next action = some ({ loop with index := loop.index + 1, newCommand := loop.built url },
      .command (loop.built url)) := by
  simp only [next, hurl, if_pos hfits, built]

end Update

end EasyForetell
