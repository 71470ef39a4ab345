import EasyForetell.MainSettings

/-!
# The command line (queral.c, main)

Before it reads any configuration `main` goes through its arguments, with a flag for the one
that follows `-f`, whatever it looks like. What the arguments say is here a derivation: each
of them is an option, the value of one, or nothing that `main` knows.

The value of `-f` is copied into `config_filename` at once and without a look at its length,
so a value that is too long does harm even where another `-f` comes behind it.

## Main results

* `existsUnique_reads`: a command line can be read in one way only
* `optionLoop_of_reads`: the loop of `main` does what that says
* `command_line_exact`: what the options are, and when the copies stay in the array
-/

namespace EasyForetell

open Memory

/-- `config_filename` and `verbose` of `main`. -/
structure Options where
  configFilename : Block
  verbose : Bool

/-- What the loop over the arguments leaves, and whether it ended in `usage` and `exit_`. -/
structure OptionsResult where
  options : Options
  exited : Bool
  logs : List LogMessage

/-- `usage`. -/
def usageMessage (program : Block) : LogMessage :=
  ⟨.info, ascii "Usage: " ++ cstr program ++ ascii " [-f config] [-v]"⟩

/-- The message of `exit_`. -/
def terminatedMessage (exitCode : ℕ) : LogMessage :=
  ⟨.notice, ascii "Terminated with status " ++ ascii (toString exitCode)⟩

/-- The loop of `main` over the arguments behind the name of the program. -/
def optionLoop (program : Block) : Bool → List Block → Options → OptionsResult
  | _, [], options => ⟨options, false, []⟩
  | true, _ :: rest, options => optionLoop program false rest options
  | false, arg :: rest, options =>
    if cstr arg = ascii "-v" then optionLoop program false rest { options with verbose := true }
    else if cstr arg = ascii "-f" then
      match rest with
      | value :: _ => optionLoop program true rest
          { options with configFilename := strcpy options.configFilename value }
      | [] => ⟨options, true, [usageMessage program, terminatedMessage 1]⟩
    else optionLoop program false rest options

/-- The part of `main` that reads the arguments; `raw` is the array as it is on the stack. -/
def loadOptions (program raw : Block) (args : List Block) : OptionsResult :=
  optionLoop program false args ⟨strcpy raw (ascii "/etc/queral.conf"), false⟩

/-- What an argument says, with the one behind it where that belongs to it. -/
inductive CommandOption
  | verbose
  | configFile (filename : List UInt8)
  | ignored (arg : List UInt8)
  deriving DecidableEq

/-- How arguments are read, and whether the last of them is a `-f` without a value. -/
inductive Reads : List (List UInt8) → List CommandOption → Bool → Prop
  | nil : Reads [] [] false
  | dangling : Reads [ascii "-f"] [] true
  | verbose {args : List (List UInt8)} {items : List CommandOption} {dangling : Bool}
      (hrest : Reads args items dangling) : Reads (ascii "-v" :: args) (.verbose :: items) dangling
  | configFile (filename : List UInt8) {args : List (List UInt8)} {items : List CommandOption}
      {dangling : Bool} (hrest : Reads args items dangling) :
      Reads (ascii "-f" :: filename :: args) (.configFile filename :: items) dangling
  | ignored {arg : List UInt8} (hverbose : arg ≠ ascii "-v") (hfile : arg ≠ ascii "-f")
      {args : List (List UInt8)} {items : List CommandOption} {dangling : Bool}
      (hrest : Reads args items dangling) : Reads (arg :: args) (.ignored arg :: items) dangling

/-- The values of `-f`, in their order. -/
def configFilenames (items : List CommandOption) : List (List UInt8) :=
  items.filterMap fun
    | .configFile filename => some filename
    | .verbose | .ignored _ => none

/-- What an option does to the variables of `main`. -/
def CommandOption.apply (options : Options) : CommandOption → Options
  | .verbose => { options with verbose := true }
  | .configFile filename =>
    { options with configFilename := store options.configFilename 0 (filename ++ [0]) }
  | .ignored _ => options

section Reading

variable {args : List (List UInt8)} {items items' : List CommandOption} {dangling dangling' : Bool}

/-! ### One way to read a command line -/

theorem verbose_ne_file : ascii "-v" ≠ ascii "-f" := by decide

theorem exists_reads (args : List (List UInt8)) : ∃ items dangling, Reads args items dangling := by
  induction hlength : args.length using Nat.strongRecOn generalizing args with
  | ind n ih =>
    cases args with
    | nil => exact ⟨_, _, .nil⟩
    | cons arg rest =>
      have hrest := ih rest.length (by simp [← hlength]) rest rfl
      by_cases hverbose : arg = ascii "-v"
      · obtain ⟨items, dangling, hreads⟩ := hrest
        subst hverbose
        exact ⟨_, _, .verbose hreads⟩
      by_cases hfile : arg = ascii "-f"
      · -- the next argument is its value, whatever it is
        subst hfile
        cases rest with
        | nil => exact ⟨_, _, .dangling⟩
        | cons filename more =>
          have hless : more.length < n := by
            rw [← hlength, List.length_cons, List.length_cons]
            omega
          obtain ⟨items, dangling, hreads⟩ := ih more.length hless more rfl
          exact ⟨_, _, .configFile filename hreads⟩
      · obtain ⟨items, dangling, hreads⟩ := hrest
        exact ⟨_, _, .ignored hverbose hfile hreads⟩

theorem Reads.unique (h : Reads args items dangling) (h' : Reads args items' dangling') :
    items' = items ∧ dangling' = dangling := by
  induction h generalizing items' dangling' with
  | nil =>
    cases h'
    exact ⟨rfl, rfl⟩
  | dangling =>
    generalize hfirst : ascii "-f" = first at h'
    cases h' with
    | dangling => exact ⟨rfl, rfl⟩
    | verbose hrest => exact absurd hfirst.symm verbose_ne_file
    | ignored hverbose hfile hrest => exact absurd hfirst.symm hfile
  | verbose _ ih =>
    generalize hfirst : ascii "-v" = first at h'
    cases h' with
    | dangling => exact absurd hfirst verbose_ne_file
    | verbose hrest =>
      obtain ⟨rfl, rfl⟩ := ih hrest
      exact ⟨rfl, rfl⟩
    | configFile filename hrest => exact absurd hfirst verbose_ne_file
    | ignored hverbose hfile hrest => exact absurd hfirst.symm hverbose
  | configFile filename _ ih =>
    generalize hfirst : ascii "-f" = first at h'
    cases h' with
    | verbose hrest => exact absurd hfirst.symm verbose_ne_file
    | configFile filename hrest =>
      obtain ⟨rfl, rfl⟩ := ih hrest
      exact ⟨rfl, rfl⟩
    | ignored hverbose hfile hrest => exact absurd hfirst.symm hfile
  | ignored hverbose hfile _ ih =>
    cases h' with
    | dangling => exact absurd rfl hfile
    | verbose hrest => exact absurd rfl hverbose
    | configFile filename hrest => exact absurd rfl hfile
    | ignored _ _ hrest =>
      obtain ⟨rfl, rfl⟩ := ih hrest
      exact ⟨rfl, rfl⟩

/-- A command line can be read in one way only. -/
theorem existsUnique_reads (args : List (List UInt8)) :
    ∃! reading : List CommandOption × Bool, Reads args reading.1 reading.2 := by
  obtain ⟨items, dangling, hreads⟩ := exists_reads args
  refine ⟨(items, dangling), hreads, fun reading hreading => ?_⟩
  obtain ⟨hitems, hdangling⟩ := hreads.unique hreading
  exact Prod.ext hitems hdangling

end Reading

/-! ### What the loop does -/

theorem optionLoop_of_verbose {program arg : Block} (harg : cstr arg = ascii "-v")
    (rest : List Block) (options : Options) :
    optionLoop program false (arg :: rest) options =
      optionLoop program false rest { options with verbose := true } := by
  cases rest <;> exact if_pos harg

theorem optionLoop_of_ignored {program arg : Block} (hverbose : cstr arg ≠ ascii "-v")
    (hfile : cstr arg ≠ ascii "-f") (rest : List Block) (options : Options) :
    optionLoop program false (arg :: rest) options = optionLoop program false rest options := by
  cases rest <;> exact (if_neg hverbose).trans (if_neg hfile)

/-- The loop applies the options that the arguments stand for, one after the other. -/
theorem optionLoop_of_reads (program : Block) {args : List Block} {items : List CommandOption}
    {dangling : Bool} (hreads : Reads (args.map cstr) items dangling) (options : Options) :
    optionLoop program false args options =
      ⟨items.foldl CommandOption.apply options, dangling,
        if dangling then [usageMessage program, terminatedMessage 1] else []⟩ := by
  generalize hline : args.map cstr = line at hreads
  induction hreads generalizing args options with
  | nil =>
    obtain rfl := List.map_eq_nil_iff.mp hline
    rfl
  | dangling =>
    obtain ⟨arg, rest, rfl, harg, hrest⟩ := List.map_eq_cons_iff.mp hline
    obtain rfl := List.map_eq_nil_iff.mp hrest
    rw [optionLoop, harg, if_neg verbose_ne_file.symm, if_pos rfl]
    rfl
  | verbose _ ih =>
    obtain ⟨arg, rest, rfl, harg, hrest⟩ := List.map_eq_cons_iff.mp hline
    rw [optionLoop_of_verbose harg, ih _ hrest]
    rfl
  | configFile filename _ ih =>
    obtain ⟨arg, rest, rfl, harg, hrest⟩ := List.map_eq_cons_iff.mp hline
    obtain ⟨value, more, rfl, rfl, hmore⟩ := List.map_eq_cons_iff.mp hrest
    -- the value is copied at once, and then skipped
    rw [optionLoop, harg, if_neg verbose_ne_file.symm, if_pos rfl, optionLoop, ih _ hmore]
    rfl
  | ignored hverbose hfile _ ih =>
    obtain ⟨arg, rest, rfl, rfl, hrest⟩ := List.map_eq_cons_iff.mp hline
    rw [optionLoop_of_ignored hverbose hfile, ih _ hrest]
    rfl

section Options

variable {items : List CommandOption} {options : Options}

theorem verbose_foldl (items : List CommandOption) (options : Options) :
    (items.foldl CommandOption.apply options).verbose = true ↔
      options.verbose = true ∨ .verbose ∈ items := by
  induction items generalizing options with
  | nil => simp
  | cons item items ih =>
    rw [List.foldl_cons, ih]
    cases item <;> simp [CommandOption.apply]

/-- The name that is left is the last one copied. -/
theorem configFilename_foldl (hfree : ∀ filename ∈ configFilenames items, (0 : UInt8) ∉ filename) :
    cstr (items.foldl CommandOption.apply options).configFilename =
      (configFilenames items).getLastD (cstr options.configFilename) := by
  induction items generalizing options with
  | nil => rfl
  | cons item items ih =>
    cases item with
    | verbose | ignored arg => exact ih hfree
    | configFile filename =>
      obtain ⟨hfirst, hrest⟩ := List.forall_mem_cons.mp
        (show ∀ other ∈ filename :: configFilenames items, (0 : UInt8) ∉ other from hfree)
      have hcopied : cstr (store options.configFilename 0 (filename ++ [0])) = filename := by
        rw [cstr_store_zero (by simp)]
        exact cstr_append_nul hfirst
      have hnames : configFilenames (.configFile filename :: items) =
          filename :: configFilenames items := rfl
      rw [List.foldl_cons, ih hrest, hnames, List.getLastD_cons, CommandOption.apply, hcopied]

/-- Every copy has to fit, whatever is copied over it later. -/
theorem length_foldl_le_iff (items : List CommandOption) (options : Options) (size : ℕ) :
    (items.foldl CommandOption.apply options).configFilename.length ≤ size ↔
      options.configFilename.length ≤ size ∧
        ∀ filename ∈ configFilenames items, filename.length < size := by
  induction items generalizing options with
  | nil => simp [configFilenames]
  | cons item items ih =>
    rw [List.foldl_cons, ih]
    cases item with
    | verbose | ignored arg => exact Iff.rfl
    | configFile filename =>
      have hnames : configFilenames (.configFile filename :: items) =
          filename :: configFilenames items := rfl
      rw [hnames, List.forall_mem_cons, CommandOption.apply, length_store (Nat.zero_le _),
        List.length_append, List.length_singleton, Nat.max_le, Nat.zero_add, Nat.succ_le_iff,
        and_assoc]

end Options

theorem nulFree_of_reads {line : List (List UInt8)} {items : List CommandOption} {dangling : Bool}
    (hreads : Reads line items dangling) (hfree : ∀ arg ∈ line, (0 : UInt8) ∉ arg) :
    ∀ filename ∈ configFilenames items, (0 : UInt8) ∉ filename := by
  induction hreads with
  | nil | dangling => exact fun _ hmem => absurd hmem List.not_mem_nil
  | verbose _ ih | ignored _ _ _ ih => exact ih (List.forall_mem_cons.mp hfree).2
  | configFile filename _ ih =>
    obtain ⟨-, hrest⟩ := List.forall_mem_cons.mp hfree
    obtain ⟨hfirst, hmore⟩ := List.forall_mem_cons.mp hrest
    exact List.forall_mem_cons.mpr ⟨hfirst, ih hmore⟩

/-- Every command line can be read in exactly one way, and `main` reads it so: it ends in
`usage` exactly where the last `-f` has no value, and otherwise goes on with the value of the
last `-f`, or the default, as the name of its configuration. The copies stay in
`config_filename` exactly when each value of a `-f` is shorter than the array, those included
that are not used in the end. -/
theorem command_line_exact (program raw : Block) (hraw : raw.length = pathMax) (args : List Block) :
    ∃ items dangling, Reads (args.map cstr) items dangling ∧
      (∀ items' dangling', Reads (args.map cstr) items' dangling' →
        items' = items ∧ dangling' = dangling) ∧
      (loadOptions program raw args).exited = dangling ∧
      (loadOptions program raw args).logs =
        (if dangling then [usageMessage program, terminatedMessage 1] else []) ∧
      ((loadOptions program raw args).options.verbose = true ↔ .verbose ∈ items) ∧
      cstr (loadOptions program raw args).options.configFilename =
        (configFilenames items).getLastD (ascii "/etc/queral.conf") ∧
      ((loadOptions program raw args).options.configFilename.length ≤ pathMax ↔
        ∀ filename ∈ configFilenames items, filename.length < pathMax) := by
  obtain ⟨⟨items, dangling⟩, hreads, -⟩ := existsUnique_reads (args.map cstr)
  have hloop := optionLoop_of_reads program hreads ⟨strcpy raw (ascii "/etc/queral.conf"), false⟩
  have hfree : ∀ filename ∈ configFilenames items, (0 : UInt8) ∉ filename := by
    refine nulFree_of_reads hreads fun arg hmem => ?_
    obtain ⟨block, -, rfl⟩ := List.mem_map.mp hmem
    exact nul_notMem_cstr block
  have hdefault : cstr (ascii "/etc/queral.conf") = ascii "/etc/queral.conf" := by decide
  refine ⟨items, dangling, hreads, fun _ _ h' => hreads.unique h', ?_⟩
  rw [loadOptions, hloop]
  refine ⟨rfl, rfl, ?_, ?_, ?_⟩
  · rw [verbose_foldl]
    exact or_iff_right Bool.false_ne_true
  · rw [configFilename_foldl hfree, cstr_strcpy, hdefault]
  · rw [length_foldl_le_iff, length_strcpy, hraw, strlen, hdefault]
    exact and_iff_right (by decide)

/-- A value that fills the array runs over it, though another one takes its place. -/
theorem command_line_exact_overrun :
    let result := loadOptions (ascii "queral" ++ [0]) (List.replicate pathMax 0)
      [ascii "-f" ++ [0], List.replicate pathMax 97 ++ [0], ascii "-f" ++ [0], ascii "x" ++ [0]]
    result.exited = false ∧ cstr result.options.configFilename = ascii "x" ∧
      pathMax < result.options.configFilename.length := by
  intro result
  have hlong : cstr (List.replicate pathMax 97 ++ [0]) = List.replicate pathMax 97 :=
    cstr_append_nul fun hmem => absurd (List.eq_of_mem_replicate hmem) (by decide)
  have hflag : cstr (ascii "-f" ++ [0]) = ascii "-f" := by decide
  have hshort : cstr (ascii "x" ++ [0]) = ascii "x" := by decide
  have hreads : Reads ([ascii "-f" ++ [0], List.replicate pathMax 97 ++ [0], ascii "-f" ++ [0],
      ascii "x" ++ [0]].map cstr)
      [.configFile (List.replicate pathMax 97), .configFile (ascii "x")] false := by
    simp only [List.map_cons, List.map_nil, hflag, hlong, hshort]
    exact .configFile _ (.configFile _ .nil)
  obtain ⟨items, dangling, -, hunique, hexited, -, -, hname, hfits⟩ :=
    command_line_exact (ascii "queral" ++ [0]) (List.replicate pathMax 0) List.length_replicate
      [ascii "-f" ++ [0], List.replicate pathMax 97 ++ [0], ascii "-f" ++ [0], ascii "x" ++ [0]]
  obtain ⟨rfl, rfl⟩ := hunique _ _ hreads
  refine ⟨hexited, hname, Nat.lt_of_not_le fun hle => ?_⟩
  have hless := hfits.mp hle (List.replicate pathMax 97) List.mem_cons_self
  rw [List.length_replicate] at hless
  exact Nat.lt_irrefl _ hless

end EasyForetell
