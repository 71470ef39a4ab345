import EasyForetell.ActionTable
import EasyForetell.Memory.Access

/-!
# The accesses to the action table (action.c)

`create_actions` allocates one slot for every include file and writes the first. Each
file that declares a name stores its action in its own slot and looks at the next one,
which no call has written, and which the last file does not have. The scans need a NULL
behind the actions, and there is no slot for it when all files load.

What `malloc` left in a slot, and what stands behind the table, may be NULL or not.

## Main results

* `table_accesses_sound_iff`: when no access leaves the table or reads an unwritten slot
-/

namespace EasyForetell

open Memory

/-- A slot is not NULL, with what stands where nothing was stored. -/
def slotHolds (leftover : ℕ → Bool) (actions : List Slot) (index : ℕ) : Bool :=
  match actions[index]? with
  | some (.action _) => true
  | some .null => false
  | some .uninitialised => leftover index
  | none => leftover index

/-- The accesses of `load_action`. -/
def loadActionAccesses (leftover : ℕ → Bool) (allocates : Allocations) (actions : List Slot)
    (includeFile : IncludeFile) (index : ℕ) (version : Block) : List Access :=
  let registers := .write index :: .read (index + 1) ::
    ((if slotHolds leftover actions (index + 1) then [.write (index + 1)] else []) ++
      [.read index])
  match loadOutcome version includeFile allocates with
  | .early => []
  | .late _ => registers
  -- the refresh list and its count
  | .loaded _ => registers ++ [.read index, .read index]

/-- The accesses of `find_action`, from an index on. It ends at a NULL, and whatever it
does with a pointer that was never written or stands behind the table comes too late. -/
def findActionAccesses (name : Block) : List Slot → ℕ → List Access
  | .action a :: actions, index =>
    [.read index, .read index] ++
      if cstr a.name = cstr name then [.read index] else findActionAccesses name actions (index + 1)
  | _, index => [.read index]

/-- The accesses of `destroy_actions`, from an index on. -/
def destroyActionsAccesses : List Slot → ℕ → List Access
  | .action _ :: actions, index =>
    [.read index, .read index, .read index, .read index] ++ destroyActionsAccesses actions (index + 1)
  | _, index => [.read index]

/-- The accesses of the loop of `main` over the include files, from an index on. -/
def loadFilesAccesses (leftover : ℕ → Bool) (calls : ℕ) (version : Block) :
    List (IncludeFile × Allocations) → ℕ → List Slot → List Access
  | [], _, _ => []
  | (includeFile, allocates) :: files, index, actions =>
    loadActionAccesses leftover allocates actions includeFile index version ++
      match loadAction calls allocates actions includeFile index version with
      | none => []
      | some result => loadFilesAccesses leftover calls version files (index + 1) result.actions

/-- The accesses of a run of the daemon: `create_actions`, the loop of `main`, the names
the workers look up, and `destroy_actions` if the daemon gets there. -/
def tableAccesses (leftover : ℕ → Bool) (calls : ℕ) (version : Block)
    (files : List (IncludeFile × Allocations)) (names : List Block) (destroyed : Bool) :
    List Access :=
  match createActions files.length with
  | none => []
  | some fresh =>
    .write 0 :: (loadFilesAccesses leftover calls version files 0 fresh ++
      match loadFiles calls version files 0 fresh with
      | none => []
      | some table =>
        names.flatMap (findActionAccesses · table 0) ++
          if destroyed then destroyActionsAccesses table 0 else [])

section Loads

variable {leftover : ℕ → Bool} {calls : ℕ} {version : Block}
  {files : List (IncludeFile × Allocations)}

/-- A file that fails early is done with after its checks. -/
theorem exists_loadAction_of_early {allocates : Allocations} {includeFile : IncludeFile}
    (hearly : loadOutcome version includeFile allocates = .early) (calls : ℕ)
    (actions : List Slot) (index : ℕ) :
    ∃ result, loadAction calls allocates actions includeFile index version = some result ∧
      result.actions = actions ∧ result.res = 0 := by
  have hreturns : ∃ result,
      loadAction calls allocates actions includeFile index version = some result := by
    cases includeFile with
    | broken message => exact ⟨_, rfl⟩
    | parsed cfg =>
      simp only [loadOutcome, loadAction, loadConfig] at hearly ⊢
      by_cases hversion : (checkVersion cfg version).1 = -1
      · rw [if_pos hversion]
        exact ⟨_, rfl⟩
      · rw [if_neg hversion] at hearly ⊢
        rcases hname : readString cfg.cacheName "cache.name" argumentMaxLength with
          ⟨_ | name, logs⟩
        · exact ⟨_, rfl⟩
        · -- a name was read, and the file fails late or loads
          rw [hname] at hearly
          dsimp only at hearly
          split_ifs at hearly
  obtain ⟨result, hresult⟩ := hreturns
  exact ⟨result, hresult, loadAction_of_early hearly hresult⟩

/-- A file that declares a name reads the slot behind its own. -/
theorem loadActionAccesses_of_not_early {allocates : Allocations} {includeFile : IncludeFile}
    (hdeclared : loadOutcome version includeFile allocates ≠ .early) (leftover : ℕ → Bool)
    (actions : List Slot) (index : ℕ) :
    ∃ rest, loadActionAccesses leftover allocates actions includeFile index version =
      .write index :: .read (index + 1) :: rest := by
  unfold loadActionAccesses
  cases houtcome : loadOutcome version includeFile allocates with
  | early => exact absurd houtcome hdeclared
  | late name => exact ⟨_, rfl⟩
  | loaded name => exact ⟨_, rfl⟩

/-- When nothing behind the slot of the next file was written, the accesses of the loop
are sound only if all files fail early. -/
theorem early_of_sound {size index : ℕ} {written : List ℕ} {actions : List Slot}
    {later : List Access} (hwritten : ∀ j ∈ written, j ≤ index)
    (hsound : Sound size written
      (loadFilesAccesses leftover calls version files index actions ++ later)) :
    ∀ file ∈ files, loadOutcome version file.1 file.2 = .early := by
  induction files generalizing index actions with
  | nil => simp
  | cons file files ih =>
    by_cases hearly : loadOutcome version file.1 file.2 = .early
    · obtain ⟨result, hresult, hactions, -⟩ :=
        exists_loadAction_of_early hearly calls actions index
      have hnone : loadActionAccesses leftover file.2 actions file.1 index version = [] := by
        rw [loadActionAccesses, hearly]
      rw [loadFilesAccesses, hnone, hresult, List.nil_append] at hsound
      refine List.forall_mem_cons.mpr ⟨hearly, ih (fun j hj => ?_) hsound⟩
      exact (hwritten j hj).trans (Nat.le_succ index)
    · -- the slot behind that of the file is read
      obtain ⟨rest, haccesses⟩ := loadActionAccesses_of_not_early hearly leftover actions index
      rw [loadFilesAccesses, haccesses] at hsound
      obtain ⟨-, -, hread, -⟩ := hsound
      rcases List.mem_cons.mp hread with hself | hbefore
      · exact absurd hself (Nat.succ_ne_self index)
      · exact absurd (hwritten _ hbefore) (Nat.not_succ_le_self index)

/-- Files that all fail early do not touch the table. -/
theorem loadFilesAccesses_of_early
    (hearly : ∀ file ∈ files, loadOutcome version file.1 file.2 = .early)
    (leftover : ℕ → Bool) (calls index : ℕ) (actions : List Slot) :
    loadFilesAccesses leftover calls version files index actions = [] ∧
      loadFiles calls version files index actions = some actions := by
  induction files generalizing index with
  | nil => exact ⟨rfl, rfl⟩
  | cons file files ih =>
    obtain ⟨hfirst, hrest⟩ := List.forall_mem_cons.mp hearly
    obtain ⟨result, hresult, hactions, hres⟩ :=
      exists_loadAction_of_early hfirst calls actions index
    obtain ⟨haccesses, htable⟩ := ih hrest (index + 1)
    constructor
    · rw [loadFilesAccesses, loadActionAccesses, hfirst, hresult]
      dsimp only
      rw [hactions, haccesses]
      rfl
    · rw [loadFiles, hresult, Option.bind_some, if_neg (by omega), hactions, htable]

end Loads

/-- Whatever stands in unwritten slots and behind the table, whatever names are looked up
and whether the table is destroyed: all accesses are inside the table and read written
slots if and only if every file fails before it declares a name. -/
theorem table_accesses_sound_iff (leftover : ℕ → Bool) (calls : ℕ) (version : Block)
    (files : List (IncludeFile × Allocations)) (names : List Block) (destroyed : Bool) :
    Sound files.length [] (tableAccesses leftover calls version files names destroyed) ↔
      ∀ file ∈ files, loadOutcome version file.1 file.2 = .early := by
  by_cases hfiles : files.length > 0
  · rw [tableAccesses, createActions, if_pos hfiles]
    dsimp only
    constructor
    · rintro ⟨-, hsound⟩
      exact early_of_sound (by simp) hsound
    · intro hearly
      obtain ⟨rest, hrest⟩ : ∃ rest,
          (List.replicate files.length Slot.uninitialised).set 0 .null = .null :: rest := by
        obtain ⟨count, hcount⟩ := Nat.exists_eq_add_of_lt hfiles
        exact ⟨_, by rw [hcount, Nat.zero_add, List.replicate_succ, List.set_cons_zero]⟩
      obtain ⟨haccesses, htable⟩ :=
        loadFilesAccesses_of_early hearly leftover calls 0 (.null :: rest)
      rw [hrest, haccesses, htable, List.nil_append]
      -- every scan ends at the first slot
      refine ⟨hfiles, sound_reads hfiles List.mem_cons_self ?_⟩
      intro access haccess
      rcases List.mem_append.mp haccess with hfind | hdestroy
      · obtain ⟨name, -, hfind⟩ := List.mem_flatMap.mp hfind
        exact List.mem_singleton.mp (show access ∈ [.read 0] from hfind)
      · cases destroyed with
        | false => exact absurd hdestroy List.not_mem_nil
        | true => exact List.mem_singleton.mp (show access ∈ [.read 0] from hdestroy)
  · have hnone : files = [] := List.eq_nil_of_length_eq_zero (Nat.eq_zero_of_not_pos hfiles)
    rw [hnone]
    exact iff_of_true trivial (List.forall_mem_nil _)

/-- One file that loads: the slot behind the only one is read. -/
theorem table_accessed_behind_last_slot :
    loadOutcomes (ascii "1.0") [(exampleFile, .whole)] =
        [.loaded (ascii "a")] ∧
      ¬ Sound 1 [] (tableAccesses (fun _ => false) 0 (ascii "1.0")
        [(exampleFile, .whole)] [ascii "a"] true) := by
  refine ⟨by decide, ?_⟩
  rintro ⟨-, -, hread, -⟩
  exact Nat.lt_irrefl 1 hread

end EasyForetell
