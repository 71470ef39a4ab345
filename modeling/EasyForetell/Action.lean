import EasyForetell.Packing

/-!
# The action table (action.c)

Every include file that declares a cache becomes an action in the slot of the file.
`find_action` scans the slots up to the first NULL. The slot behind the last
allocated one is taken to read as NULL.
-/

namespace EasyForetell

open Memory

/-- `ARGUMENT_MAX_LENGTH`. -/
def argumentMaxLength : ℕ := 256

/-- `VARIABLE_MAX_COUNT`. -/
def variableMaxCount : ℕ := 32

/-- `URL_MAX_COUNT`. -/
def urlMaxCount : ℕ := 32

/-- `action_t`. -/
structure Action where
  name : Block
  refreshList : Option (List (Option Block))
  count : ℕ

/-- The count of an action does not go beyond its list: there is nothing to walk, or a
list with a slot for every page counted. -/
def Action.Walkable (action : Action) : Prop :=
  action.count = 0 ∨ ∃ slots, action.refreshList = some slots ∧ action.count ≤ slots.length

/-- A slot of the table: as `malloc` left it, NULL, or a pointer to an action of
its own. -/
inductive Slot
  | uninitialised
  | null
  | action (a : Action)

/-- An include file as libconfig sees it: with the message logged for it when it
cannot be read or parsed. -/
inductive IncludeFile
  | broken (message : List UInt8)
  | parsed (cfg : Config)

/-- Which allocations succeed while a file is loaded: the action, the array of its variables,
that of its pages, and the copies of `dup_string` in both, by record. -/
structure Allocations where
  record : Bool
  lineArray : Bool
  urlArray : Bool
  lines : ℕ → Bool
  urls : ℕ → Bool

/-- All allocations succeed. -/
def Allocations.whole : Allocations := ⟨true, true, true, fun _ => true, fun _ => true⟩

/-- `load_config`. -/
def loadConfig : IncludeFile → Option Config × List LogMessage
  | .broken message => (none, [⟨.error, message⟩])
  | .parsed cfg => (some cfg, [])

/-- `create_actions`, for a list of that many file names. -/
def createActions (fileCount : ℕ) : Option (List Slot) :=
  if fileCount > 0 then some ((List.replicate fileCount .uninitialised).set 0 .null) else none

/-- An action as `create_action` leaves it. -/
def newAction (name : Block) : Action := ⟨strcpy [] name, none, 0⟩

/-- `create_action`; `allocated` tells whether `malloc` gets memory. -/
def createAction (allocated : Bool) (name : Block) : Option Action :=
  if allocated then some (newAction name) else none

/-- What `load_action` leaves: the table, the value returned and the messages. -/
structure LoadResult where
  actions : List Slot
  res : ℤ
  logs : List LogMessage

/-- `load_action`; `none` when it does not return: a substitution wants more calls, or what got
no memory is read or stored through NULL. -/
def loadAction (calls : ℕ) (allocates : Allocations) (actions : List Slot)
    (includeFile : IncludeFile) (index : ℕ) (version : Block) : Option LoadResult :=
  match loadConfig includeFile with
  | (none, logs) => some ⟨actions, 0, logs⟩
  | (some cfg, _) =>
    let versionCheck := checkVersion cfg version
    if versionCheck.1 = -1 then some ⟨actions, 0, versionCheck.2⟩
    else
      match readString cfg.cacheName "cache.name" argumentMaxLength with
      | (none, logs) => some ⟨actions, 0, logs⟩
      | (some name, _) =>
        match createAction allocates.record name with
        -- its name is logged all the same
        | none => none
        | some action =>
          -- whatever the next slot holds, it is NULL afterwards
          let actions := (actions.set index (.action action)).set (index + 1) .null
          let loading : LogMessage :=
            ⟨.info, ascii "Loading cache configuration: '" ++ cstr action.name ++ ascii "'"⟩
          (readVariableListIn allocates.lineArray allocates.lines cfg 0 variableMaxCount).bind
            fun stored =>
              match stored.list with
              | none => some ⟨actions, 0, loading :: stored.logs⟩
              | some variableList =>
                (readUrlListIn calls allocates.urlArray allocates.urls cfg action.count urlMaxCount
                  variableList stored.count).map fun urls =>
                    ⟨actions.set index (.action { action with
                      refreshList := urls.list, count := urls.count }), 1,
                      loading :: stored.logs ++ urls.logs⟩

/-- What `find_action` returns: NULL, or the action in a slot. A pointer that was
never written is followed at one's peril. -/
inductive Lookup
  | null
  | found (index : ℕ) (a : Action)
  | wild

/-- The scan of `find_action`, over the slots from an index on. -/
def findActionFrom (name : Block) : List Slot → ℕ → Lookup
  | [], _ => .null
  | .null :: _, _ => .null
  | .uninitialised :: _, _ => .wild
  | .action a :: slots, index =>
    if cstr a.name = cstr name then .found index a else findActionFrom name slots (index + 1)

/-- `find_action`. -/
def findAction (actions : Option (List Slot)) (name : Block) : Lookup :=
  match actions with
  | none => .null
  | some slots => findActionFrom name slots 0

/-- The loop of `main` over the include files, from an index on; `none` when the
daemon does not come out of it. -/
def loadFiles (calls : ℕ) (version : Block) : List (IncludeFile × Allocations) → ℕ → List Slot →
    Option (List Slot)
  | [], _, actions => some actions
  | (includeFile, allocates) :: files, index, actions =>
    (loadAction calls allocates actions includeFile index version).bind fun result =>
      if result.res = -1 then none else loadFiles calls version files (index + 1) result.actions

/-- The table after `main` loaded the include files. -/
def loadTable (calls : ℕ) (version : Block) (files : List (IncludeFile × Allocations)) :
    Option (List Slot) :=
  (createActions files.length).bind (loadFiles calls version files 0)

end EasyForetell
