import EasyForetell.Action

/-!
# Finding the loaded actions (action.c, main)

Each include file fails before it declares a name, or declares one and then fails
for its variables, or loads. The first two return 0 alike and `main` goes on to the
next file. But a file that fails early leaves its slot NULL, and `find_action` stops
there; one that fails late leaves its action behind, and `find_action` returns it.

## Main results

* `loadAction_inv`: what a file does to the table
* `leading_loadTable`: the actions up to the first NULL after the loop of `main`
* `find_first_loaded_iff`: when `find_action` finds every loaded action
-/

namespace EasyForetell

open Memory

/-! ### What becomes of a file -/

/-- A file fails before it declares a name, declares one and fails for its
variables, or loads. -/
inductive LoadOutcome
  | early
  | late (name : List UInt8)
  | loaded (name : List UInt8)
  deriving DecidableEq

/-- The name a file declares before it fails or loads. -/
def LoadOutcome.declared : LoadOutcome → Option (List UInt8)
  | .early => none
  | .late name => some name
  | .loaded name => some name

theorem LoadOutcome.declared_eq_none_iff {outcome : LoadOutcome} :
    outcome.declared = none ↔ outcome = .early := by
  cases outcome <;> simp [declared]

/-- The outcome that the checks of `load_action` decide. -/
def loadOutcome (version : Block) (includeFile : IncludeFile) (allocates : Allocations) :
    LoadOutcome :=
  match (loadConfig includeFile).1 with
  | none => .early
  | some cfg =>
    if (checkVersion cfg version).1 = -1 then .early
    else
      match (readString cfg.cacheName "cache.name" argumentMaxLength).1 with
      | none => .early
      | some name =>
        if (readVariableListIn allocates.lineArray allocates.lines cfg 0 variableMaxCount).bind
            StringList.list = none then .late (cstr name)
        else .loaded (cstr name)

section Outcomes

variable {calls : ℕ} {allocates : Allocations} {actions : List Slot} {includeFile : IncludeFile}
  {index : ℕ} {version : Block} {result : LoadResult}

/-- What `load_action` does, by what becomes of the file: it leaves the table alone, or
it leaves an action in the slot of the file and NULL behind it, without pages when it
fails late and with what `read_url_list` read when it loads. -/
theorem loadAction_inv
    (hresult : loadAction calls allocates actions includeFile index version = some result) :
    (loadOutcome version includeFile allocates = .early ∧ result.actions = actions ∧
        result.res = 0) ∨
      (∃ name, loadOutcome version includeFile allocates = .late (cstr name) ∧
        result.actions =
          (actions.set index (.action (newAction name))).set (index + 1) .null ∧
        result.res = 0) ∨
      ∃ cfg name variableList variableCount urls, includeFile = .parsed cfg ∧
        loadOutcome version includeFile allocates = .loaded (cstr name) ∧
        readUrlListIn calls allocates.urlArray allocates.urls cfg 0 urlMaxCount variableList
          variableCount = some urls ∧
        result.actions = (actions.set index (.action { newAction name with
          refreshList := urls.list, count := urls.count })).set (index + 1) .null ∧
        result.res = 1 := by
  cases includeFile with
  | broken message =>
    obtain rfl := Option.some.inj hresult
    exact Or.inl ⟨rfl, rfl, rfl⟩
  | parsed cfg =>
    simp only [loadOutcome, loadAction, loadConfig] at hresult ⊢
    by_cases hversion : (checkVersion cfg version).1 = -1
    · rw [if_pos hversion] at hresult ⊢
      obtain rfl := Option.some.inj hresult
      exact Or.inl ⟨rfl, rfl, rfl⟩
    · rw [if_neg hversion] at hresult ⊢
      rcases hname : readString cfg.cacheName "cache.name" argumentMaxLength with ⟨_ | name, logs⟩
      · rw [hname] at hresult
        obtain rfl := Option.some.inj hresult
        exact Or.inl ⟨rfl, rfl, rfl⟩
      · rw [hname] at hresult
        dsimp only at hresult ⊢
        cases hrecord : allocates.record with
        | false => simp [createAction, hrecord] at hresult
        | true =>
          simp only [createAction, hrecord, if_true] at hresult
          obtain ⟨stored, hstored, hresult⟩ := Option.bind_eq_some_iff.mp hresult
          rw [hstored, Option.bind_some]
          cases hlist : stored.list with
          | none =>
            rw [hlist] at hresult
            obtain rfl := Option.some.inj hresult
            exact Or.inr (Or.inl ⟨name, rfl, rfl, rfl⟩)
          | some variableList =>
            -- the action is stored again, with its pages, in the same slot
            rw [hlist] at hresult
            obtain ⟨urls, hurls, rfl⟩ := Option.map_eq_some_iff.mp hresult
            refine Or.inr (Or.inr ⟨cfg, name, variableList, _, urls, rfl, rfl, hurls, ?_, rfl⟩)
            rw [List.set_comm _ _ (Nat.succ_ne_self index), List.set_set]

/-- A file that fails early changes nothing. -/
theorem loadAction_of_early (hearly : loadOutcome version includeFile allocates = .early)
    (hresult : loadAction calls allocates actions includeFile index version = some result) :
    result.actions = actions ∧ result.res = 0 := by
  rcases loadAction_inv hresult with ⟨-, hactions⟩ | ⟨name, hlate, -⟩ |
    ⟨cfg, name, variableList, variableCount, urls, -, hloaded, -⟩
  · exact hactions
  · cases hearly.symm.trans hlate
  · cases hearly.symm.trans hloaded

/-- A file that declares a name leaves an action of that name in its slot and NULL
behind it, and returns 1 when it loads and 0 when it fails late. -/
theorem loadAction_of_declared {name : List UInt8}
    (hdeclared : (loadOutcome version includeFile allocates).declared = some name)
    (hresult : loadAction calls allocates actions includeFile index version = some result) :
    (∃ a : Action, cstr a.name = name ∧
        result.actions = (actions.set index (.action a)).set (index + 1) .null) ∧
      (loadOutcome version includeFile allocates = .late name ∧ result.res = 0 ∨
        loadOutcome version includeFile allocates = .loaded name ∧ result.res = 1) := by
  rcases loadAction_inv hresult with ⟨hearly, -⟩ | ⟨stored, hlate, hactions, hres⟩ |
    ⟨cfg, stored, variableList, variableCount, urls, -, hloaded, -, hactions, hres⟩
  · rw [hearly] at hdeclared
    cases hdeclared
  · rw [hlate] at hdeclared ⊢
    obtain rfl := Option.some.inj hdeclared
    exact ⟨⟨_, cstr_strcpy _ _, hactions⟩, Or.inl ⟨rfl, hres⟩⟩
  · rw [hloaded] at hdeclared ⊢
    obtain rfl := Option.some.inj hdeclared
    exact ⟨⟨_, cstr_strcpy _ _, hactions⟩, Or.inr ⟨rfl, hres⟩⟩

end Outcomes

/-! ### The slots up to the first NULL -/

/-- The names of the actions a scan passes, in the order of their slots. -/
def Leading (slots : List Slot) (names : List (List UInt8)) : Prop :=
  ∃ (actions : List Action) (rest : List Slot), slots = actions.map .action ++ rest ∧
    actions.map (fun a => cstr a.name) = names ∧ ∀ slot ∈ rest.head?, slot = .null

/-- The names declared before the first file that fails early. -/
def leadingNames : List LoadOutcome → List (List UInt8)
  | [] => []
  | outcome :: outcomes =>
    match outcome.declared with
    | none => []
    | some name => name :: leadingNames outcomes

/-- The name in a place is one declared there, with no file before it that fails
early. -/
theorem getElem?_leadingNames (outcomes : List LoadOutcome) (index : ℕ) (name : List UInt8) :
    (leadingNames outcomes)[index]? = some name ↔
      (∀ j < index, outcomes[j]? ≠ some .early) ∧
        outcomes[index]?.bind LoadOutcome.declared = some name := by
  induction outcomes generalizing index with
  | nil => simp [leadingNames]
  | cons outcome outcomes ih =>
    cases hdeclared : outcome.declared with
    | none =>
      rw [leadingNames, hdeclared, LoadOutcome.declared_eq_none_iff.mp hdeclared]
      -- an early failure in front hides every place
      cases index with
      | zero => simp [LoadOutcome.declared]
      | succ index =>
        refine iff_of_false (by simp) ?_
        rintro ⟨hnone, -⟩
        exact hnone 0 (Nat.succ_pos index) rfl
    | some first =>
      have hlater : outcome ≠ .early := by
        rintro rfl
        cases hdeclared
      rw [leadingNames, hdeclared]
      cases index with
      | zero => simp [hdeclared]
      | succ index =>
        rw [List.getElem?_cons_succ, ih, List.getElem?_cons_succ, Nat.forall_lt_succ_left]
        simp [hlater]

section Scan

variable {slots : List Slot} {names : List (List UInt8)}

/-- The scan finds the first action of the name, if one stands before the first
NULL. -/
theorem findActionFrom_leading (hleading : Leading slots names) (name : Block) (start : ℕ) :
    match names.idxOf? (cstr name) with
    | none => findActionFrom name slots start = .null
    | some index => ∃ a, findActionFrom name slots start = .found (start + index) a := by
  obtain ⟨actions, rest, rfl, rfl, hnull⟩ := hleading
  induction actions generalizing start with
  | nil =>
    cases rest with
    | nil => rfl
    -- the search stops at the NULL behind the actions
    | cons slot rest =>
      obtain rfl := hnull slot rfl
      rfl
  | cons a actions ih =>
    rw [List.map_cons, List.idxOf?_cons]
    by_cases hname : cstr a.name = cstr name
    · simp only [hname, beq_self_eq_true, if_true]
      exact ⟨a, by simp [findActionFrom, hname]⟩
    · -- another name: the search goes on behind it
      have hnext := ih (start + 1)
      have hskip : findActionFrom name ((a :: actions).map .action ++ rest) start =
          findActionFrom name (actions.map .action ++ rest) (start + 1) := if_neg hname
      simp only [beq_iff_eq, hname, if_false, hskip]
      cases hindex : (actions.map fun a => cstr a.name).idxOf? (cstr name) with
      | none =>
        rw [hindex] at hnext
        exact hnext
      | some index =>
        rw [hindex] at hnext
        obtain ⟨found, hfound⟩ := hnext
        exact ⟨found, by rw [hfound, Nat.add_right_comm, Nat.add_assoc]⟩

end Scan

/-! ### The loop of main -/

/-- What becomes of the files. -/
def loadOutcomes (version : Block) (files : List (IncludeFile × Allocations)) : List LoadOutcome :=
  files.map fun file => loadOutcome version file.1 file.2

section Files

variable {calls : ℕ} {version : Block} {files : List (IncludeFile × Allocations)}
  {final : List Slot}

/-- What a file does to the table, by what becomes of it. -/
theorem loadAction_cases {allocates : Allocations} {actions : List Slot} {includeFile : IncludeFile}
    {index : ℕ} {result : LoadResult}
    (hresult : loadAction calls allocates actions includeFile index version = some result) :
    result.res ≠ -1 ∧
      match (loadOutcome version includeFile allocates).declared with
      | none => result.actions = actions
      | some name => ∃ a : Action, cstr a.name = name ∧
          result.actions = (actions.set index (.action a)).set (index + 1) .null := by
  cases hdeclared : (loadOutcome version includeFile allocates).declared with
  | none =>
    obtain ⟨hactions, hres⟩ :=
      loadAction_of_early (LoadOutcome.declared_eq_none_iff.mp hdeclared) hresult
    exact ⟨by omega, hactions⟩
  | some name =>
    obtain ⟨haction, hres⟩ := loadAction_of_declared hdeclared hresult
    exact ⟨by omega, haction⟩

/-- A store behind an entry leaves what is up to the entry alone. -/
theorem set_behind {α : Type*} (before rest : List α) (entry value : α) (index : ℕ)
    (hbehind : before.length < index) :
    ∃ rest', (before ++ entry :: rest).set index value = before ++ entry :: rest' := by
  obtain ⟨more, rfl⟩ := Nat.exists_eq_add_of_lt hbehind
  refine ⟨rest.set more value, ?_⟩
  rw [List.set_append_right _ _ (by omega), show before.length + more + 1 - before.length =
    more + 1 by omega, List.set_cons_succ]

/-- Files behind a NULL do not change what a scan passes. -/
theorem loadFiles_behind_null {actions : List Action} {rest : List Slot} {index : ℕ}
    (hbehind : actions.length < index)
    (hfinal : loadFiles calls version files index (actions.map .action ++ .null :: rest) =
      some final) :
    ∃ rest', final = actions.map .action ++ .null :: rest' := by
  induction files generalizing index rest with
  | nil => exact ⟨rest, (Option.some.inj hfinal).symm⟩
  | cons file files ih =>
    obtain ⟨result, hresult, hnext⟩ := Option.bind_eq_some_iff.mp hfinal
    obtain ⟨hres, hactions⟩ := loadAction_cases hresult
    rw [if_neg hres] at hnext
    -- the file stores into its own slot and the next one, both behind the NULL
    have hkept : ∃ rest', result.actions = actions.map .action ++ .null :: rest' := by
      cases hdeclared : (loadOutcome version file.1 file.2).declared with
      | none =>
        rw [hdeclared] at hactions
        exact ⟨rest, hactions⟩
      | some name =>
        rw [hdeclared] at hactions
        obtain ⟨a, -, hset⟩ := hactions
        obtain ⟨rest', hfirst⟩ := set_behind (actions.map Slot.action) rest .null
          (.action a) index (by simpa using hbehind)
        obtain ⟨rest'', hsecond⟩ := set_behind (actions.map Slot.action) rest' .null
          .null (index + 1) (by simp; omega)
        exact ⟨rest'', by rw [hset, hfirst, hsecond]⟩
    obtain ⟨rest', hkept⟩ := hkept
    rw [hkept] at hnext
    exact ih (Nat.lt_succ_of_lt hbehind) hnext

/-- While no file has failed early, each one adds its action behind the others. -/
theorem leading_loadFiles (actions : List Action) (rest : List Slot)
    (hrest : rest.length = files.length) (hnull : ∀ slot ∈ rest.head?, slot = .null)
    (hfinal : loadFiles calls version files actions.length (actions.map .action ++ rest) =
      some final) :
    Leading final
      (actions.map (fun a => cstr a.name) ++ leadingNames (loadOutcomes version files)) := by
  induction files generalizing actions rest with
  | nil =>
    obtain rfl := Option.some.inj hfinal
    exact ⟨actions, rest, rfl, by simp [loadOutcomes, leadingNames], hnull⟩
  | cons file files ih =>
    cases rest with
    | nil => cases hrest
    | cons slot rest =>
      obtain rfl := hnull slot rfl
      obtain ⟨result, hresult, hnext⟩ := Option.bind_eq_some_iff.mp hfinal
      obtain ⟨hres, hactions⟩ := loadAction_cases hresult
      rw [if_neg hres] at hnext
      rw [loadOutcomes, List.map_cons, leadingNames]
      cases hdeclared : (loadOutcome version file.1 file.2).declared with
      | none =>
        -- the slot of the file stays NULL
        rw [hdeclared] at hactions
        rw [show result.actions = _ from hactions] at hnext
        obtain ⟨rest', rfl⟩ := loadFiles_behind_null (Nat.lt_succ_self _) hnext
        exact ⟨actions, .null :: rest', rfl, by simp, by simp⟩
      | some name =>
        rw [hdeclared] at hactions
        obtain ⟨a, rfl, hset⟩ := hactions
        -- the action fills the slot that was NULL, and the next slot is NULL now
        have hslots : result.actions = (actions ++ [a]).map .action ++ rest.set 0 .null := by
          have hlength : actions.length = (actions.map Slot.action).length := by simp
          rw [hset, hlength, List.set_append_right _ _ (Nat.le_refl _), Nat.sub_self,
            List.set_cons_zero, List.set_append_right _ _ (Nat.le_succ _)]
          simp
        rw [hslots, show actions.length + 1 = (actions ++ [a]).length by simp] at hnext
        have hnext' := ih _ _ (by simpa using hrest) (by cases rest <;> simp) hnext
        simpa [loadOutcomes] using hnext'

/-- After the loop of `main` a scan passes the names declared before the first file
that fails early. -/
theorem leading_loadTable (hfinal : loadTable calls version files = some final) :
    Leading final (leadingNames (loadOutcomes version files)) := by
  obtain ⟨actions, hcreated, hloop⟩ := Option.bind_eq_some_iff.mp hfinal
  unfold createActions at hcreated
  split_ifs at hcreated with hfiles
  obtain rfl := Option.some.inj hcreated
  -- `create_actions` leaves NULL in the first slot
  have hleading := leading_loadFiles [] ((List.replicate files.length
    Slot.uninitialised).set 0 .null) (by simp) ?_ hloop
  · simpa using hleading
  · cases hlength : files.length with
    | zero => omega
    | succ count => simp [List.replicate_succ]

/-- The scan of a loaded table meets no pointer that was never written. -/
theorem findAction_ne_wild (htable : loadTable calls version files = some final) (name : Block) :
    findAction (some final) name ≠ .wild := by
  have hscan := findActionFrom_leading (leading_loadTable htable) name 0
  intro hwild
  rw [show findActionFrom name final 0 = .wild from hwild] at hscan
  split at hscan
  · cases hscan
  · obtain ⟨a, hfound⟩ := hscan
    cases hfound

end Files

/-! ### What find_action finds -/

/-- The index of a name is that of its first occurrence. -/
theorem idxOf?_eq_some_iff_getElem? {names : List (List UInt8)} {name : List UInt8} {index : ℕ} :
    names.idxOf? name = some index ↔
      names[index]? = some name ∧ ∀ j < index, names[j]? ≠ some name := by
  rw [List.idxOf?_eq_some_iff]
  constructor
  · rintro ⟨hindex, rfl, hbefore⟩
    refine ⟨List.getElem?_eq_getElem hindex, fun j hj hname => ?_⟩
    obtain ⟨hplace, hname⟩ := List.getElem?_eq_some_iff.mp hname
    exact hbefore j hj hname
  · rintro ⟨hname, hbefore⟩
    obtain ⟨hindex, hname⟩ := List.getElem?_eq_some_iff.mp hname
    refine ⟨hindex, hname, fun j hj hother => hbefore j hj ?_⟩
    rw [List.getElem?_eq_getElem (hj.trans hindex), hother]

/-- The file loads with the name, and no file before it does. -/
def FirstLoaded (outcomes : List LoadOutcome) (index : ℕ) (name : List UInt8) : Prop :=
  outcomes[index]? = some (.loaded name) ∧ ∀ j < index, outcomes[j]? ≠ some (.loaded name)

section Found

variable {calls : ℕ} {version : Block} {files : List (IncludeFile × Allocations)}
  {table : List Slot}

/-- `find_action` finds a name in the place where it stands among the names declared
before the first early failure. -/
theorem findAction_found_iff (htable : loadTable calls version files = some table) (index : ℕ)
    (name : Block) :
    (∃ a, findAction (some table) name = .found index a) ↔
      (leadingNames (loadOutcomes version files)).idxOf? (cstr name) = some index := by
  have hscan := findActionFrom_leading (leading_loadTable htable) name 0
  cases hindex : (leadingNames (loadOutcomes version files)).idxOf? (cstr name) with
  | none =>
    rw [hindex] at hscan
    simp [findAction, show findActionFrom name table 0 = .null from hscan]
  | some place =>
    rw [hindex] at hscan
    obtain ⟨a, ha⟩ := hscan
    rw [Nat.zero_add] at ha
    simp [findAction, ha, eq_comm]

/-- `find_action` returns NULL for a name that no action of the table has. -/
theorem findAction_null_of_absent (htable : loadTable calls version files = some table)
    (name : Block) (habsent : ∀ a, .action a ∈ table → cstr a.name ≠ cstr name) :
    findAction (some table) name = .null := by
  have hleading := leading_loadTable htable
  have hscan := findActionFrom_leading hleading name 0
  obtain ⟨actions, rest, hslots, hnames, -⟩ := hleading
  have hmissing : cstr name ∉ leadingNames (loadOutcomes version files) := by
    rw [← hnames]
    intro hmem
    obtain ⟨a, ha, hname⟩ := List.mem_map.mp hmem
    exact habsent a (by simp [hslots, ha]) hname
  rwa [List.idxOf?_eq_none_iff.mpr hmissing] at hscan

/-- The first file that loads with a name is found exactly when no file before it fails
early, or declares the name and fails late. -/
theorem idxOf?_leadingNames_iff {outcomes : List LoadOutcome} {index : ℕ} {name : List UInt8}
    (hfirst : FirstLoaded outcomes index name) :
    (leadingNames outcomes).idxOf? name = some index ↔
      ∀ j < index, outcomes[j]? ≠ some .early ∧ outcomes[j]? ≠ some (.late name) := by
  rw [idxOf?_eq_some_iff_getElem?]
  constructor
  · rintro ⟨hplace, hbefore⟩ j hj
    have hquiet := ((getElem?_leadingNames _ _ _).mp hplace).1
    refine ⟨hquiet j hj, fun hlate => hbefore j hj ?_⟩
    -- a file that fails late declares its name all the same
    refine (getElem?_leadingNames _ _ _).mpr ⟨fun k hk => hquiet k (hk.trans hj), ?_⟩
    rw [hlate]
    rfl
  · intro hquiet
    constructor
    · refine (getElem?_leadingNames _ _ _).mpr ⟨fun j hj => (hquiet j hj).1, ?_⟩
      rw [hfirst.1]
      rfl
    · intro j hj hdeclared
      -- a file that declares the name loads with it or fails late
      obtain ⟨outcome, houtcome, hname⟩ :=
        Option.bind_eq_some_iff.mp ((getElem?_leadingNames _ _ _).mp hdeclared).2
      cases outcome with
      | early => cases hname
      | late other =>
        obtain rfl := Option.some.inj hname
        exact (hquiet j hj).2 houtcome
      | loaded other =>
        obtain rfl := Option.some.inj hname
        exact hfirst.2 j hj houtcome

end Found

/-- After the loop of `main`, `find_action` finds the action of the first file that
loads with a name, and NULL for a name that is not in the table, if and only if no
file before such a first one fails before it declares a name, or declares the same
name and fails for its variables. -/
theorem find_first_loaded_iff (calls : ℕ) (version : Block)
    (files : List (IncludeFile × Allocations)) (table : List Slot)
    (htable : loadTable calls version files = some table) :
    ((∀ index name, FirstLoaded (loadOutcomes version files) index (cstr name) →
        ∃ a, findAction (some table) name = .found index a) ∧
      ∀ name, (∀ a, .action a ∈ table → cstr a.name ≠ cstr name) →
        findAction (some table) name = .null) ↔
      ∀ index name, FirstLoaded (loadOutcomes version files) index (cstr name) → ∀ j < index,
        (loadOutcomes version files)[j]? ≠ some .early ∧
          (loadOutcomes version files)[j]? ≠ some (.late (cstr name)) := by
  constructor
  · rintro ⟨hfound, -⟩ index name hfirst
    rw [← idxOf?_leadingNames_iff hfirst, ← findAction_found_iff htable]
    exact hfound index name hfirst
  · intro hclean
    refine ⟨fun index name hfirst => ?_, findAction_null_of_absent htable⟩
    rw [findAction_found_iff htable, idxOf?_leadingNames_iff hfirst]
    exact hclean index name hfirst

/-- A file that configures a cache with one variable and no pages. -/
def exampleFile : IncludeFile :=
  .parsed ⟨some (ascii "1.0"), some (ascii "a"), some [⟨some (ascii "v"), some (ascii "w")⟩], none⟩

/-- Alone, the cache of the file is found. -/
theorem find_first_loaded_alone :
    ∃ table, loadTable 0 (ascii "1.0") [(exampleFile, .whole)] =
        some table ∧ ∃ a, findAction (some table) (ascii "a") = .found 0 a := by
  refine ⟨_, rfl, ?_⟩
  refine ((find_first_loaded_iff 0 (ascii "1.0") [(exampleFile, .whole)] _
    rfl).mpr ?_).1 0 (ascii "a") ⟨by decide, fun j hj => absurd hj (Nat.not_lt_zero j)⟩
  rintro index name ⟨hloaded, -⟩ j hj
  cases index with
  | zero => exact absurd hj (Nat.not_lt_zero j)
  | succ index => simp [loadOutcomes] at hloaded

/-- Behind a file that cannot be parsed the same cache loads, and is not found. -/
theorem find_hidden_by_broken_file :
    let files := [(.broken (ascii "syntax error"), .whole),
      (exampleFile, .whole)]
    ∃ table, loadTable 0 (ascii "1.0") files = some table ∧
      FirstLoaded (loadOutcomes (ascii "1.0") files) 1 (cstr (ascii "a")) ∧
      (∃ a, .action a ∈ table ∧ cstr a.name = ascii "a") ∧
      findAction (some table) (ascii "a") = .null := by
  refine ⟨_, rfl, ⟨by decide, by decide⟩, ?_, rfl⟩
  exact ⟨_, List.mem_cons_of_mem _ List.mem_cons_self, by decide⟩

end EasyForetell
