import EasyForetell.MainSettings
import EasyForetell.Theory.Packed

/-!
# Packing a list (config_utils.c)

The list readers go over the records of a setting with one index and over the slots of a new
array with another. The second one advances only where a line is stored, so the lines stand in
the first slots, whatever records are skipped between them.

`readMemcachedServers`, `readVariableList` and `readUrlList` have memory for their arrays. Where
that matters, `readMemcachedServersIn` and the like say what becomes of them without it.

## Main results

* `packServers_eq`, `packVariables_eq`: the loop that two of the readers share
* `packRecords_isSome_iff`, `packRecords_packed`: when it returns a list, and what is in it
* `readMemcachedServers_packs`, `readVariableList_packs_lines`: what the readers return
-/

namespace EasyForetell

open Memory Theory

/-- The line of a complete server. -/
def ServerSetting.line (record : ServerSetting) : Option Block :=
  match record.hostname, record.port with
  | some hostname, some port => some (serverLine hostname port)
  | _, _ => none

/-- The line of a complete variable without separator in its name. -/
def VariableSetting.line (record : VariableSetting) : Option Block :=
  match record.name, record.value with
  | some name, some value =>
    if (strchr name varSeparator).isSome then none else some (variableLine name value)
  | _, _ => none

/-- The records a list reader goes over: none when there are more than its maximum. -/
def recordsRead {ρ : Type*} (setting : Option (List ρ)) (maximumCount : ℕ) : List ρ :=
  let records := setting.getD []
  if records.length > maximumCount then [] else records

/-- A list reader whose array may get no memory: then the first line is stored through NULL, and
where there is none the list stays NULL. -/
def withArray {ρ : Type*} (allocated : Bool) (records : List ρ) (line : ρ → Option Block)
    (result : Option StringList) : Option StringList :=
  if allocated then result
  else if records.all fun record => (line record).isNone then
    result.map fun result => { result with list := none }
  else none

/-- `read_memcached_servers`; `allocated` tells whether `init_string_list` gets memory. -/
def readMemcachedServersIn (allocated : Bool) (allocates : ℕ → Bool)
    (setting : Option (List ServerSetting)) (serverCount : ℕ) : Option StringList :=
  withArray allocated (setting.getD []) ServerSetting.line
    (some (readMemcachedServers allocates setting serverCount))

/-- `read_variable_list`; `allocated` tells whether `init_string_list` gets memory. -/
def readVariableListIn (allocated : Bool) (allocates : ℕ → Bool) (cfg : Config)
    (variableCount maximumCount : ℕ) : Option StringList :=
  withArray allocated (recordsRead cfg.cacheVariables maximumCount) VariableSetting.line
    (some (readVariableList allocates cfg variableCount maximumCount))

/-- `read_url_list`; `allocated` tells whether `init_string_list` gets memory. -/
def readUrlListIn (calls : ℕ) (allocated : Bool) (allocates : ℕ → Bool) (cfg : Config)
    (urlCount maximumCount : ℕ) (variableList : List (Option Block)) (variableCount : ℕ) :
    Option StringList :=
  withArray allocated (recordsRead cfg.cachePages maximumCount) PageSetting.url
    (readUrlList calls allocates cfg urlCount maximumCount variableList variableCount)

/-- A complete variable and its line. -/
theorem VariableSetting.line_eq_some_iff {record : VariableSetting} {text : Block} :
    record.line = some text ↔ ∃ name value, record = ⟨some name, some value⟩ ∧
      varSeparator ∉ cstr name ∧ text = variableLine name value := by
  rcases record with ⟨_ | name, _ | value⟩
  case some.some =>
    by_cases hseparator : varSeparator ∈ cstr name
    · have hsome : (strchr name varSeparator).isSome := by
        rw [Option.isSome_iff_ne_none, Ne, strchr_eq_none_iff, not_not]
        exact hseparator
      simp [line, hsome, hseparator]
    · simp [line, strchr_eq_none_iff.mpr hseparator, hseparator, eq_comm]
  all_goals simp [line]

/-- A complete server and its line. -/
theorem ServerSetting.line_eq_some_iff {record : ServerSetting} {text : Block} :
    record.line = some text ↔ ∃ hostname port, record = ⟨some hostname, some port⟩ ∧
      text = serverLine hostname port := by
  rcases record with ⟨_ | hostname, _ | port⟩
  case some.some => simp [line, eq_comm]
  all_goals simp [line]

/-- The loop that `read_memcached_servers` and `read_variable_list` share: the record without a
line is skipped with a message, and the list is given up when memory for a line runs out. -/
def packRecords {ρ : Type*} (line : ρ → Option Block) (skipped : ρ → LogMessage)
    (failure : LogMessage) (allocates : ℕ → Bool) : ℕ → List ρ → Packing →
    Option (List (Option Block)) × List LogMessage
  | _, [], packing => (some packing.slots, packing.logs)
  | i, record :: records, packing =>
    match line record with
    | none =>
      packRecords line skipped failure allocates (i + 1) records (packing.skip (skipped record))
    | some text =>
      if allocates i then
        packRecords line skipped failure allocates (i + 1) records (packing.pack text)
      else (none, packing.logs ++ [failure])

section Packing

variable {ρ : Type*} {line : ρ → Option Block} {skipped : ρ → LogMessage} {failure : LogMessage}
  {allocates : ℕ → Bool} {i count : ℕ} {packing : Packing} {slots : List (Option Block)}
  {done : List Block}

theorem packServers_eq (allocates : ℕ → Bool) (i : ℕ) (records : List ServerSetting)
    (packing : Packing) :
    packServers allocates i records packing =
      packRecords ServerSetting.line (fun _ => incompleteServerMessage)
        ⟨.error, ascii "Failed to allocate memory for memcached server names"⟩ allocates i records
        packing := by
  induction records generalizing i packing with
  | nil => rfl
  | cons record records ih =>
    rcases record with ⟨_ | hostname, _ | port⟩
    case some.some =>
      simp only [packServers, packRecords, ServerSetting.line, ih]
    all_goals exact ih (i + 1) (packing.skip incompleteServerMessage)

/-- The message for a variable without a line. -/
def VariableSetting.skipMessage (record : VariableSetting) : LogMessage :=
  match record.name, record.value with
  | some name, some _ => invalidNameMessage name
  | _, _ => incompleteVariableMessage

theorem packVariables_eq (allocates : ℕ → Bool) (i : ℕ) (records : List VariableSetting)
    (packing : Packing) :
    packVariables allocates i records packing =
      packRecords VariableSetting.line VariableSetting.skipMessage
        ⟨.error, ascii "Failed to allocate memory for cache variables"⟩ allocates i records
        packing := by
  induction records generalizing i packing with
  | nil => rfl
  | cons record records ih =>
    rcases record with ⟨_ | name, _ | value⟩
    case some.some =>
      simp only [packVariables, packRecords, VariableSetting.line, VariableSetting.skipMessage, ih]
      by_cases hseparator : (strchr name varSeparator).isSome
      · rw [if_pos hseparator, if_pos hseparator]
      · rw [if_neg hseparator, if_neg hseparator]
    all_goals exact ih (i + 1) (packing.skip incompleteVariableMessage)

/-- The list is lost exactly when memory for a line runs out. -/
theorem packRecords_isSome_iff {records : List ρ} :
    (packRecords line skipped failure allocates i records packing).1.isSome ↔
      ∀ j, ∀ record ∈ records[j]?, (line record).isSome → allocates (j + i) = true := by
  induction records generalizing i packing with
  | nil => simp [packRecords]
  | cons record records ih =>
    have hsplit : (∀ j, ∀ other ∈ (record :: records)[j]?, (line other).isSome →
        allocates (j + i) = true) ↔ ((line record).isSome → allocates i = true) ∧
          ∀ j, ∀ other ∈ records[j]?, (line other).isSome → allocates (j + (i + 1)) = true := by
      constructor
      · intro hall
        refine ⟨fun hline => by simpa using hall 0 record rfl hline, fun j other hother hline => ?_⟩
        have hlater := hall (j + 1) other hother hline
        rwa [Nat.add_assoc, Nat.add_comm 1 i] at hlater
      · rintro ⟨hfirst, hlater⟩ (_ | j) other hother hline
        · obtain rfl : record = other := Option.some.inj hother
          rw [Nat.zero_add]
          exact hfirst hline
        · have hnext := hlater j other hother hline
          rwa [Nat.add_comm i 1, ← Nat.add_assoc] at hnext
    rw [hsplit, packRecords]
    cases hline : line record with
    | none => simpa using ih
    | some text =>
      by_cases hmemory : allocates i = true
      · simpa [hmemory] using ih
      · simp [hmemory]

variable {records : List ρ}

/-- A line goes behind those that are there. -/
theorem Packing.slots_pack (text : Block) (hslots : packing.slots = packed count done)
    (hidx : packing.idx = done.length) (hroom : done.length < count) :
    (packing.pack text).slots = packed count (done ++ [dupString text]) := by
  rw [pack, hslots, hidx, set_packed _ hroom]

/-- The list has the lines of the records that have one, behind those that are there. -/
theorem packRecords_packed (hslots : packing.slots = packed count done)
    (hidx : packing.idx = done.length) (hroom : done.length + records.length ≤ count)
    (hpacked : (packRecords line skipped failure allocates i records packing).1 = some slots) :
    slots = packed count (done ++ (records.filterMap line).map dupString) := by
  induction records generalizing i packing done with
  | nil =>
    rw [List.filterMap_nil, List.map_nil, List.append_nil, ← hslots]
    exact (Option.some.inj hpacked).symm
  | cons record records ih =>
    rw [List.length_cons] at hroom
    rw [packRecords] at hpacked
    rw [List.filterMap_cons]
    cases hline : line record with
    | none =>
      rw [hline] at hpacked
      have hskip : (packing.skip (skipped record)).slots = packed count done := hslots
      exact ih hskip hidx (by omega) hpacked
    | some text =>
      simp only [hline] at hpacked
      split_ifs at hpacked with hmemory
      have hnext := ih (Packing.slots_pack text hslots hidx (by omega))
        (by rw [Packing.pack, hidx, List.length_append, List.length_singleton])
        (by rw [List.length_append, List.length_singleton]; omega) hpacked
      rwa [List.append_assoc] at hnext

/-- A list that is filled from scratch. -/
theorem packRecords_fresh (hpacked : (packRecords line skipped failure allocates 0 records
      ⟨List.replicate records.length none, 0, []⟩).1 = some slots) :
    slots = packed records.length ((records.filterMap line).map dupString) :=
  packRecords_packed packed_nil.symm rfl (Nat.zero_add _).le hpacked

/-- With memory for every line there is a list. -/
theorem packRecords_of_allocates (records : List ρ) :
    (packRecords line skipped failure (fun _ => true) 0 records
      ⟨List.replicate records.length none, 0, []⟩).1 =
        some (packed records.length ((records.filterMap line).map dupString)) := by
  obtain ⟨slots, hslots⟩ := Option.isSome_iff_exists.mp
    (packRecords_isSome_iff.mpr fun _ _ _ _ => rfl :
      (packRecords line skipped failure (fun _ => true) 0 records
        ⟨List.replicate records.length none, 0, []⟩).1.isSome)
  rw [hslots, packRecords_fresh hslots]

end Packing

/-! ### The lists that are read -/

/-- A reader returns an array with a slot for every record, and in the first slots its lines. -/
structure Packs (result : StringList) (count : ℕ) (lines : List Block) : Prop where
  count_eq : result.count = count
  lines_le : lines.length ≤ count
  list_eq : result.list = some (packed count lines)

section Readers

variable {ρ : Type*} {records : List ρ}

theorem initStringList_of_ne_nil (hsome : records ≠ []) :
    initStringList records.length = some (List.replicate records.length none) :=
  if_neg (Nat.not_lt_of_le (List.length_pos_iff.mpr hsome))

theorem length_lines_le (line : ρ → Option Block) (records : List ρ) :
    ((records.filterMap line).map dupString).length ≤ records.length := by
  rw [List.length_map]
  exact List.length_filterMap_le _ _

/-- `read_memcached_servers` packs the lines of the complete servers. -/
theorem readMemcachedServers_packs (serverCount : ℕ) {servers : List ServerSetting}
    (hsome : servers ≠ []) :
    Packs (readMemcachedServers (fun _ => true) (some servers) serverCount) servers.length
      ((servers.filterMap ServerSetting.line).map dupString) := by
  simp only [readMemcachedServers, initStringList_of_ne_nil hsome, packServers_eq]
  exact ⟨rfl, length_lines_le _ _, packRecords_of_allocates servers⟩

/-- `read_variable_list` packs the lines of the complete variables with a valid name. -/
theorem readVariableList_packs_lines {cfg : Config} {settings : List VariableSetting}
    (variableCount : ℕ) {maximumCount : ℕ} (hcfg : cfg.cacheVariables = some settings)
    (hsome : settings ≠ []) (hmaximum : settings.length ≤ maximumCount) :
    Packs (readVariableList (fun _ => true) cfg variableCount maximumCount) settings.length
      ((settings.filterMap VariableSetting.line).map dupString) := by
  simp only [readVariableList, hcfg, if_neg (Nat.not_lt_of_le hmaximum),
    initStringList_of_ne_nil hsome, packVariables_eq]
  exact ⟨rfl, length_lines_le _ _, packRecords_of_allocates settings⟩

end Readers

end EasyForetell
