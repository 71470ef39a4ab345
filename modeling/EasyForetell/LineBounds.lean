import EasyForetell.Action
import EasyForetell.Packing

/-!
# Lines of the configuration in their scratch buffers (config_utils.c)

`read_memcached_servers`, `read_variable_list` and `read_url_list` build a line for every
complete record in `tmp`, and `substitute_variables` copies the stored lines of the variables
into `variable` and `name`. All these arrays have `MAX_LINE_LENGTH` bytes, and nothing bounds
what is written into them.

What a loop writes is given as the list of its strings, with their NUL, in the order in which
they are written.

## Main results

* `packRecords_slots`, `packPages_slots`: the lists that are read come from these strings
* `lines_fit_iff`: when all of them fit
-/

namespace EasyForetell

open Memory

/-! ### What the loops write into tmp -/

section Scratch

variable {ρ : Type*} (line : ρ → Option Block) (goesOn : ℕ → ρ → Bool)

/-- The strings that a list reader builds in `tmp`, from a record on. It skips the records
without a line, and `goesOn` tells whether it gets past a record with one. -/
def scratchLines : ℕ → List ρ → List Block
  | _, [] => []
  | i, record :: records =>
    match line record with
    | none => scratchLines (i + 1) records
    | some text => text :: if goesOn i record then scratchLines (i + 1) records else []

/-- The loop gets to a record: it gets past all records with a line before it. -/
def Reaches (records : List ρ) (i : ℕ) : Prop :=
  ∀ j < i, ∀ record ∈ records[j]?, (line record).isSome → goesOn j record = true

variable {line goesOn}

theorem reaches_zero (records : List ρ) : Reaches line goesOn records 0 :=
  fun j hj => absurd hj (Nat.not_lt_zero j)

theorem reaches_succ_iff {record : ρ} {records : List ρ} {i : ℕ} :
    Reaches line goesOn (record :: records) (i + 1) ↔
      ((line record).isSome → goesOn 0 record = true) ∧
        Reaches line (fun j => goesOn (j + 1)) records i := by
  constructor
  · intro hreaches
    exact ⟨hreaches 0 (Nat.succ_pos i) record rfl,
      fun j hj => hreaches (j + 1) (Nat.succ_lt_succ hj)⟩
  · rintro ⟨hfirst, hlater⟩ (_ | j) hj before hbefore
    · obtain rfl : record = before := Option.some.inj hbefore
      exact hfirst
    · exact hlater j (Nat.lt_of_succ_lt_succ hj) before hbefore

theorem mem_scratchLines {start : ℕ} {records : List ρ} {text : Block} :
    text ∈ scratchLines line goesOn start records ↔
      ∃ i, ∃ record ∈ records[i]?, line record = some text ∧
        Reaches line (fun j => goesOn (j + start)) records i := by
  induction records generalizing start with
  | nil => simp [scratchLines]
  | cons record records ih =>
    have hshift : (fun j => goesOn (j + 1 + start)) = fun j => goesOn (j + (start + 1)) := by
      funext j
      rw [Nat.add_assoc, Nat.add_comm 1 start]
    -- the first record, or one behind it that the loop gets to from there
    have hsplit : (∃ i, ∃ other ∈ (record :: records)[i]?, line other = some text ∧
        Reaches line (fun j => goesOn (j + start)) (record :: records) i) ↔
        line record = some text ∨ ((line record).isSome → goesOn start record = true) ∧
          text ∈ scratchLines line goesOn (start + 1) records := by
      rw [ih, ← hshift]
      constructor
      · rintro ⟨_ | i, other, hother, hline, hreaches⟩
        · obtain rfl : record = other := Option.some.inj hother
          exact Or.inl hline
        · obtain ⟨hfirst, hlater⟩ := reaches_succ_iff.mp hreaches
          exact Or.inr ⟨by rwa [Nat.zero_add] at hfirst, i, other, hother, hline, hlater⟩
      · rintro (hline | ⟨hfirst, i, other, hother, hline, hlater⟩)
        · exact ⟨0, record, rfl, hline, reaches_zero _⟩
        · refine ⟨i + 1, other, hother, hline, reaches_succ_iff.mpr ⟨?_, hlater⟩⟩
          rwa [Nat.zero_add]
    rw [hsplit, scratchLines]
    cases hline : line record with
    | none => simp
    | some first =>
      by_cases hgoes : goesOn start record = true
      · simp [hgoes, eq_comm]
      · simp [hgoes, eq_comm]

theorem forall_mem_scratchLines_iff {records : List ρ} {p : Block → Prop} :
    (∀ text ∈ scratchLines line goesOn 0 records, p text) ↔
      ∀ i, ∀ record ∈ records[i]?, Reaches line goesOn records i →
        ∀ text ∈ line record, p text := by
  simp only [mem_scratchLines, Nat.add_zero]
  constructor
  · intro hall i record hrecord hreaches text htext
    exact hall text ⟨i, record, hrecord, htext, hreaches⟩
  · rintro hall text ⟨i, record, hrecord, htext, hreaches⟩
    exact hall i record hrecord hreaches text htext

end Scratch

/-- What `strcpy` writes for a complete page. -/
def PageSetting.line (record : PageSetting) : Option Block := record.url.map dupString

/-- Pack lines one after the other. -/
def Packing.packAll (packing : Packing) (texts : List Block) : Packing :=
  texts.foldl Packing.pack packing

/-- The slots depend on the lines alone, not on what was logged between them. -/
theorem Packing.slots_packAll_congr (packing other : Packing)
    (hslots : packing.slots = other.slots) (hidx : packing.idx = other.idx) (texts : List Block) :
    (packing.packAll texts).slots = (other.packAll texts).slots := by
  induction texts generalizing packing other with
  | nil => exact hslots
  | cons text texts ih => exact ih _ _ (by simp [pack, hslots, hidx]) (by simp [pack, hidx])

@[simp] theorem Packing.slots_packAll_skip (packing : Packing) (message : LogMessage)
    (texts : List Block) :
    ((packing.skip message).packAll texts).slots = (packing.packAll texts).slots :=
  slots_packAll_congr (packing.skip message) packing rfl rfl texts

section Packing

variable {ρ : Type*} {line : ρ → Option Block} {skipped : ρ → LogMessage} {failure : LogMessage}
  {allocates : ℕ → Bool} {i : ℕ} {packing : Packing} {slots : List (Option Block)}

/-- The list that is read holds copies of the strings built for it. -/
theorem packRecords_slots {records : List ρ}
    (hpacked : (packRecords line skipped failure allocates i records packing).1 = some slots) :
    slots = (packing.packAll (scratchLines line (fun j _ => allocates j) i records)).slots := by
  induction records generalizing i packing with
  | nil => exact (Option.some.inj hpacked).symm
  | cons record records ih =>
    simp only [packRecords] at hpacked
    rw [scratchLines]
    cases hline : line record with
    | none =>
      simp only [hline] at hpacked
      rw [ih hpacked, Packing.slots_packAll_skip]
    | some text =>
      simp only [hline] at hpacked
      split_ifs at hpacked with hmemory
      simp only [hmemory, if_true]
      exact ih hpacked

/-- A slot holds a copy of a line, or what it held before. -/
theorem Packing.mem_slots_packAll {texts : List Block} {stored : Block}
    (hstored : some stored ∈ (packing.packAll texts).slots) :
    some stored ∈ packing.slots ∨ ∃ text ∈ texts, stored = dupString text := by
  induction texts generalizing packing with
  | nil => exact Or.inl hstored
  | cons text texts ih =>
    rcases ih hstored with hold | ⟨other, hother, rfl⟩
    · rcases List.mem_or_eq_of_mem_set hold with hold | hnew
      · exact Or.inl hold
      · exact Or.inr ⟨text, List.mem_cons_self, Option.some.inj hnew⟩
    · exact Or.inr ⟨other, List.mem_cons_of_mem _ hother, rfl⟩

end Packing

/-! ### What substitute_variables copies -/

/-- The string that `strcpy (name, ptok)` writes for a line. -/
def VariableBuffers.nameCopy (buffers : VariableBuffers) (line : Block) : List Block :=
  match strtok varSeparator (strcpy buffers.variableBuffer line) 0 with
  | none => []
  | some first => [dupString (first.block.drop first.start)]

/-- The strings that `substitute_variables` copies into `variable` and `name`, over the slots
from the current one on, as far as its loops get. -/
def substituteCopies (calls strLength : ℕ) : List (Option Block) → VariableBuffers → Block →
    List Block
  | some line :: lines, buffers, str =>
    let recovered := buffers.recover strLength line
    dupString line :: buffers.nameCopy line ++
      match replaceLoop strLength recovered calls str with
      | none => []
      | some str => substituteCopies calls strLength lines recovered str
  | _, _, _ => []

section Copies

theorem strlen_dupString (str : Block) : strlen (dupString str) = strlen str := by
  rw [strlen, dupString, cstr_append_nul (nul_notMem_cstr str), strlen]

@[simp] theorem length_dupString (str : Block) : (dupString str).length = strlen str + 1 := by
  rw [dupString, List.length_append, List.length_singleton, strlen]

/-- A name is no longer than the line it is cut from. -/
theorem length_nameCopy {buffers : VariableBuffers} {line text : Block}
    (htext : text ∈ buffers.nameCopy line) : text.length ≤ strlen line + 1 := by
  unfold VariableBuffers.nameCopy at htext
  split at htext
  · exact absurd htext List.not_mem_nil
  · next first hfirst =>
    obtain rfl := List.mem_singleton.mp htext
    have hshort := strlen_drop_of_strtok hfirst
    have hline : strlen (strcpy buffers.variableBuffer line) = strlen line := by
      rw [strlen, cstr_strcpy, strlen]
    rw [length_dupString]
    omega

/-- No copy is longer than a stored line. -/
theorem exists_line_of_mem_substituteCopies {calls strLength : ℕ} {lines : List (Option Block)}
    {buffers : VariableBuffers} {str text : Block}
    (htext : text ∈ substituteCopies calls strLength lines buffers str) :
    ∃ line, some line ∈ lines ∧ text.length ≤ strlen line + 1 := by
  induction lines generalizing buffers str with
  | nil => exact absurd htext List.not_mem_nil
  | cons slot lines ih =>
    cases slot with
    | none => exact absurd htext List.not_mem_nil
    | some line =>
      simp only [substituteCopies, List.cons_append, List.mem_cons, List.mem_append] at htext
      rcases htext with rfl | hname | hlater
      · exact ⟨line, List.mem_cons_self, (length_dupString line).le⟩
      · exact ⟨line, List.mem_cons_self, length_nameCopy hname⟩
      · cases hloop : replaceLoop strLength (buffers.recover strLength line) calls str with
        | none => simp [hloop] at hlater
        | some str' =>
          obtain ⟨other, hother, hlength⟩ := ih (by simpa [hloop] using hlater)
          exact ⟨other, List.mem_cons_of_mem _ hother, hlength⟩

end Copies

/-! ### The loop over the pages -/

/-- `read_url_list` gets past a page when the substitution ends and there is memory for the
result. -/
def pageGoesOn (calls : ℕ) (allocates : ℕ → Bool) (variableList : List (Option Block))
    (variableCount j : ℕ) (record : PageSetting) : Bool :=
  allocates j && (record.url.all fun url =>
    (substituteVariables calls (strcpy [] url) maxLineLength variableList variableCount).isSome)

theorem strcpy_dupString (block str : Block) : strcpy block (dupString str) = strcpy block str := by
  have hstring : cstr (dupString str) = cstr str := cstr_append_nul (nul_notMem_cstr str)
  rw [strcpy, strcpy, hstring]

/-- The pages that are read are what the substitution makes of the strings copied for them. -/
theorem packPages_slots {calls : ℕ} {allocates : ℕ → Bool} {variableList : List (Option Block)}
    {variableCount i : ℕ} {records : List PageSetting} {packing : Packing}
    {slots : List (Option Block)} {logs : List LogMessage}
    (hpacked : packPages calls allocates variableList variableCount i records packing =
      some (some slots, logs)) :
    slots = (packing.packAll ((scratchLines PageSetting.line
      (pageGoesOn calls allocates variableList variableCount) i records).map fun text =>
        (substituteVariables calls (strcpy [] text) maxLineLength variableList
          variableCount).getD [])).slots := by
  induction records generalizing i packing with
  | nil =>
    obtain ⟨hslots, -⟩ := Prod.mk.inj (Option.some.inj hpacked)
    exact (Option.some.inj hslots).symm
  | cons record records ih =>
    rcases record with ⟨_ | url⟩
    · rw [ih hpacked, Packing.slots_packAll_skip]
      rfl
    · simp only [packPages] at hpacked
      obtain ⟨tmp, htmp, hnext⟩ := Option.bind_eq_some_iff.mp hpacked
      split_ifs at hnext with hmemory
      · have hgoes : pageGoesOn calls allocates variableList variableCount i ⟨some url⟩ = true := by
          simp [pageGoesOn, hmemory, htmp]
        simp only [scratchLines, PageSetting.line, Option.map_some, hgoes, if_true, List.map_cons,
          strcpy_dupString, htmp, Option.getD_some]
        exact ih hnext
      · exact absurd (Prod.mk.inj (Option.some.inj hnext)).1 (Option.some_ne_none _).symm

/-! ### A configuration whose lines fit -/

/-- What decides how far the readers get, once their arrays have memory: the memory for the lines
they store, and the calls of `replace_string` the substitution of a variable may make. -/
structure Reading where
  servers : ℕ → Bool
  lines : ℕ → Bool
  urls : ℕ → Bool
  calls : ℕ

/-- The strings built for the servers. -/
def Reading.serverLines (reading : Reading) (servers : Option (List ServerSetting)) : List Block :=
  scratchLines ServerSetting.line (fun j _ => reading.servers j) 0 (servers.getD [])

/-- The strings built for the variables. -/
def Reading.variableLines (reading : Reading) (cfg : Config) : List Block :=
  scratchLines VariableSetting.line (fun j _ => reading.lines j) 0
    (recordsRead cfg.cacheVariables variableMaxCount)

/-- The variable list that `load_action` gets, NULL in the cases in which it returns before the
pages. -/
def Reading.variableList (reading : Reading) (cfg : Config) : StringList :=
  readVariableList reading.lines cfg 0 variableMaxCount

/-- Whether the loop over the pages gets past one, with that list. -/
def Reading.pageGoesOn (reading : Reading) (cfg : Config) : ℕ → PageSetting → Bool :=
  EasyForetell.pageGoesOn reading.calls reading.urls
    ((reading.variableList cfg).list.getD []) (reading.variableList cfg).count

/-- The URLs copied for the pages. -/
def Reading.urlLines (reading : Reading) (cfg : Config) : List Block :=
  if (reading.variableList cfg).list.isSome then
    scratchLines PageSetting.line (reading.pageGoesOn cfg) 0
      (recordsRead cfg.cachePages urlMaxCount)
  else []

/-- The strings that `substitute_variables` copies for a URL. -/
def Reading.copies (reading : Reading) (cfg : Config) (url : Block) : List Block :=
  substituteCopies reading.calls maxLineLength
    (((reading.variableList cfg).list.getD []).take (reading.variableList cfg).count) ⟨[], []⟩
    (strcpy [] url)

/-- Every string that the readers and the substitution write into an array of `MAX_LINE_LENGTH`
bytes fits there with its NUL. -/
structure LinesFit (reading : Reading) (servers : Option (List ServerSetting)) (cfg : Config) :
    Prop where
  serverLines : ∀ text ∈ reading.serverLines servers, text.length ≤ maxLineLength
  variableLines : ∀ text ∈ reading.variableLines cfg, text.length ≤ maxLineLength
  urlLines : ∀ text ∈ reading.urlLines cfg, text.length ≤ maxLineLength
  copies : ∀ url ∈ reading.urlLines cfg, ∀ text ∈ reading.copies cfg url,
    text.length ≤ maxLineLength

/-- The variables of a file are stored: there is one, there are no more than the maximum, and
there is memory for every line. -/
def Config.StoresVariables (cfg : Config) (allocates : ℕ → Bool) : Prop :=
  let records := recordsRead cfg.cacheVariables variableMaxCount
  records ≠ [] ∧ ∀ j, ∀ record ∈ records[j]?, record.line.isSome → allocates j = true

/-- The complete records that the loops get to are short: hostname and port, name and value, and
URL leave room for what is written between and behind them. -/
structure ShortRecords (reading : Reading) (servers : Option (List ServerSetting)) (cfg : Config) :
    Prop where
  serverBound : ∀ i hostname port, (servers.getD [])[i]? = some ⟨some hostname, some port⟩ →
    Reaches ServerSetting.line (fun j _ => reading.servers j) (servers.getD []) i →
      strlen hostname + (toString port).length + 2 ≤ maxLineLength
  variableBound : ∀ i name value,
    (recordsRead cfg.cacheVariables variableMaxCount)[i]? = some ⟨some name, some value⟩ →
    varSeparator ∉ cstr name →
    Reaches VariableSetting.line (fun j _ => reading.lines j)
      (recordsRead cfg.cacheVariables variableMaxCount) i →
      strlen name + strlen value + 3 ≤ maxLineLength
  urlBound : cfg.StoresVariables reading.lines → ∀ i url,
    (recordsRead cfg.cachePages urlMaxCount)[i]? = some ⟨some url⟩ →
    Reaches PageSetting.line (reading.pageGoesOn cfg) (recordsRead cfg.cachePages urlMaxCount) i →
      strlen url + 1 ≤ maxLineLength

section Lengths

variable {reading : Reading} {cfg : Config}

@[simp] theorem length_serverLine (hostname : Block) (port : ℤ) :
    (serverLine hostname port).length = strlen hostname + (toString port).length + 2 := by
  simp only [serverLine, List.length_append, length_ascii, List.length_singleton, strlen]
  rw [show ":".length = 1 from rfl]
  omega

@[simp] theorem length_variableLine (name value : Block) :
    (variableLine name value).length = strlen name + strlen value + 3 := by
  simp only [variableLine, List.length_append, length_ascii, List.length_singleton, strlen]
  rw [show "$".length = 1 from rfl]
  omega

theorem nul_mem_variableLine (name value : Block) : (0 : UInt8) ∈ variableLine name value :=
  List.mem_append_right _ (List.mem_singleton_self 0)

/-- The list of the variables, through the shared loop. It is NULL when no record is gone over. -/
theorem Reading.list_variableList (reading : Reading) (cfg : Config) :
    (reading.variableList cfg).list =
      if recordsRead cfg.cacheVariables variableMaxCount = [] then none
      else (packRecords VariableSetting.line VariableSetting.skipMessage
        ⟨.error, ascii "Failed to allocate memory for cache variables"⟩ reading.lines 0
        (recordsRead cfg.cacheVariables variableMaxCount)
        ⟨List.replicate (recordsRead cfg.cacheVariables variableMaxCount).length none, 0, []⟩).1 := by
  unfold variableList readVariableList recordsRead
  cases hrecords : cfg.cacheVariables with
  | none => simp
  | some records =>
    by_cases hmany : records.length > variableMaxCount
    · simp [hmany]
    · cases records with
      | nil => simp [initStringList]
      | cons record records =>
        simp only [if_neg hmany, Option.getD_some, initStringList, packVariables_eq]
        rw [if_neg (by simp), if_neg (List.cons_ne_nil _ _)]

/-- The list of the variables is there when the variables are stored. -/
theorem Reading.variableList_isSome_iff :
    (reading.variableList cfg).list.isSome ↔ cfg.StoresVariables reading.lines := by
  rw [list_variableList, Config.StoresVariables]
  split_ifs with hempty
  · simp [hempty]
  · rw [packRecords_isSome_iff]
    exact (and_iff_right hempty).symm

theorem mem_getD_nil {α : Type*} {a : α} {list : Option (List α)} :
    a ∈ list.getD [] ↔ ∃ l ∈ list, a ∈ l := by
  cases list <;> simp

/-- What is stored for a variable is the copy of a string built for it. -/
theorem Reading.exists_variableLine {stored : Block}
    (hstored : some stored ∈ (reading.variableList cfg).list.getD []) :
    ∃ text ∈ reading.variableLines cfg, stored = dupString text := by
  rw [list_variableList] at hstored
  split_ifs at hstored with hempty
  · exact absurd hstored List.not_mem_nil
  · obtain ⟨slots, hpacked, hslot⟩ := mem_getD_nil.mp hstored
    rw [packRecords_slots hpacked] at hslot
    rcases Packing.mem_slots_packAll hslot with hold | hcopy
    · exact absurd (List.eq_of_mem_replicate hold) (Option.some_ne_none stored)
    · exact hcopy

/-- A stored line is shorter than the string built for it, so the copies fit when that does. -/
theorem Reading.length_copies (hfits : ∀ text ∈ reading.variableLines cfg,
    text.length ≤ maxLineLength) {url text : Block} (htext : text ∈ reading.copies cfg url) :
    text.length ≤ maxLineLength := by
  obtain ⟨stored, hstored, hlength⟩ := exists_line_of_mem_substituteCopies htext
  obtain ⟨built, hbuilt, rfl⟩ := reading.exists_variableLine (List.mem_of_mem_take hstored)
  obtain ⟨i, record, -, hline, -⟩ := mem_scratchLines.mp hbuilt
  obtain ⟨name, value, -, -, rfl⟩ := VariableSetting.line_eq_some_iff.mp hline
  have hshort := strlen_lt_length (nul_mem_variableLine name value)
  have hbound := hfits _ hbuilt
  rw [strlen_dupString] at hlength
  omega

end Lengths

/-- The lines of a configuration fit in the scratch buffers exactly when the complete records
that the loops get to are short enough: no reader and no copy looks at a length. -/
theorem lines_fit_iff (reading : Reading) (servers : Option (List ServerSetting)) (cfg : Config) :
    LinesFit reading servers cfg ↔ ShortRecords reading servers cfg := by
  constructor
  · intro hfit
    refine ⟨fun i hostname port hrecord hreaches => ?_,
      fun i name value hrecord hname hreaches => ?_, fun hstores i url hrecord hreaches => ?_⟩
    · have hline := forall_mem_scratchLines_iff.mp hfit.serverLines i _ hrecord hreaches
        (serverLine hostname port) rfl
      rwa [length_serverLine] at hline
    · have hline := forall_mem_scratchLines_iff.mp hfit.variableLines i _ hrecord hreaches
        (variableLine name value)
        (VariableSetting.line_eq_some_iff.mpr ⟨name, value, rfl, hname, rfl⟩)
      rwa [length_variableLine] at hline
    · have hurls := hfit.urlLines
      rw [Reading.urlLines, if_pos (reading.variableList_isSome_iff.mpr hstores)] at hurls
      have hline := forall_mem_scratchLines_iff.mp hurls i _ hrecord hreaches (dupString url) rfl
      rwa [length_dupString] at hline
  · intro hshort
    -- the copies that substitution works on are as long as the lines of the variables
    have hvariables : ∀ text ∈ reading.variableLines cfg, text.length ≤ maxLineLength := by
      refine forall_mem_scratchLines_iff.mpr fun i record hrecord hreaches text htext => ?_
      obtain ⟨name, value, rfl, hname, rfl⟩ := VariableSetting.line_eq_some_iff.mp htext
      rw [length_variableLine]
      exact hshort.variableBound i name value hrecord hname hreaches
    refine ⟨?_, hvariables, ?_, fun url _ text htext => reading.length_copies hvariables htext⟩
    · refine forall_mem_scratchLines_iff.mpr fun i record hrecord hreaches text htext => ?_
      obtain ⟨hostname, port, rfl, rfl⟩ := ServerSetting.line_eq_some_iff.mp htext
      rw [length_serverLine]
      exact hshort.serverBound i hostname port hrecord hreaches
    · rw [Reading.urlLines]
      split_ifs with hstores
      · -- the pages are read only when the variables were
        refine forall_mem_scratchLines_iff.mpr fun i record hrecord hreaches text htext => ?_
        obtain ⟨url, hurl, rfl⟩ := Option.map_eq_some_iff.mp htext
        obtain rfl : record = ⟨some url⟩ := by
          rw [← hurl]
        rw [length_dupString]
        exact hshort.urlBound (reading.variableList_isSome_iff.mp hstores) i url hrecord hreaches
      · exact fun text htext => absurd htext List.not_mem_nil

/-- A server whose hostname has 256 bytes: `sprintf` writes far behind `tmp`. -/
theorem server_line_overruns_tmp :
    let hostname := List.replicate 256 97 ++ [0]
    let reading : Reading := ⟨fun _ => true, fun _ => true, fun _ => true, 1⟩
    (serverLine hostname 11211).length = 263 ∧
      ¬ LinesFit reading (some [⟨some hostname, some 11211⟩]) ⟨none, none, none, none⟩ := by
  have hlength : strlen (List.replicate 256 97 ++ [0]) = 256 :=
    strlen_replicate_append_nul (by decide) 256
  generalize List.replicate 256 (97 : UInt8) ++ [0] = hostname at hlength
  have hline : (serverLine hostname 11211).length = 263 := by
    rw [length_serverLine, hlength]
    decide
  refine ⟨hline, fun hfit => ?_⟩
  have hbound := hfit.serverLines (serverLine hostname 11211) List.mem_cons_self
  rw [hline] at hbound
  exact absurd hbound (by decide)

end EasyForetell
