import EasyForetell.LineBounds
import EasyForetell.Substitution
import EasyForetell.UpdatePipeline

/-!
# The list readers and their consumers (config_utils.c, string_utils.c, queral.c)

`read_memcached_servers`, `read_variable_list` and `read_url_list` go over the records of a
setting with one index and over the slots of a new array with another, and report the number of
records. Their consumers stop at the first NULL, or behind as many slots as were reported.

The lines are always packed from the front. The one thing that can keep `read_url_list` from
returning them is a substitution that never ends.

## Main results

* `exists_packPages`, `readUrlList_packs`: what the loop over the pages leaves in the array
* `Packs.visitsOnce`: what the consumers of such an array go over
* `list_readers_pack_iff`: when all three readers return what they accept
-/

namespace EasyForetell

open Memory Theory

/-! ### What the consumers go over -/

/-- What `destroy_string_list` frees: strings, one after the other, and the array. -/
structure Freed where
  strings : List Block
  array : Bool

/-- `destroy_string_list`. Its loop has the condition of the one over the pages. -/
def destroyStringList (list : Option (List (Option Block))) (count : ℕ) : Freed :=
  match list with
  | none => ⟨[], false⟩
  | some slots => ⟨pagesOf count slots, true⟩

/-- What `substitute_variables` does with the line in a slot. -/
def substituteLine (calls strLength : ℕ) (state : VariableBuffers × Block) (line : Block) :
    Option (VariableBuffers × Block) :=
  let recovered := state.1.recover strLength line
  (replaceLoop strLength recovered calls state.2).map fun str => (recovered, str)

/-- The consumers of a list go over the lines, over each once and in order, and over nothing
else: the loop of `substitute_variables`, that of an UPDATE, and that of
`destroy_string_list`. -/
structure VisitsOnce (result : StringList) (lines : List Block) : Prop where
  substituted : ∀ calls strLength str,
    substituteVariables calls str strLength (result.list.getD []) result.count =
      (lines.foldlM (substituteLine calls strLength) (⟨[], []⟩, str)).map Prod.snd
  refreshed : ∀ name, ∀ i ≤ lines.length,
    (Action.mk name result.list result.count).refresh i = lines[i]?
  freed : destroyStringList result.list result.count = ⟨lines, true⟩

section Consumers

variable {result : StringList} {count : ℕ} {lines : List Block}

/-- The loops stop at the first NULL among the slots that are counted. -/
theorem pagesOf_eq_scan (count : ℕ) (slots : List (Option Block)) :
    pagesOf count slots = scan (slots.take count) := by
  induction slots generalizing count with
  | nil => simp [pagesOf, scan]
  | cons slot slots ih =>
    cases count with
    | zero => rfl
    | succ count =>
      cases slot with
      | none => rfl
      | some page => exact congrArg (page :: ·) (ih count)

theorem substituteLoop_eq_foldlM (calls strLength : ℕ) (slots : List (Option Block))
    (buffers : VariableBuffers) (str : Block) :
    substituteLoop calls strLength slots buffers str =
      ((scan slots).foldlM (substituteLine calls strLength) (buffers, str)).map Prod.snd := by
  induction slots generalizing buffers str with
  | nil => rfl
  | cons slot slots ih =>
    cases slot with
    | none => rfl
    | some line =>
      simp only [substituteLoop, scan, List.foldlM_cons, substituteLine]
      cases replaceLoop strLength (buffers.recover strLength line) calls str with
      | none => rfl
      | some between => exact ih _ between

/-- Where the lines are packed, both ways to stop come to the same. -/
theorem Packs.visitsOnce (hpacks : Packs result count lines) : VisitsOnce result lines := by
  obtain ⟨hcount, hfewer, hlist⟩ := hpacks
  have hslots : scan ((packed count lines).take count) = lines := by
    rw [List.take_of_length_le (length_packed hfewer).le, scan_packed]
  refine ⟨fun calls strLength str => ?_, fun name i hi => ?_, ?_⟩
  · rw [substituteVariables, substituteLoop_eq_foldlM, hlist, hcount, Option.getD_some, hslots]
  · have hpages : (Action.mk name result.list result.count).pages = lines := by
      rw [Action.pages, pagesOf_eq_scan, hlist, hcount]
      exact hslots
    rw [← hpages]
    exact Action.refresh_eq_getElem? (by rwa [hpages])
  · rw [hlist, hcount, destroyStringList, pagesOf_eq_scan, hslots]

end Consumers

/-! ### The pages -/

/-- What is stored for the URL of a page: a copy of what the substitution leaves of it. -/
def PageLine (variableList : StringList) (url line : Block) : Prop :=
  ∃ calls tmp, substituteVariables calls (strcpy [] url) maxLineLength
    (variableList.list.getD []) variableList.count = some tmp ∧ line = dupString tmp

section Pages

variable {calls more i : ℕ} {allocates : ℕ → Bool} {slots : List (Option Block)}
  {variableCount : ℕ} {records : List PageSetting} {packing : Packing}

/-- Texts that are packed come behind the lines that are there. -/
theorem Packing.slots_packAll {count : ℕ} {done texts : List Block}
    (hslots : packing.slots = packed count done) (hidx : packing.idx = done.length)
    (hroom : done.length + texts.length ≤ count) :
    (packing.packAll texts).slots = packed count (done ++ texts.map dupString) := by
  induction texts generalizing packing done with
  | nil => rw [List.map_nil, List.append_nil, ← hslots, packAll, List.foldl_nil]
  | cons text texts ih =>
    rw [List.length_cons] at hroom
    have hnext := ih (Packing.slots_pack text hslots hidx (by omega))
      (by rw [pack, hidx, List.length_append, List.length_singleton])
      (by rw [List.length_append, List.length_singleton]; omega)
    rwa [List.append_assoc] at hnext

/-- More calls do not change what the loop over the pages leaves. -/
theorem packPages_mono {result : Option (List (Option Block)) × List LogMessage}
    (hle : calls ≤ more)
    (hresult : packPages calls allocates slots variableCount i records packing = some result) :
    packPages more allocates slots variableCount i records packing = some result := by
  induction records generalizing i packing with
  | nil => exact hresult
  | cons record records ih =>
    rcases record with ⟨_ | url⟩
    · exact ih hresult
    · obtain ⟨tmp, htmp, hnext⟩ := Option.bind_eq_some_iff.mp hresult
      refine Option.bind_eq_some_iff.mpr ⟨tmp, substituteLoop_mono hle htmp, ?_⟩
      split_ifs at hnext ⊢ with hmemory
      · exact ih hnext
      · exact hnext

/-- Where the substitution ends for every page, the loop packs what it leaves of them. -/
theorem exists_packPages (hends : ∀ url ∈ records.filterMap PageSetting.url, ∃ calls tmp,
      substituteVariables calls (strcpy [] url) maxLineLength slots variableCount = some tmp)
    (i : ℕ) (packing : Packing) :
    ∃ calls texts logs, packPages calls (fun _ => true) slots variableCount i records packing =
        some (some (packing.packAll texts).slots, logs) ∧
      List.Forall₂ (fun url text => ∃ calls, substituteVariables calls (strcpy [] url)
          maxLineLength slots variableCount = some text)
        (records.filterMap PageSetting.url) texts := by
  induction records generalizing i packing with
  | nil => exact ⟨0, [], packing.logs, rfl, .nil⟩
  | cons record records ih =>
    rcases record with ⟨_ | url⟩
    · obtain ⟨calls, texts, logs, hpacked, htexts⟩ :=
        ih hends (i + 1) (packing.skip incompletePageMessage)
      rw [Packing.slots_packAll_skip] at hpacked
      exact ⟨calls, texts, logs, hpacked, htexts⟩
    · obtain ⟨hfirst, hlater⟩ := List.forall_mem_cons.mp hends
      obtain ⟨calls, tmp, htmp⟩ := hfirst
      obtain ⟨calls', texts, logs, hpacked, htexts⟩ := ih hlater (i + 1) (packing.pack tmp)
      -- the calls that are enough for the first page and for the others
      refine ⟨max calls calls', tmp :: texts, logs, ?_, .cons ⟨calls, htmp⟩ htexts⟩
      exact Option.bind_eq_some_iff.mpr ⟨tmp, substituteLoop_mono (Nat.le_max_left _ _) htmp,
        packPages_mono (Nat.le_max_right _ _) hpacked⟩

/-- Then `read_url_list` returns, whatever number of calls more it may make. -/
theorem readUrlList_packs {cfg : Config} (urlCount : ℕ) {maximumCount : ℕ}
    {variableList : StringList} (hcfg : cfg.cachePages = some records) (hsome : records ≠ [])
    (hmaximum : records.length ≤ maximumCount)
    (hends : ∀ url ∈ records.filterMap PageSetting.url, ∃ line, PageLine variableList url line) :
    ∃ urls lines enough, (∀ calls ≥ enough, readUrlList calls (fun _ => true) cfg urlCount
        maximumCount (variableList.list.getD []) variableList.count = some urls) ∧
      List.Forall₂ (PageLine variableList) (records.filterMap PageSetting.url) lines ∧
      Packs urls records.length lines := by
  obtain ⟨enough, texts, logs, hpacked, htexts⟩ := exists_packPages (fun url hurl => by
    obtain ⟨line, calls, tmp, htmp, -⟩ := hends url hurl
    exact ⟨calls, tmp, htmp⟩) 0 ⟨List.replicate records.length none, 0, []⟩
  have hfewer : ([] : List Block).length + texts.length ≤ records.length := by
    rw [← htexts.length_eq, List.length_nil, Nat.zero_add]
    exact List.length_filterMap_le _ _
  rw [Packing.slots_packAll packed_nil.symm rfl hfewer, List.nil_append] at hpacked
  refine ⟨⟨some (packed records.length (texts.map dupString)), records.length, logs⟩,
    texts.map dupString, enough, fun calls hcalls => ?_, ?_, rfl, ?_, rfl⟩
  · simp only [readUrlList, hcfg, if_neg (Nat.not_lt_of_le hmaximum),
      initStringList_of_ne_nil hsome, packPages_mono hcalls hpacked, Option.map_some]
  · rw [List.forall₂_map_right_iff]
    exact htexts.imp fun url text ⟨calls, htmp⟩ => ⟨calls, text, htmp, rfl⟩
  · rw [List.length_map]
    simpa using hfewer

end Pages

/-! ### The variables -/

/-- The variable that a record with a valid name makes, if its line fits. -/
def VariableSetting.stored (record : VariableSetting) : Option StoredVariable :=
  match record.name, record.value with
  | some name, some value =>
    if h : varSeparator ∉ cstr name ∧ strlen name + strlen value + 2 < maxLineLength then
      some (StoredVariable.ofRecord name value h.1 h.2)
    else none
  | _, _ => none

section Variables

variable {settings : List VariableSetting} {result : StringList} {count : ℕ}
  {vars : List StoredVariable} {url : Block}

theorem VariableSetting.map_line {record : VariableSetting}
    (hfits : ∀ text ∈ record.line, text.length ≤ maxLineLength) :
    record.line.map dupString = record.stored.map StoredVariable.line := by
  rcases record with ⟨_ | name, _ | value⟩
  case some.some =>
    by_cases hname : varSeparator ∈ cstr name
    · have hnone : line ⟨some name, some value⟩ = none := by
        simp [line, Option.isSome_iff_ne_none, strchr_eq_none_iff, hname]
      have hstored : stored ⟨some name, some value⟩ = none := dif_neg fun h => h.1 hname
      rw [hnone, hstored]
      rfl
    · have hline : line ⟨some name, some value⟩ = some (variableLine name value) :=
        line_eq_some_iff.mpr ⟨name, value, rfl, hname, rfl⟩
      have hshort := hfits _ hline
      rw [length_variableLine] at hshort
      have hstored : stored ⟨some name, some value⟩ =
          some (.ofRecord name value hname (by omega)) :=
        dif_pos ⟨hname, by omega⟩
      rw [hline, hstored, Option.map_some, Option.map_some, StoredVariable.line_ofRecord]
  all_goals rfl

/-- The lines that are stored are those of the variables. -/
theorem lines_eq_stored
    (hfits : ∀ record ∈ settings, ∀ text ∈ record.line, text.length ≤ maxLineLength) :
    (settings.filterMap VariableSetting.line).map dupString =
      (settings.filterMap VariableSetting.stored).map StoredVariable.line := by
  rw [List.map_filterMap, List.map_filterMap]
  exact List.filterMap_congr fun record hrecord => VariableSetting.map_line (hfits record hrecord)

/-- On the packed lines of variables the substitution goes over the variables. -/
theorem Packs.substituteVariables_eq (hpacks : Packs result count (vars.map StoredVariable.line))
    (calls : ℕ) (str : Block) :
    substituteVariables calls str maxLineLength (result.list.getD []) result.count =
      substituteLoop calls maxLineLength (storedLines vars) ⟨[], []⟩ str := by
  have hslots : scan (storedLines vars) = vars.map StoredVariable.line := by
    have hscan := scan_map_some_append (vars.map StoredVariable.line) []
    rw [List.append_nil, List.map_map] at hscan
    exact hscan.trans (List.append_nil _)
  rw [hpacks.visitsOnce.substituted, substituteLoop_eq_foldlM, hslots]

/-- A page gets its line if and only if no variable refers to itself where it has its turn. -/
theorem exists_pageLine_iff (hpacks : Packs result count (vars.map StoredVariable.line)) :
    (∃ line, PageLine result url line) ↔
      ∀ v text, Turn vars (cstr url) v text → ¬ v.SelfReferring text := by
  have hends := @substituteLoop_ends_iff vars ⟨[], []⟩ (strcpy [] url)
  rw [cstr_strcpy] at hends
  rw [← hends]
  simp only [PageLine, hpacks.substituteVariables_eq]
  constructor
  · rintro ⟨-, calls, tmp, htmp, -⟩
    exact ⟨calls, tmp, htmp⟩
  · rintro ⟨calls, tmp, htmp⟩
    exact ⟨dupString tmp, calls, tmp, htmp, rfl⟩

end Variables

/-! ### All three lists -/

/-- The three readers return the lines of the records that they accept, packed, and the consumers
go over each of them once. What is accepted of the pages is their URL, and its line is what the
substitution with the variables makes of it. -/
structure ListsPacked (servers : List ServerSetting) (settings : List VariableSetting)
    (pages : List PageSetting) (serverList variableList : StringList)
    (urlList : ℕ → Option StringList) : Prop where
  servers_packed : Packs serverList servers.length
    ((servers.filterMap ServerSetting.line).map dupString)
  servers_visited : VisitsOnce serverList ((servers.filterMap ServerSetting.line).map dupString)
  variables_packed : Packs variableList settings.length
    ((settings.filterMap VariableSetting.line).map dupString)
  variables_visited : VisitsOnce variableList
    ((settings.filterMap VariableSetting.line).map dupString)
  pages_returned : ∃ urls lines enough, (∀ calls ≥ enough, urlList calls = some urls) ∧
    List.Forall₂ (PageLine variableList) (pages.filterMap PageSetting.url) lines ∧
      Packs urls pages.length lines ∧ VisitsOnce urls lines

/-- With memory for every line, lists that are neither empty nor too long are returned packed if
and only if no page meets a variable that refers to itself, in the text in which that has its
turn: such a page keeps `read_url_list` from returning. -/
theorem list_readers_pack_iff (cfg : Config) (servers : List ServerSetting)
    (settings : List VariableSetting) (pages : List PageSetting)
    (serverCount variableCount urlCount variableMaximum urlMaximum : ℕ) (hservers : servers ≠ [])
    (hvariables : cfg.cacheVariables = some settings) (hsettings : settings ≠ [])
    (hsettingsMaximum : settings.length ≤ variableMaximum)
    (hfits : ∀ record ∈ settings, ∀ text ∈ record.line, text.length ≤ maxLineLength)
    (hurls : cfg.cachePages = some pages) (hpages : pages ≠ [])
    (hpagesMaximum : pages.length ≤ urlMaximum) :
    let variableList := readVariableList (fun _ => true) cfg variableCount variableMaximum
    ListsPacked servers settings pages
        (readMemcachedServers (fun _ => true) (some servers) serverCount) variableList
        (fun calls => readUrlList calls (fun _ => true) cfg urlCount urlMaximum
          (variableList.list.getD []) variableList.count) ↔
      ∀ url ∈ pages.filterMap PageSetting.url, ∀ v text,
        Turn (settings.filterMap VariableSetting.stored) (cstr url) v text →
          ¬ v.SelfReferring text := by
  intro variableList
  have hserversPacked := readMemcachedServers_packs serverCount hservers
  have hpacked := readVariableList_packs_lines variableCount hvariables hsettings hsettingsMaximum
  -- no line is too long, so the lines are those of the variables stored
  have hstored := hpacked
  rw [lines_eq_stored hfits] at hstored
  constructor
  · intro hlists url hurl
    obtain ⟨-, lines, -, -, hlines, -⟩ := hlists.pages_returned
    have hall : ∀ url ∈ pages.filterMap PageSetting.url, ∃ line, PageLine variableList url line :=
      ((List.forall₂_and_left _ _).mp (hlines.imp fun url line hline => ⟨⟨line, hline⟩, hline⟩)).1
    exact (exists_pageLine_iff hstored).mp (hall url hurl)
  · intro hnone
    obtain ⟨urls, lines, enough, hreturns, hlines, hurlsPacked⟩ :=
      readUrlList_packs urlCount hurls hpages hpagesMaximum
        fun url hurl => (exists_pageLine_iff hstored).mpr (hnone url hurl)
    exact ⟨hserversPacked, hserversPacked.visitsOnce, hpacked, hpacked.visitsOnce,
      urls, lines, enough, hreturns, hlines, hurlsPacked, hurlsPacked.visitsOnce⟩

/-- A configuration with one record for the variable `a` and one page. -/
def onePage (value url : List UInt8) : Config :=
  ⟨none, none, some [⟨some (ascii "a"), some value⟩], some [⟨some url⟩]⟩

/-- What `read_url_list` returns for its page, with the variables of the same configuration. -/
def onePageList (value url : List UInt8) (calls : ℕ) : Option StringList :=
  let variableList := readVariableList (fun _ => true) (onePage value url) 0 variableMaxCount
  readUrlList calls (fun _ => true) (onePage value url) 0 urlMaxCount (variableList.list.getD [])
    variableList.count

/-- The variable `a` with the value `b`, and a page that refers to it. -/
theorem list_readers_pack_word :
    ListsPacked [⟨some (ascii "localhost"), some 11211⟩] [⟨some (ascii "a"), some (ascii "b")⟩]
      [⟨some (ascii "$a")⟩]
      (readMemcachedServers (fun _ => true) (some [⟨some (ascii "localhost"), some 11211⟩]) 0)
      (readVariableList (fun _ => true) (onePage (ascii "b") (ascii "$a")) 0 variableMaxCount)
      (onePageList (ascii "b") (ascii "$a")) := by
  refine (list_readers_pack_iff (onePage (ascii "b") (ascii "$a")) _ _ _ 0 0 0 variableMaxCount
    urlMaxCount (List.cons_ne_nil _ _) rfl (List.cons_ne_nil _ _) (by decide) ?_ rfl
    (List.cons_ne_nil _ _) (by decide)).mpr ?_
  · intro record hrecord text htext
    obtain rfl := List.mem_singleton.mp hrecord
    obtain rfl : variableLine (ascii "a") (ascii "b") = text := Option.some.inj htext
    decide
  · intro url _ v text hturn hself
    have hstored : [VariableSetting.mk (some (ascii "a")) (some (ascii "b"))].filterMap
        VariableSetting.stored =
          [.ofRecord (ascii "a") (ascii "b") (by decide) (by decide)] := by decide
    rw [hstored] at hturn
    cases hturn with
    | now => exact absurd hself.1 (by decide)
    | later hfirst hturn => cases hturn

/-- The variable `a` with an empty value: `read_url_list` does not return for the page `$a`. -/
theorem list_readers_hang_on_blank_value :
    (∀ text ∈ [serverLine (ascii "localhost") 11211, variableLine (ascii "a") [],
        ascii "$a" ++ [0]], text.length ≤ maxLineLength) ∧
      (∀ calls, onePageList [] (ascii "$a") calls = none) ∧
      ¬ ListsPacked [⟨some (ascii "localhost"), some 11211⟩] [⟨some (ascii "a"), some []⟩]
        [⟨some (ascii "$a")⟩]
        (readMemcachedServers (fun _ => true) (some [⟨some (ascii "localhost"), some 11211⟩]) 0)
        (readVariableList (fun _ => true) (onePage [] (ascii "$a")) 0 variableMaxCount)
        (onePageList [] (ascii "$a")) := by
  let v : StoredVariable := .ofRecord (ascii "a") [] (by decide) (by decide)
  have hcfg : (onePage [] (ascii "$a")).cacheVariables = some [⟨some (ascii "a"), some []⟩] := rfl
  have hpacks : Packs (readVariableList (fun _ => true) (onePage [] (ascii "$a")) 0
      variableMaxCount) 1 ([v].map StoredVariable.line) :=
    readVariableList_packs_lines 0 hcfg (List.cons_ne_nil _ _) (by decide)
  -- the value is blank, so the variable is recovered as its own reference
  have hself : v.SelfReferring (cstr (ascii "$a")) :=
    ⟨by decide, ascii "$a", by unfold StoredVariable.Replaces; decide⟩
  have hreturns : ∀ calls, onePageList [] (ascii "$a") calls = none := by
    intro calls
    have hnone : substituteVariables calls (strcpy [] (ascii "$a")) maxLineLength
        ((readVariableList (fun _ => true) (onePage [] (ascii "$a")) 0
          variableMaxCount).list.getD [])
        (readVariableList (fun _ => true) (onePage [] (ascii "$a")) 0 variableMaxCount).count =
          none := by
      by_contra hsome
      obtain ⟨tmp, htmp⟩ := Option.ne_none_iff_exists'.mp hsome
      exact (exists_pageLine_iff hpacks).mp ⟨_, calls, tmp, htmp, rfl⟩ v _ .now hself
    simp only [onePageList, readUrlList, onePage] at hnone ⊢
    simp [initStringList, packPages, urlMaxCount, hnone]
  refine ⟨by decide, hreturns, fun hlists => ?_⟩
  -- the pages would have to be returned within some number of calls
  obtain ⟨urls, lines, enough, hurls, -⟩ := hlists.pages_returned
  have hlater := hurls enough (Nat.le_refl enough)
  rw [hreturns enough] at hlater
  cases hlater

end EasyForetell
