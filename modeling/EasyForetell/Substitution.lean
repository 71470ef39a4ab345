import EasyForetell.Packing
import EasyForetell.Theory.Template

/-!
# Variable substitution (config_utils.c, substitute_variables)

The strings that `substitute_variables` recovers from a stored line, and its loop
on strings: an instance of the bounded rewriting loop. A variable whose stored
value reads back as its own reference makes the loop run forever once the
reference occurs; on templates whose references can be told apart the passes over
the variables expand the template.

## Main results

* `recover_line`: what is recovered from a stored line
* `replacement_loop_ends_iff`: exactly when the loop for one variable ends
* `substitution_ends_iff`: exactly when the substitution ends
* `variable_survives_iff`: when an accepted record is recovered as it was configured
* `substitution_expands_template`: what it leaves of a template
-/

namespace EasyForetell

open Memory Theory

/-- `'$'`. -/
def variableMark : UInt8 := 36

/-! ### Stored variables -/

/-- A variable that `read_variable_list` accepts and whose line fits in a line
buffer. -/
structure StoredVariable where
  name : List UInt8
  value : List UInt8
  name_nulFree : (0 : UInt8) ∉ name
  value_nulFree : (0 : UInt8) ∉ value
  name_noSpace : varSeparator ∉ name
  line_fits : name.length + value.length + 2 < maxLineLength
  deriving DecidableEq

namespace StoredVariable

/-- The record in the configuration. -/
def setting (v : StoredVariable) : VariableSetting := ⟨some v.name, some v.value⟩

/-- The line stored for the variable. -/
def line (v : StoredVariable) : Block := dupString (variableLine v.name v.value)

/-- How the variable is referred to in a URL. -/
def reference (v : StoredVariable) : List UInt8 := variableMark :: v.name

/-- The value that is read back: the first word of the stored one, or the
reference when there is none. -/
def recovered (v : StoredVariable) : List UInt8 :=
  let word := (v.value.dropWhile (· == varSeparator)).takeWhile (· != varSeparator)
  if word = [] then v.reference else word

theorem separator_notMem_reference (v : StoredVariable) : varSeparator ∉ v.reference := by
  intro hmem
  rcases List.mem_cons.mp hmem with hmark | hname
  · cases hmark
  · exact v.name_noSpace hname

theorem line_eq (v : StoredVariable) :
    v.line = (v.reference ++ varSeparator :: v.value) ++ [0] := by
  have hline : variableLine v.name v.value =
      (v.reference ++ varSeparator :: v.value) ++ 0 :: [] := by
    rw [variableLine, cstr_of_nulFree v.name_nulFree, cstr_of_nulFree v.value_nulFree]
    simp [reference, variableMark, ascii]
  rw [line, dupString, hline, cstr_append_nul]
  simp [reference, variableMark, varSeparator, v.name_nulFree, v.value_nulFree]

theorem cstr_line (v : StoredVariable) : cstr v.line = v.reference ++ varSeparator :: v.value := by
  rw [line_eq]
  refine cstr_append_nul ?_
  simp [reference, variableMark, varSeparator, v.name_nulFree, v.value_nulFree]

variable {v : StoredVariable}

theorem recovered_of_word (hsome : v.value ≠ [])
    (hspace : varSeparator ∉ v.value) : v.recovered = v.value := by
  have hall : ∀ c ∈ v.value, (c != varSeparator) = true := by
    intro c hc
    simpa using fun h : c = varSeparator => hspace (h ▸ hc)
  have hstart : v.value.dropWhile (· == varSeparator) = v.value := by
    obtain ⟨c, value, hvalue⟩ := List.exists_cons_of_ne_nil hsome
    have hc := hall c (by simp [hvalue])
    rw [hvalue, List.dropWhile_cons_of_neg (by simpa using hc)]
  have hword : v.value.takeWhile (· != varSeparator) = v.value :=
    List.takeWhile_eq_self_iff.mpr hall
  rw [recovered, hstart, hword, if_neg hsome]

/-- A variable reads back as it was configured if and only if its value is a word. -/
theorem recovered_eq_value_iff : v.recovered = v.value ↔ v.value ≠ [] ∧ varSeparator ∉ v.value := by
  constructor
  · intro hvalue
    rw [← hvalue, recovered]
    split_ifs with hblank
    · exact ⟨List.cons_ne_nil _ _, v.separator_notMem_reference⟩
    · exact ⟨hblank, fun hmem => by simpa using List.mem_takeWhile_imp hmem⟩
  · rintro ⟨hsome, hspace⟩
    exact recovered_of_word hsome hspace

end StoredVariable

section Recovering

variable (buffers : VariableBuffers) (v : StoredVariable)

/-- The first call of `strtok` cuts the reference off the line. -/
theorem strtok_line (block : Block) :
    strtok varSeparator (strcpy block v.line) 0 = some
      ⟨store (strcpy block v.line) v.reference.length [0], 0, v.reference.length + 1⟩ := by
  have htext : cstr ((strcpy block v.line).drop 0) =
      [] ++ v.reference ++ varSeparator :: v.value := by
    rw [List.drop_zero, cstr_strcpy, v.cstr_line]
    rfl
  have hfirst := strtok_of_token htext (by simp) v.separator_notMem_reference
    (by simp [StoredVariable.reference]) (by simp)
  simpa using hfirst

/-- What the first call of `strtok` leaves behind its token is the value. -/
theorem drop_strtok_line (block : Block) :
    let first := store (strcpy block v.line) v.reference.length [0]
    cstr first = v.reference ∧ cstr (first.drop (v.reference.length + 1)) = v.value ∧
      (0 : UInt8) ∈ first.drop (v.reference.length + 1) := by
  intro first
  have hstring : cstr (strcpy block v.line) = v.reference ++ varSeparator :: v.value := by
    rw [cstr_strcpy, v.cstr_line]
  have hlength : strlen (strcpy block v.line) = v.reference.length + (v.value.length + 1) := by
    rw [strlen, hstring, List.length_append, List.length_cons]
  have hinside : v.reference.length ≤ (strcpy block v.line).length := by
    have := strlen_le_length (strcpy block v.line)
    omega
  have hdrop : first.drop (v.reference.length + 1) =
      (strcpy block v.line).drop (v.reference.length + 1) :=
    drop_store_of_length [0] hinside
  refine ⟨?_, ?_, ?_⟩
  · rw [cstr_store_nul (by omega), hstring, List.take_left]
  · rw [hdrop, cstr_drop (by omega), hstring, List.drop_length_add_append]
    rfl
  · rw [hdrop]
    exact nul_mem_drop (mem_store (by simp)) (by omega)

end Recovering

/-- `substitute_variables` recovers the reference, and the first word of the value. -/
theorem recover_line (buffers : VariableBuffers) (v : StoredVariable) :
    cstr (buffers.recover maxLineLength v.line).nameBuffer = v.reference ∧
      cstr (buffers.recover maxLineLength v.line).variableBuffer = v.recovered := by
  obtain ⟨hname, hvalue, hnul⟩ := drop_strtok_line v buffers.variableBuffer
  simp only [VariableBuffers.recover, strtok_line]
  generalize store (strcpy buffers.variableBuffer v.line) v.reference.length [0] = first at *
  by_cases hblank : ∀ c ∈ v.value, c = varSeparator
  · -- nothing behind the separator: `variable` still holds the reference
    have hnothing : v.value.dropWhile (· == varSeparator) = [] := by simpa using hblank
    have hrecovered : v.recovered = v.reference := by
      rw [StoredVariable.recovered, hnothing]
      exact if_pos rfl
    rw [strtok_eq_none_iff.mpr (hvalue ▸ hblank)]
    exact ⟨by rw [cstr_strcpy, List.drop_zero, hname], hname.trans hrecovered.symm⟩
  · -- the second call of `strtok` finds the first word of the value
    obtain ⟨spaces, word, rest, hsplit, hspaces, hword, hsome, hrest, hfirst, -⟩ :=
      exists_first_token hblank
    obtain ⟨second, hsecond, hstring, hnul'⟩ :=
      cstr_drop_of_strtok hnul (hvalue.trans hsplit) hspaces hword hsome hrest
    have hrecovered : v.recovered = word := by
      rw [StoredVariable.recovered, ← hfirst]
      exact if_neg hsome
    have hshort : strlen (second.block.drop second.start) < maxLineLength := by
      have hlength := congrArg List.length hsplit
      have := v.line_fits
      rw [List.length_append, List.length_append] at hlength
      rw [strlen, hstring]
      omega
    rw [hsecond]
    refine ⟨by rw [cstr_strcpy, List.drop_zero, hname], ?_⟩
    rw [hrecovered, cstr_memmove hnul' hshort, hstring]

/-! ### The loop for one variable -/

section Loop

variable (strLength : ℕ) (buffers : VariableBuffers)

/-- On strings the loop is the bounded rewriting loop. -/
theorem map_replaceLoop (calls : ℕ) (str : Block) :
    (replaceLoop strLength buffers calls str).map cstr =
      rewriteAll (LengthTests strLength (cstr buffers.variableBuffer)) (cstr buffers.nameBuffer)
        (cstr buffers.variableBuffer) calls (cstr str) := by
  induction calls generalizing str with
  | zero => rfl
  | succ calls ih =>
    -- `replace_string` and one try on the string agree on all three outcomes
    have hspec := replaceString_spec str strLength buffers.nameBuffer buffers.variableBuffer
    rw [replaceLoop, rewriteAll]
    rw [replaceText] at hspec
    cases htry : rewriteFirst (LengthTests strLength (cstr buffers.variableBuffer))
        (cstr buffers.nameBuffer) (cstr buffers.variableBuffer) (cstr str) with
    | absent =>
      rw [htry] at hspec
      simp [hspec]
    | refused =>
      rw [htry] at hspec
      simp [hspec]
    | rewritten text =>
      rw [htry] at hspec
      obtain ⟨htext, hres⟩ := hspec
      simp only [hres, if_true]
      rw [ih, htext]

variable {strLength buffers} {str text : Block} {calls : ℕ}

theorem replaceLoop_mono {more : ℕ} (hle : calls ≤ more)
    (hresult : replaceLoop strLength buffers calls str = some text) :
    replaceLoop strLength buffers more str = some text := by
  induction calls generalizing str more with
  | zero => cases hresult
  | succ calls ih =>
    obtain ⟨more, rfl⟩ := Nat.exists_eq_add_of_le' (Nat.le_trans (Nat.succ_pos calls) hle)
    simp only [replaceLoop] at hresult ⊢
    split_ifs at hresult ⊢ with hreplaced
    · exact ih (Nat.le_of_succ_le_succ hle) hresult
    · exact hresult

/-- The loop ends if and only if the value differs from the reference, or the
first call of `replace_string` already replaces nothing. -/
theorem replaceLoop_ends_iff :
    (∃ calls text, replaceLoop strLength buffers calls str = some text) ↔
      ¬ (cstr buffers.variableBuffer = cstr buffers.nameBuffer ∧
        ∃ text, replaceText strLength (cstr buffers.nameBuffer) (cstr buffers.variableBuffer)
          (cstr str) = .rewritten text) := by
  -- the length tests do not bound the sum, but they bound both its parts
  have hbound : ∀ before after, LengthTests strLength (cstr buffers.variableBuffer) before after →
      (before ++ cstr buffers.variableBuffer ++ after).length < 2 * strLength := by
    rintro before after ⟨hbefore, hafter⟩
    simp only [List.length_append]
    omega
  rw [replaceText, ← rewriteAll_ends_iff hbound]
  constructor
  · rintro ⟨calls, text, hresult⟩
    exact ⟨calls, cstr text, by rw [← map_replaceLoop, hresult]; rfl⟩
  · rintro ⟨calls, result, hresult⟩
    rw [← map_replaceLoop] at hresult
    obtain ⟨text, htext, -⟩ := Option.map_eq_some_iff.mp hresult
    exact ⟨calls, text, htext⟩

end Loop

/-- In a text within the bound a value that is no longer than the name is put wherever
the name occurs. -/
theorem exists_replaceText_iff {strLength : ℕ} {original replacement str : List UInt8}
    (hlength : replacement.length ≤ original.length) (hshort : str.length < strLength) :
    (∃ text, replaceText strLength original replacement str = .rewritten text) ↔
      original <:+: str := by
  constructor
  · rintro ⟨text, hrewritten⟩
    obtain ⟨before, after, hsplit, -, -⟩ := rewriteFirst_eq_rewritten hrewritten
    exact ⟨before, after, hsplit.symm⟩
  · intro hoccurs
    -- both tests look at a part of what the text has already
    refine exists_rewritten replacement hoccurs fun before after hsplit => ?_
    have htotal := congrArg List.length hsplit
    simp only [List.length_append] at htotal
    exact ⟨by omega, by omega⟩

/-- On a string within the bound the loop ends if and only if the name does not occur
in it or the value differs from the name. -/
theorem replacement_loop_ends_iff (strLength : ℕ) (str name value : Block)
    (hshort : strlen str < strLength) :
    (∃ calls text, replaceLoop strLength ⟨value, name⟩ calls str = some text) ↔
      ¬ cstr name <:+: cstr str ∨ cstr value ≠ cstr name := by
  rw [replaceLoop_ends_iff, not_and_or, or_comm]
  by_cases hsame : cstr value = cstr name
  · have hreplaced : (∃ text, replaceText strLength (cstr name) (cstr value) (cstr str) =
        .rewritten text) ↔ cstr name <:+: cstr str :=
      exists_replaceText_iff (by rw [hsame]) hshort
    rw [hreplaced]
  · exact iff_of_true (Or.inr hsame) (Or.inr hsame)

/-- Every replacement brings a new occurrence of the name, until a length test refuses. -/
theorem replacement_loop_ends_growing :
    strlen (ascii "$a") < 8 ∧ ∃ calls text,
      replaceLoop 8 ⟨ascii "$ab", ascii "$a"⟩ calls (ascii "$a") = some text :=
  have hshort : strlen (ascii "$a") < 8 := by decide
  ⟨hshort, (replacement_loop_ends_iff 8 (ascii "$a") (ascii "$a") (ascii "$ab") hshort).mpr
    (Or.inr (by decide))⟩

/-! ### The loop over the variables -/

/-- The slots of a list of stored variables. -/
def storedLines (vars : List StoredVariable) : List (Option Block) :=
  vars.map fun v => some v.line

/-- `replace_string` replaces a reference to the variable in a text. -/
def StoredVariable.Replaces (v : StoredVariable) (text text' : List UInt8) : Prop :=
  replaceText maxLineLength v.reference v.recovered text = .rewritten text'

/-- What a variable makes of a text: its references are replaced while that goes. -/
def StoredVariable.Substitutes (v : StoredVariable) (text text' : List UInt8) : Prop :=
  Relation.ReflTransGen v.Replaces text text' ∧ ∀ text'', ¬ v.Replaces text' text''

/-- A variable whose stored value reads back as its own reference, in a text in
which that reference is replaced. -/
def StoredVariable.SelfReferring (v : StoredVariable) (text : List UInt8) : Prop :=
  v.recovered = v.reference ∧ ∃ text', v.Replaces text text'

/-- A variable has its turn in a text: the variables before it have made that text of
the first one, each in its turn. -/
inductive Turn : List StoredVariable → List UInt8 → StoredVariable → List UInt8 → Prop
  | now {v : StoredVariable} {vars : List StoredVariable} {text : List UInt8} :
      Turn (v :: vars) text v text
  | later {v w : StoredVariable} {vars : List StoredVariable} {text between found : List UInt8}
      (hfirst : w.Substitutes text between) (hturn : Turn vars between v found) :
      Turn (w :: vars) text v found

section Variables

variable {vars : List StoredVariable} {buffers : VariableBuffers} {str text : Block} {calls : ℕ}

theorem substituteLoop_cons (calls : ℕ) (v : StoredVariable) (vars : List StoredVariable)
    (buffers : VariableBuffers) (str : Block) :
    substituteLoop calls maxLineLength (storedLines (v :: vars)) buffers str =
      (replaceLoop maxLineLength (buffers.recover maxLineLength v.line) calls str).bind
        (substituteLoop calls maxLineLength (storedLines vars)
          (buffers.recover maxLineLength v.line)) := rfl

theorem substituteLoop_mono {more strLength : ℕ} {slots : List (Option Block)} (hle : calls ≤ more)
    (hresult : substituteLoop calls strLength slots buffers str = some text) :
    substituteLoop more strLength slots buffers str = some text := by
  induction slots generalizing buffers str with
  | nil => exact hresult
  | cons slot slots ih =>
    cases slot with
    | none => exact hresult
    | some line =>
      obtain ⟨between, hloop, hrest⟩ := Option.bind_eq_some_iff.mp hresult
      exact Option.bind_eq_some_iff.mpr ⟨between, replaceLoop_mono hle hloop, ih hrest⟩

/-- Enough calls for the first variable and for the others are enough for all. -/
theorem substituteLoop_cons_of_loop {v : StoredVariable} {calls' : ℕ} {between : Block}
    (hloop : replaceLoop maxLineLength (buffers.recover maxLineLength v.line) calls str =
      some between)
    (hrest : substituteLoop calls' maxLineLength (storedLines vars)
      (buffers.recover maxLineLength v.line) between = some text) :
    substituteLoop (max calls calls') maxLineLength (storedLines (v :: vars)) buffers str =
      some text := by
  rw [substituteLoop_cons, replaceLoop_mono (Nat.le_max_left calls calls') hloop]
  exact substituteLoop_mono (Nat.le_max_right calls calls') hrest

/-- The loop for a stored variable leaves what the variable makes of the text. -/
theorem replaceLoop_line_iff {v : StoredVariable} {result : List UInt8} :
    (∃ calls text, replaceLoop maxLineLength (buffers.recover maxLineLength v.line) calls str =
        some text ∧ cstr text = result) ↔ v.Substitutes (cstr str) result := by
  obtain ⟨hname, hvalue⟩ := recover_line buffers v
  have hloop : (∃ tries, rewriteAll (LengthTests maxLineLength v.recovered) v.reference v.recovered
      tries (cstr str) = some result) ↔ v.Substitutes (cstr str) result := exists_rewriteAll_iff
  refine Iff.trans ?_ hloop
  have hmap := fun calls => map_replaceLoop maxLineLength (buffers.recover maxLineLength v.line)
    calls str
  rw [hname, hvalue] at hmap
  simp only [← hmap, Option.map_eq_some_iff]

/-- It ends unless the variable refers to itself. -/
theorem replaceLoop_line_ends_iff (v : StoredVariable) :
    (∃ calls text, replaceLoop maxLineLength (buffers.recover maxLineLength v.line) calls str =
        some text) ↔ ¬ v.SelfReferring (cstr str) := by
  obtain ⟨hname, hvalue⟩ := recover_line buffers v
  rw [replaceLoop_ends_iff, hname, hvalue]
  rfl

/-- Two runs of the loop with enough calls leave the same text. -/
theorem replaceLoop_unique {calls' : ℕ} {text' : Block}
    (hresult : replaceLoop maxLineLength buffers calls str = some text)
    (hresult' : replaceLoop maxLineLength buffers calls' str = some text') : text = text' := by
  have hmore := replaceLoop_mono (Nat.le_max_left calls calls') hresult
  have hmore' := replaceLoop_mono (Nat.le_max_right calls calls') hresult'
  exact Option.some.inj (hmore.symm.trans hmore')

/-- The loop over the variables ends if and only if no variable refers to itself
in the text in which it has its turn. -/
theorem substituteLoop_ends_iff :
    (∃ calls text, substituteLoop calls maxLineLength (storedLines vars) buffers str =
        some text) ↔
      ∀ v text, Turn vars (cstr str) v text → ¬ v.SelfReferring text := by
  induction vars generalizing buffers str with
  | nil => exact iff_of_true ⟨0, str, rfl⟩ fun v text hturn => by cases hturn
  | cons w vars ih =>
    constructor
    · rintro ⟨calls, result, hresult⟩ v text hturn
      rw [substituteLoop_cons] at hresult
      obtain ⟨between, hloop, hrest⟩ := Option.bind_eq_some_iff.mp hresult
      cases hturn with
      | now => exact (replaceLoop_line_ends_iff w).mp ⟨calls, between, hloop⟩
      | later hfirst hturn =>
        -- the loop left the one text that the first variable makes
        obtain ⟨calls', between', hloop', rfl⟩ := replaceLoop_line_iff.mpr hfirst
        obtain rfl := replaceLoop_unique hloop hloop'
        exact ih.mp ⟨calls, result, hrest⟩ v text hturn
    · intro hnone
      obtain ⟨calls, between, hloop⟩ := (replaceLoop_line_ends_iff w).mpr (hnone w _ .now)
      have hfirst := replaceLoop_line_iff.mp ⟨calls, between, hloop, rfl⟩
      obtain ⟨calls', result, hrest⟩ :=
        ih.mpr fun v text hturn => hnone v text (.later hfirst hturn)
      exact ⟨max calls calls', result, substituteLoop_cons_of_loop hloop hrest⟩

end Variables

/-! ### From the configuration -/

/-- The lines of the records that make variables. -/
theorem lines_setting (vars : List StoredVariable) :
    ((vars.map StoredVariable.setting).filterMap VariableSetting.line).map dupString =
      vars.map StoredVariable.line := by
  have hline : ∀ v : StoredVariable, v.setting.line = some (variableLine v.name v.value) := by
    intro v
    refine VariableSetting.line_eq_some_iff.mpr ⟨v.name, v.value, rfl, ?_, rfl⟩
    rw [cstr_of_nulFree v.name_nulFree]
    exact v.name_noSpace
  induction vars with
  | nil => rfl
  | cons v vars ih =>
    rw [List.map_cons, List.filterMap_cons_some (hline v), List.map_cons, ih]
    rfl

/-- The list `read_variable_list` stores for accepted records. -/
theorem readVariableList_stored {cfg : Config} {vars : List StoredVariable}
    (hcfg : cfg.cacheVariables = some (vars.map StoredVariable.setting)) {maximumCount : ℕ}
    (hcount : vars.length ≤ maximumCount) (variableCount : ℕ) :
    (readVariableList (fun _ => true) cfg variableCount maximumCount).list.getD [] =
        storedLines vars ∧
      (readVariableList (fun _ => true) cfg variableCount maximumCount).count = vars.length := by
  by_cases hnone : vars = []
  · simp [readVariableList, hcfg, initStringList, storedLines, hnone]
  · have hlength : (vars.map StoredVariable.setting).length = vars.length := List.length_map _
    obtain ⟨hstored, -, hlist⟩ := readVariableList_packs_lines variableCount hcfg
      (fun hmap => hnone (List.map_eq_nil_iff.mp hmap)) (hlength.trans_le hcount)
    have hfull : packed vars.length (vars.map StoredVariable.line) = storedLines vars := by
      have hpacked := packed_length (vars.map StoredVariable.line)
      rwa [List.length_map, List.map_map] at hpacked
    rw [hlist, hstored, hlength, lines_setting, hfull]
    exact ⟨rfl, rfl⟩

/-- `read_variable_list` stores the line of every record that it accepts. -/
theorem readVariableList_packs {allocates : ℕ → Bool} {cfg : Config}
    {variableCount maximumCount : ℕ} {slots : List (Option Block)} {records : List VariableSetting}
    (hlist : (readVariableList allocates cfg variableCount maximumCount).list = some slots)
    (hcfg : cfg.cacheVariables = some records) {name value : Block}
    (hrecord : ⟨some name, some value⟩ ∈ records) (hname : varSeparator ∉ cstr name) :
    some (dupString (variableLine name value)) ∈ slots := by
  have hline := VariableSetting.line_eq_some_iff.mpr ⟨name, value, rfl, hname, rfl⟩
  simp only [readVariableList, hcfg, initStringList_of_ne_nil (List.ne_nil_of_mem hrecord),
    packVariables_eq] at hlist
  split_ifs at hlist with hmany
  rw [packRecords_fresh hlist, some_mem_packed]
  exact List.mem_map_of_mem (List.mem_filterMap.mpr ⟨_, hrecord, hline⟩)

/-- On the lines stored for accepted records the substitution goes over the variables. -/
theorem substituteVariables_stored {cfg : Config} {vars : List StoredVariable}
    (hcfg : cfg.cacheVariables = some (vars.map StoredVariable.setting)) {maximumCount : ℕ}
    (hcount : vars.length ≤ maximumCount) (variableCount calls : ℕ) (url : Block) :
    let stored := readVariableList (fun _ => true) cfg variableCount maximumCount
    substituteVariables calls url maxLineLength (stored.list.getD []) stored.count =
      substituteLoop calls maxLineLength (storedLines vars) ⟨[], []⟩ url := by
  intro stored
  obtain ⟨hlist, hlength⟩ := readVariableList_stored hcfg hcount variableCount
  rw [show stored.list.getD [] = _ from hlist, show stored.count = _ from hlength,
    substituteVariables, List.take_of_length_le (by simp [storedLines])]

/-- On the lines stored for accepted records, `substitute_variables` ends if and
only if no variable refers to itself in the text in which it has its turn. -/
theorem substitution_ends_iff (cfg : Config) (vars : List StoredVariable)
    (hcfg : cfg.cacheVariables = some (vars.map StoredVariable.setting))
    (variableCount maximumCount : ℕ) (hcount : vars.length ≤ maximumCount) (url : Block) :
    let stored := readVariableList (fun _ => true) cfg variableCount maximumCount
    (∃ calls text, substituteVariables calls url maxLineLength (stored.list.getD []) stored.count =
        some text) ↔
      ∀ v text, Turn vars (cstr url) v text → ¬ v.SelfReferring text := by
  intro stored
  simp only [stored, substituteVariables_stored hcfg hcount]
  exact substituteLoop_ends_iff

/-- The variable `a` with an empty value. -/
def blankVariable : StoredVariable where
  name := ascii "a"
  value := []
  name_nulFree := by decide
  value_nulFree := by decide
  name_noSpace := by decide
  line_fits := by decide

/-- A text in which the variable does not occur. -/
theorem substitution_ends_without_reference :
    ∃ calls text, substituteVariables calls (ascii "http://x/" ++ [0]) maxLineLength
      (storedLines [blankVariable]) 1 = some text := by
  let cfg : Config := ⟨none, none, some [blankVariable.setting], none⟩
  refine (substitution_ends_iff cfg [blankVariable] rfl 0 1 (Nat.le_refl 1)
    (ascii "http://x/" ++ [0])).mpr ?_
  rintro v text hturn ⟨-, text', hreplaces⟩
  cases hturn with
  | now =>
    have habsent : replaceText maxLineLength blankVariable.reference blankVariable.recovered
        (cstr (ascii "http://x/" ++ [0])) = .absent := by decide
    rw [StoredVariable.Replaces, habsent] at hreplaces
    cases hreplaces
  | later hfirst hturn => cases hturn

/-- The variable `a` with an empty value hangs the loop on the URL `$a`: the value
read back is `$a` itself. -/
theorem substitution_hangs_on_blank_value :
    ¬ ∃ calls text, substituteVariables calls (ascii "$a" ++ [0]) maxLineLength
      (storedLines [blankVariable]) 1 = some text := by
  have hself : blankVariable.SelfReferring (cstr (ascii "$a" ++ [0])) :=
    ⟨by decide, ascii "$a", by unfold StoredVariable.Replaces; decide⟩
  intro hends
  have hloop : ∃ calls text, substituteLoop calls maxLineLength (storedLines [blankVariable])
      ⟨[], []⟩ (ascii "$a" ++ [0]) = some text := hends
  exact substituteLoop_ends_iff.mp hloop blankVariable _ .now hself

/-! ### What is read back -/

/-- The variable that two strings of an accepted record make. -/
def StoredVariable.ofRecord (name value : Block) (hname : varSeparator ∉ cstr name)
    (hline : strlen name + strlen value + 2 < maxLineLength) : StoredVariable where
  name := cstr name
  value := cstr value
  name_nulFree := nul_notMem_cstr name
  value_nulFree := nul_notMem_cstr value
  name_noSpace := hname
  line_fits := hline

/-- It is stored as `read_variable_list` stores the record. -/
theorem StoredVariable.line_ofRecord {name value : Block} (hname : varSeparator ∉ cstr name)
    (hline : strlen name + strlen value + 2 < maxLineLength) :
    (ofRecord name value hname hline).line = dupString (variableLine name value) := by
  rw [line, variableLine, variableLine,
    cstr_of_nulFree (ofRecord name value hname hline).name_nulFree,
    cstr_of_nulFree (ofRecord name value hname hline).value_nulFree]
  rfl

/-- Every record that `read_variable_list` accepts has its line in the list, and
`substitute_variables` recovers from it the reference and the configured value if and
only if the value is not empty and holds no separator. -/
theorem variable_survives_iff (allocates : ℕ → Bool) (cfg : Config)
    (variableCount maximumCount : ℕ) (slots : List (Option Block)) (records : List VariableSetting)
    (name value : Block)
    (hlist : (readVariableList allocates cfg variableCount maximumCount).list = some slots)
    (hcfg : cfg.cacheVariables = some records) (hrecord : ⟨some name, some value⟩ ∈ records)
    (hname : varSeparator ∉ cstr name) (hline : strlen name + strlen value + 2 < maxLineLength) :
    ∃ line, some line ∈ slots ∧
      cstr line = variableMark :: cstr name ++ varSeparator :: cstr value ∧
      ∀ buffers : VariableBuffers,
        (cstr (buffers.recover maxLineLength line).nameBuffer = variableMark :: cstr name ∧
            cstr (buffers.recover maxLineLength line).variableBuffer = cstr value ↔
          cstr value ≠ [] ∧ varSeparator ∉ cstr value) := by
  let v := StoredVariable.ofRecord name value hname hline
  have hstored : v.line = dupString (variableLine name value) :=
    StoredVariable.line_ofRecord hname hline
  refine ⟨v.line, hstored ▸ readVariableList_packs hlist hcfg hrecord hname, v.cstr_line, ?_⟩
  intro buffers
  obtain ⟨hreference, hvalue⟩ := recover_line buffers v
  rw [hreference, hvalue]
  exact (and_iff_right rfl).trans v.recovered_eq_value_iff

/-- A configuration with the variable `a` and a value. -/
def oneVariable (value : List UInt8) : Config :=
  ⟨none, none, some [⟨some (ascii "a"), some value⟩], none⟩

/-- A value of one word is recovered. -/
theorem variable_survives_word :
    ∃ line, (readVariableList (fun _ => true) (oneVariable (ascii "b")) 0 32).list =
        some [some line] ∧
      cstr ((VariableBuffers.mk [] []).recover maxLineLength line).variableBuffer = ascii "b" := by
  obtain ⟨line, hmem, -, hrecovered⟩ := variable_survives_iff (fun _ => true)
    (oneVariable (ascii "b")) 0 32 [some (ascii "$a b" ++ [0])] _ (ascii "a") (ascii "b") rfl rfl
    List.mem_cons_self (by decide) (by decide)
  obtain rfl : line = ascii "$a b" ++ [0] := by simpa using hmem
  exact ⟨_, rfl, ((hrecovered ⟨[], []⟩).mpr ⟨by decide, by decide⟩).2⟩

/-- The value `b c` is stored, and only `b` is recovered. -/
theorem variable_loses_second_word :
    let list := (readVariableList (fun _ => true) (oneVariable (ascii "b c")) 0 32).list
    list = some [some (ascii "$a b c" ++ [0])] ∧
      cstr ((VariableBuffers.mk [] []).recover maxLineLength
        (ascii "$a b c" ++ [0])).variableBuffer = ascii "b" ∧
      ascii "b" ≠ ascii "b c" :=
  ⟨rfl, by decide, by decide⟩

/-! ### Templates -/

section Templates

open Template

/-- The loop for one variable fills it in. -/
theorem replaceLoop_fills {vars : List StoredVariable} {v : StoredVariable}
    {template : List (Piece UInt8 StoredVariable)} (buffers : VariableBuffers) {str : Block}
    (hnames : ∀ w ∈ vars, variableMark ∉ w.name)
    (hdistinct : ∀ w ∈ vars, w.name <+: v.name ∨ v.name <+: w.name → w = v)
    (hsome : v.value ≠ []) (hspace : varSeparator ∉ v.value) (hmark : variableMark ∉ v.value)
    (hformed : WellFormed variableMark vars template)
    (hroom : room StoredVariable.name StoredVariable.value template < maxLineLength)
    (hstr : cstr str = encode variableMark StoredVariable.name template) :
    ∃ calls text, replaceLoop maxLineLength (buffers.recover maxLineLength v.line) calls str =
        some text ∧
      cstr text = encode variableMark StoredVariable.name
        (fill StoredVariable.value v template) := by
  obtain ⟨hname, hvalue⟩ := recover_line buffers v
  rw [StoredVariable.recovered_of_word hsome hspace] at hvalue
  -- with room for the reference or the value neither length test fires
  have hallowed : ∀ before after : List UInt8,
      before.length + max (v.name.length + 1) v.value.length + after.length < maxLineLength →
        LengthTests maxLineLength v.value before after := by
    intro before after hfits
    have := le_max_right (v.name.length + 1) v.value.length
    exact ⟨by omega, by omega⟩
  have hfilled := rewriteAll_encode hallowed hnames hdistinct hmark hformed hroom
  have hmap := map_replaceLoop maxLineLength (buffers.recover maxLineLength v.line)
    (references v template + 1) str
  rw [hname, hvalue, hstr] at hmap
  obtain ⟨text, hresult, htext⟩ := Option.map_eq_some_iff.mp (hmap.trans hfilled)
  exact ⟨_, text, hresult, htext⟩

/-- The loop over the variables fills in one after the other. -/
theorem substituteLoop_expands {vars : List StoredVariable}
    {template : List (Piece UInt8 StoredVariable)} (buffers : VariableBuffers) {str : Block}
    (hnames : ∀ v ∈ vars, variableMark ∉ v.name)
    (hincomparable : vars.Pairwise fun v w => ¬ v.name <+: w.name ∧ ¬ w.name <+: v.name)
    (hvalues : ∀ v ∈ vars, v.value ≠ [] ∧ varSeparator ∉ v.value ∧ variableMark ∉ v.value)
    (hformed : WellFormed variableMark vars template)
    (hroom : room StoredVariable.name StoredVariable.value template < maxLineLength)
    (hstr : cstr str = encode variableMark StoredVariable.name template) :
    ∃ calls text, substituteLoop calls maxLineLength (storedLines vars) buffers str = some text ∧
      cstr text = expand StoredVariable.value template := by
  induction vars generalizing buffers str template with
  | nil => exact ⟨0, str, rfl, hstr.trans (encode_eq_expand hformed)⟩
  | cons v vars ih =>
    obtain ⟨hfirst, hrest⟩ := List.pairwise_cons.mp hincomparable
    obtain ⟨hsome, hspace, hmark⟩ := hvalues v List.mem_cons_self
    -- a name that is comparable with the first one is the first one itself
    have hdistinct : ∀ w ∈ v :: vars, w.name <+: v.name ∨ v.name <+: w.name → w = v := by
      intro w hw hcomparable
      rcases List.mem_cons.mp hw with rfl | hlater
      · rfl
      · exact absurd hcomparable (not_or.mpr (hfirst w hlater).symm)
    obtain ⟨calls, between, hloop, hbetween⟩ := replaceLoop_fills buffers hnames hdistinct hsome
      hspace hmark hformed hroom hstr
    obtain ⟨calls', text, hlater, htext⟩ := ih (buffers.recover maxLineLength v.line)
      (fun w hw => hnames w (List.mem_cons_of_mem v hw)) hrest
      (fun w hw => hvalues w (List.mem_cons_of_mem v hw)) (hformed.fill hmark)
      (Nat.lt_of_le_of_lt (room_fill_le template) hroom) hbetween
    exact ⟨max calls calls', text, substituteLoop_cons_of_loop hloop hlater,
      htext.trans (expand_fill template)⟩

/-- A URL in which every `$` is followed by the name of a variable is a written
template. -/
theorem exists_url_template {vars : List StoredVariable} {url : Block}
    (hmarks : ∀ before rest, cstr url = before ++ variableMark :: rest →
      ∃ v ∈ vars, v.name <+: rest) :
    ∃ template, WellFormed variableMark vars template ∧
      cstr url = encode variableMark StoredVariable.name template := by
  obtain ⟨template, hformed, hurl⟩ := exists_template hmarks
  exact ⟨template, hformed, hurl.symm⟩

end Templates

/-- With names that do not begin with one another, and names and values free of
`$` and blanks, `substitute_variables` leaves the template with every reference
replaced by its value, if the references or values fit in a line. -/
theorem substitution_expands_template (cfg : Config) (vars : List StoredVariable)
    (hcfg : cfg.cacheVariables = some (vars.map StoredVariable.setting))
    (variableCount maximumCount : ℕ) (hcount : vars.length ≤ maximumCount)
    (hnames : ∀ v ∈ vars, variableMark ∉ v.name)
    (hincomparable : vars.Pairwise fun v w => ¬ v.name <+: w.name ∧ ¬ w.name <+: v.name)
    (hvalues : ∀ v ∈ vars, v.value ≠ [] ∧ varSeparator ∉ v.value ∧ variableMark ∉ v.value)
    (template : List (Piece UInt8 StoredVariable))
    (hformed : Template.WellFormed variableMark vars template)
    (hroom : Template.room StoredVariable.name StoredVariable.value template < maxLineLength)
    (url : Block) (hurl : cstr url = Template.encode variableMark StoredVariable.name template) :
    let stored := readVariableList (fun _ => true) cfg variableCount maximumCount
    ∃ enough, ∀ calls ≥ enough,
      (substituteVariables calls url maxLineLength (stored.list.getD []) stored.count).map cstr =
        some (Template.expand StoredVariable.value template) := by
  intro stored
  obtain ⟨enough, text, hresult, htext⟩ := substituteLoop_expands ⟨[], []⟩ hnames hincomparable
    hvalues hformed hroom hurl
  refine ⟨enough, fun calls hcalls => ?_⟩
  rw [substituteVariables_stored hcfg hcount, substituteLoop_mono hcalls hresult]
  exact congrArg some htext

/-- The variable of the configuration that comes with the daemon. -/
def serverVariable : StoredVariable where
  name := ascii "server"
  value := ascii "http://softactiva.com"
  name_nulFree := by decide
  value_nulFree := by decide
  name_noSpace := by decide
  line_fits := by decide

/-- The first page of that configuration. -/
theorem substitution_expands_server_page :
    ∃ enough, ∀ calls ≥ enough,
      (substituteVariables calls (ascii "$server/" ++ [0]) maxLineLength
        (storedLines [serverVariable]) 1).map cstr = some (ascii "http://softactiva.com/") :=
  substitution_expands_template ⟨none, none, some [serverVariable.setting], none⟩ [serverVariable]
    rfl 0 1 (Nat.le_refl 1) (by decide) (List.pairwise_singleton _ _) (by decide)
    [.reference serverVariable, .literal (ascii "/")] (by simp [Template.WellFormed]; decide)
    (by decide) (ascii "$server/" ++ [0]) (by decide)

end EasyForetell
