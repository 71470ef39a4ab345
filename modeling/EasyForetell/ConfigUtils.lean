import EasyForetell.Logger
import EasyForetell.StringUtils

/-!
# Reading a cache configuration (config_utils.c)

A configuration is what libconfig holds after it parsed a file: the settings the
readers look up, each absent when it is missing or of another type. The readers
store the variables as lines `$name value`, and `substitute_variables` takes each
line apart again with `strtok` and rewrites a page URL with it.

The rewriting loop has no counter, so its model is given a number of calls of
`replace_string` it may make for one variable. `none` stands for a loop that
wanted more.
-/

namespace EasyForetell

open Memory Theory

/-- `MAX_LINE_LENGTH`. -/
def maxLineLength : ℕ := 256

/-- `VAR_SEPARATOR`. -/
def varSeparator : UInt8 := 32

/-! ### Settings -/

/-- An element of `cache.variables`. -/
structure VariableSetting where
  name : Option Block
  value : Option Block

/-- An element of `cache.pages`. -/
structure PageSetting where
  url : Option Block

/-- The settings of an include file. -/
structure Config where
  version : Option Block
  cacheName : Option Block
  cacheVariables : Option (List VariableSetting)
  cachePages : Option (List PageSetting)

/-- `log_info ("No '%s' setting in configuration file")`. -/
def noSettingMessage (key : String) : LogMessage :=
  ⟨.info, ascii "No '" ++ ascii key ++ ascii "' setting in configuration file"⟩

/-- `check_version`: the value returned and the message logged with it. -/
def checkVersion (cfg : Config) (expected : Block) : ℤ × List LogMessage :=
  match cfg.version with
  | none => (-1, [⟨.error, ascii "No 'version' setting in configuration file"⟩])
  | some version =>
    if cstr expected ≠ cstr version then
      (-1, [⟨.error, ascii "Expected configuration version '" ++ cstr expected ++ ascii "', but '" ++
        cstr version ++ ascii "' found"⟩])
    else (1, [])

/-- `read_string` on a setting of the file: the string, unless it is absent or
too long, and the message logged. -/
def readString (setting : Option Block) (key : String) (maxLength : ℕ) :
    Option Block × List LogMessage :=
  match setting with
  | none =>
    (none, [⟨.error, ascii "No '" ++ ascii key ++ ascii "' setting in configuration file"⟩])
  | some value =>
    if strlen value > maxLength then
      (none, [⟨.error, ascii "Maximum length exceeded on '" ++ ascii key ++ ascii "': " ++
        ascii (toString maxLength)⟩])
    else (some value, [])

/-! ### Lists of lines -/

/-- A list being filled from the front: its slots, the next free one, and the
messages logged so far. -/
structure Packing where
  slots : List (Option Block)
  idx : ℕ
  logs : List LogMessage

/-- Log a message and go on with the next record. -/
def Packing.skip (packing : Packing) (message : LogMessage) : Packing :=
  { packing with logs := packing.logs ++ [message] }

/-- Store a copy of a line in the next free slot. -/
def Packing.pack (packing : Packing) (line : Block) : Packing :=
  { packing with
    slots := packing.slots.set packing.idx (some (dupString line)), idx := packing.idx + 1 }

/-- What a list reader returns: the list or NULL, and its `count` argument
afterwards. -/
structure StringList where
  list : Option (List (Option Block))
  count : ℕ
  logs : List LogMessage

/-- The line `$name value` of a variable, as `sprintf` writes it. -/
def variableLine (name value : Block) : Block :=
  ascii "$" ++ cstr name ++ [varSeparator] ++ cstr value ++ [0]

/-- `log_warning ("Cache variables incomplete")`. -/
def incompleteVariableMessage : LogMessage := ⟨.warning, ascii "Cache variables incomplete"⟩

/-- `log_warning ("Found invalid name while parsing variables: '%s'")`. -/
def invalidNameMessage (name : Block) : LogMessage :=
  ⟨.warning, ascii "Found invalid name while parsing variables: '" ++ cstr name ++ ascii "'"⟩

/-- The loop of `read_variable_list`; `allocates` tells whether `dup_string` gets
memory for a record. The result is NULL once it does not. -/
def packVariables (allocates : ℕ → Bool) : ℕ → List VariableSetting → Packing →
    Option (List (Option Block)) × List LogMessage
  | _, [], packing => (some packing.slots, packing.logs)
  | i, record :: records, packing =>
    match record.name, record.value with
    | some name, some value =>
      if (strchr name varSeparator).isSome then
        packVariables allocates (i + 1) records (packing.skip (invalidNameMessage name))
      else if allocates i then
        packVariables allocates (i + 1) records (packing.pack (variableLine name value))
      else
        (none, packing.logs ++
          [⟨.error, ascii "Failed to allocate memory for cache variables"⟩])
    | _, _ => packVariables allocates (i + 1) records (packing.skip incompleteVariableMessage)

/-- `read_variable_list`, with what `variable_count` held before. -/
def readVariableList (allocates : ℕ → Bool) (cfg : Config) (variableCount maximumCount : ℕ) :
    StringList :=
  match cfg.cacheVariables with
  | none => ⟨none, variableCount, [noSettingMessage "cache.variables"]⟩
  | some records =>
    if records.length > maximumCount then
      ⟨none, records.length, [⟨.info,
        ascii "Maximum number of variables exceeded in configuration: " ++
          ascii (toString maximumCount)⟩]⟩
    else
      match initStringList records.length with
      | none => ⟨none, records.length, []⟩
      | some slots =>
        let packed := packVariables allocates 0 records ⟨slots, 0, []⟩
        ⟨packed.1, records.length, packed.2⟩

/-! ### Substitution -/

/-- The local arrays `variable` and `name` of `substitute_variables`. -/
structure VariableBuffers where
  variableBuffer : Block
  nameBuffer : Block

/-- Take a stored line apart: `name` gets its first token, and `variable` its
second one, if there is one. -/
def VariableBuffers.recover (buffers : VariableBuffers) (strLength : ℕ) (line : Block) :
    VariableBuffers :=
  let copied := strcpy buffers.variableBuffer line
  match strtok varSeparator copied 0 with
  | none => { buffers with variableBuffer := copied }
  | some first =>
    let name := strcpy buffers.nameBuffer (first.block.drop first.start)
    match strtok varSeparator first.block first.next with
    | none => ⟨first.block, name⟩
    | some second => ⟨memmove second.block second.start strLength, name⟩

/-- The `do`/`while` loop of `substitute_variables`, with the number of calls of
`replace_string` it may make. -/
def replaceLoop (strLength : ℕ) (buffers : VariableBuffers) : ℕ → Block → Option Block
  | 0, _ => none
  | calls + 1, str =>
    let result := replaceString str strLength buffers.nameBuffer buffers.variableBuffer
    if result.2 = 1 then replaceLoop strLength buffers calls result.1 else some result.1

/-- The `for` loop of `substitute_variables`, over the slots from the current one
on. -/
def substituteLoop (calls strLength : ℕ) : List (Option Block) → VariableBuffers → Block →
    Option Block
  | some line :: lines, buffers, str =>
    let buffers := buffers.recover strLength line
    (replaceLoop strLength buffers calls str).bind (substituteLoop calls strLength lines buffers)
  | _, _, str => some str

/-- `substitute_variables`. -/
def substituteVariables (calls : ℕ) (str : Block) (strLength : ℕ) (variableList : List (Option Block))
    (variableCount : ℕ) : Option Block :=
  substituteLoop calls strLength (variableList.take variableCount) ⟨[], []⟩ str

/-! ### Pages -/

/-- `log_warning ("Cache pages incomplete")`. -/
def incompletePageMessage : LogMessage := ⟨.warning, ascii "Cache pages incomplete"⟩

/-- The loop of `read_url_list`. -/
def packPages (calls : ℕ) (allocates : ℕ → Bool) (variableList : List (Option Block))
    (variableCount : ℕ) : ℕ → List PageSetting → Packing →
    Option (Option (List (Option Block)) × List LogMessage)
  | _, [], packing => some (some packing.slots, packing.logs)
  | i, record :: records, packing =>
    match record.url with
    | none =>
      packPages calls allocates variableList variableCount (i + 1) records
        (packing.skip incompletePageMessage)
    | some url =>
      (substituteVariables calls (strcpy [] url) maxLineLength variableList variableCount).bind
        fun tmp =>
          if allocates i then
            packPages calls allocates variableList variableCount (i + 1) records (packing.pack tmp)
          else
            some (none, packing.logs ++
              [⟨.error, ascii "Failed to allocate memory for cache pages"⟩])

/-- `read_url_list`, with what `url_count` held before. -/
def readUrlList (calls : ℕ) (allocates : ℕ → Bool) (cfg : Config) (urlCount maximumCount : ℕ)
    (variableList : List (Option Block)) (variableCount : ℕ) : Option StringList :=
  match cfg.cachePages with
  | none => some ⟨none, urlCount, [noSettingMessage "cache.pages"]⟩
  | some records =>
    if records.length > maximumCount then
      some ⟨none, records.length, [⟨.info,
        ascii "Maximum number of pages exceeded in configuration: " ++
          ascii (toString maximumCount)⟩]⟩
    else
      match initStringList records.length with
      | none => some ⟨none, records.length, []⟩
      | some slots =>
        (packPages calls allocates variableList variableCount 0 records ⟨slots, 0, []⟩).map
          fun packed => ⟨packed.1, records.length, packed.2⟩

end EasyForetell
