import EasyForetell.Action
import EasyForetell.MainSettings

/-!
# Strings of the configuration in their buffers (config_utils.c, action.c, queral.c)

A string setting is copied into a fixed buffer once its reader has accepted it. The readers
of the main configuration refuse a string that leaves no room for the NUL; `read_string`
does not.

## Main results

* `accepted_fits_iff`: which accepted strings fit in the buffer they are copied to
* `length_loadSettings`: `main` keeps to the buffers of the main configuration
-/

namespace EasyForetell

open Memory

/-! ### Accepted strings -/

/-- The string settings that are copied into a fixed buffer. -/
inductive StringSetting
  | pidfileFilename
  | socketFilename
  | includeDir
  | keyPrefix
  | cacheName
  deriving DecidableEq

/-- The reader of a setting. -/
def StringSetting.reader : StringSetting → Option Block → Option Block × List LogMessage
  | pidfileFilename => readPidfileFilename
  | socketFilename => readSocketFilename
  | includeDir => readIncludeDir
  | keyPrefix => readMemcachedKeyPrefix
  | cacheName => fun value => readString value "cache.name" argumentMaxLength

/-- The size of the array it is copied to: `pidfile_filename`, `fifo_filename` and `include_dir`
of `main`, `key_prefix` of queral.c, and `name` of `action_t`. -/
def StringSetting.capacity : StringSetting → ℕ
  | pidfileFilename => pathMax
  | socketFilename => pathMax
  | includeDir => pathMax
  | keyPrefix => maxKeyPrefixLength
  | cacheName => argumentMaxLength

/-- What the reader accepts fits in the array with its NUL. -/
def StringSetting.AcceptedFits (setting : StringSetting) (value : Option Block) : Prop :=
  ∀ accepted ∈ (setting.reader value).1, strlen accepted + 1 ≤ setting.capacity

section Readers

variable {key : String} {size : ℕ} {setting : Option Block} {accepted buffer : Block}

/-- A string that fits stays inside the array it is copied to. -/
theorem length_strcpy_of_fits (hbuffer : buffer.length = size)
    (hfits : strlen accepted + 1 ≤ size) :
    (strcpy buffer accepted).length = size := by
  rw [length_strcpy, hbuffer, max_eq_left hfits]

theorem mem_readBoundedString :
    accepted ∈ (readBoundedString key size setting).1 ↔
      setting = some accepted ∧ strlen accepted < size := by
  cases setting with
  | none => simp [readBoundedString]
  | some value =>
    by_cases hlong : strlen value ≥ size
    · simp only [readBoundedString, if_pos hlong, Option.not_mem_none, false_iff, Option.some.injEq]
      rintro ⟨rfl, hshort⟩
      exact absurd hshort (not_lt.mpr hlong)
    · simp only [readBoundedString, if_neg hlong, Option.mem_some_iff, Option.some.injEq]
      exact (and_iff_left_of_imp fun heq => heq ▸ not_le.mp hlong).symm

theorem mem_readString {maxLength : ℕ} :
    accepted ∈ (readString setting key maxLength).1 ↔
      setting = some accepted ∧ strlen accepted ≤ maxLength := by
  cases setting with
  | none => simp [readString]
  | some value =>
    by_cases hlong : strlen value > maxLength
    · simp only [readString, if_pos hlong, Option.not_mem_none, false_iff, Option.some.injEq]
      rintro ⟨rfl, hshort⟩
      exact absurd hshort (not_le.mpr hlong)
    · simp only [readString, if_neg hlong, Option.mem_some_iff, Option.some.injEq]
      exact (and_iff_left_of_imp fun heq => heq ▸ not_lt.mp hlong).symm

/-- The readers of the main configuration count the NUL. -/
theorem StringSetting.acceptedFits_of_ne_cacheName {setting : StringSetting}
    (hne : setting ≠ .cacheName) (value : Option Block) : setting.AcceptedFits value := by
  intro accepted haccepted
  cases setting with
  | pidfileFilename => exact (mem_readBoundedString.mp haccepted).2
  | socketFilename => exact (mem_readBoundedString.mp haccepted).2
  | includeDir => exact (mem_readBoundedString.mp haccepted).2
  | keyPrefix => exact (mem_readBoundedString.mp haccepted).2
  | cacheName => exact absurd rfl hne

end Readers

/-- An accepted string fits in its buffer unless it is a `cache.name` of exactly
`ARGUMENT_MAX_LENGTH` bytes: its NUL goes behind `name`. -/
theorem accepted_fits_iff (setting : StringSetting) (value : Option Block) :
    setting.AcceptedFits value ↔
      ¬ (setting = .cacheName ∧ ∃ name, value = some name ∧ strlen name = argumentMaxLength) := by
  by_cases hcache : setting = .cacheName
  · subst hcache
    constructor
    · rintro hfits ⟨-, name, rfl, hlength⟩
      have hroom := hfits name (mem_readString.mpr ⟨rfl, hlength.le⟩)
      rw [hlength] at hroom
      exact absurd hroom (Nat.not_succ_le_self _)
    · intro hother accepted haccepted
      obtain ⟨hvalue, hshort⟩ := mem_readString.mp haccepted
      have hne : strlen accepted ≠ argumentMaxLength :=
        fun heq => hother ⟨rfl, accepted, hvalue, heq⟩
      exact lt_of_le_of_ne hshort hne
  · exact iff_of_true (StringSetting.acceptedFits_of_ne_cacheName hcache value)
      fun hname => hcache hname.1

/-- A name of 256 bytes is accepted, and the copy of `create_action` is a byte longer than the
array. -/
theorem cache_name_overruns_action :
    let name := List.replicate 256 97 ++ [0]
    (StringSetting.cacheName.reader (some name)).1 = some name ∧
      ((createAction true name).map fun action => action.name.length) =
        some (argumentMaxLength + 1) ∧
      ¬ StringSetting.cacheName.AcceptedFits (some name) := by
  have hlength : strlen (List.replicate 256 97 ++ [0]) = argumentMaxLength :=
    strlen_replicate_append_nul (by decide) 256
  generalize List.replicate 256 (97 : UInt8) ++ [0] = name at hlength
  refine ⟨mem_readString.mpr ⟨rfl, hlength.le⟩, ?_, fun hfits => ?_⟩
  · rw [createAction, if_pos rfl, Option.map_some, newAction, length_strcpy, hlength]
    rfl
  · have hroom := hfits name (mem_readString.mpr ⟨rfl, hlength.le⟩)
    rw [hlength] at hroom
    exact absurd hroom (by decide)

/-! ### The buffers of main -/

/-- The arrays of `main` and of queral.c have their size. -/
structure MainVariables.Sized (vars : MainVariables) : Prop where
  pidfileFilename : vars.pidfileFilename.length = pathMax
  fifoFilename : vars.fifoFilename.length = pathMax
  keyPrefix : vars.keyPrefix.length = maxKeyPrefixLength
  includeDir : vars.includeDir.length = pathMax

/-- A string setting keeps the size of its buffer, when its default fits. -/
theorem length_loadString (key default notice : String) (setting : Option Block) {size : ℕ}
    {buffer : Block} (hbuffer : buffer.length = size)
    (hdefault : strlen (ascii default) + 1 ≤ size) :
    (loadString (readBoundedString key size setting) default notice buffer).1.length = size := by
  cases hread : (readBoundedString key size setting).1 with
  | none =>
    simp only [loadString, hread]
    exact length_strcpy_of_fits hbuffer hdefault
  | some str =>
    simp only [loadString, hread]
    exact length_strcpy_of_fits hbuffer (mem_readBoundedString.mp hread).2

/-- Whatever the main configuration says, its strings stay inside the arrays of `main`. -/
theorem length_loadSettings (allocates : ℕ → Bool) (addresses : MainAddresses) (cfg : MainConfig)
    {vars : MainVariables} (hsized : vars.Sized) :
    (loadSettings allocates addresses cfg vars).2.1.Sized := by
  have hpidfile := length_loadString "pidfile.filename" "/var/run/queral/queral.pid"
    "Using default pid file: " cfg.pidfileFilename hsized.pidfileFilename (by decide)
  have hfifo := length_loadString "socket.filename" "/var/run/queral/queral.fifo"
    "Using default fifo file: " cfg.socketFilename hsized.fifoFilename (by decide)
  have hkey := length_loadString "memcached.key.prefix" "__memc_"
    "Using default memcached key prefix: " cfg.memcachedKeyPrefix hsized.keyPrefix (by decide)
  simp only [loadSettings]
  split_ifs
  · exact ⟨hpidfile, hfifo, hsized.keyPrefix, hsized.includeDir⟩
  · refine ⟨hpidfile, hfifo, hkey, ?_⟩
    cases hread : (readIncludeDir cfg.includeDir).1 with
    | none => exact hsized.includeDir
    | some dir => exact length_strcpy_of_fits hsized.includeDir (mem_readBoundedString.mp hread).2

end EasyForetell
