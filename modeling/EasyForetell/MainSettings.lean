import EasyForetell.ConfigUtils
import EasyForetell.SleepUtils

/-!
# The main configuration (config_utils.c, queral.c)

The readers of the settings of the daemon, and the part of `main` that calls them: a setting
that a reader refuses gets its default, and a number above its maximum is cut down to it.

`read_workers_count` and `read_worker_contention` compare the pointer they were given, not the
number they read through it, with 0.

## Main results

* `readInt_exact_iff`: when `read_int` checks its range
* `numeric_settings_exact_iff`: when the numbers of the worker pool are in their range
-/

namespace EasyForetell

open Memory

/-- `PATH_MAX`. -/
def pathMax : ℕ := 4096

/-- `MAX_KEY_PREFIX_LENGTH`. -/
def maxKeyPrefixLength : ℕ := 13

/-- An element of `memcached.servers`. -/
structure ServerSetting where
  hostname : Option Block
  port : Option ℤ

/-- The settings of the main configuration file. -/
structure MainConfig where
  pidfileFilename : Option Block
  socketFilename : Option Block
  workerThreads : Option ℤ
  workerContention : Option ℤ
  memcachedServers : Option (List ServerSetting)
  memcachedExpiration : Option ℤ
  memcachedKeyPrefix : Option Block
  includeDir : Option Block

/-! ### String settings -/

/-- A reader that refuses a string of `size` bytes or more. -/
def readBoundedString (key : String) (size : ℕ) (setting : Option Block) :
    Option Block × List LogMessage :=
  match setting with
  | none => (none, [noSettingMessage key])
  | some value =>
    if strlen value ≥ size then
      (none, [⟨.warning, ascii "Maximum length exceeded on '" ++ ascii key ++ ascii "': " ++
        ascii (toString (size - 1))⟩])
    else (some value, [])

/-- `read_pidfile_filename`. -/
def readPidfileFilename : Option Block → Option Block × List LogMessage :=
  readBoundedString "pidfile.filename" pathMax

/-- `read_socket_filename`. -/
def readSocketFilename : Option Block → Option Block × List LogMessage :=
  readBoundedString "socket.filename" pathMax

/-- `read_memcached_key_prefix`. -/
def readMemcachedKeyPrefix : Option Block → Option Block × List LogMessage :=
  readBoundedString "memcached.key.prefix" maxKeyPrefixLength

/-- `read_include_dir`. -/
def readIncludeDir : Option Block → Option Block × List LogMessage :=
  readBoundedString "include_dir" pathMax

/-! ### Numbers -/

/-- What a reader of a number leaves: the value returned, the variable behind the pointer it was
given, and the messages. -/
structure IntResult where
  res : ℤ
  value : ℤ
  logs : List LogMessage

/-- `log_warning ("Invalid '%s' in configuration file")`. -/
def invalidSettingMessage (key : String) : LogMessage :=
  ⟨.warning, ascii "Invalid '" ++ ascii key ++ ascii "' in configuration file"⟩

/-- A reader of a number of the worker pool, for the variable at an address. -/
def readWorkerNumber (key : String) (setting : Option ℤ) (address : ℕ) (before : ℤ) : IntResult :=
  match setting with
  | none => ⟨-1, before, [noSettingMessage key]⟩
  | some value =>
    -- libconfig has stored the number; the pointer is compared, not what it points to
    if address < 0 then ⟨-1, value, [invalidSettingMessage key]⟩ else ⟨1, value, []⟩

/-- `read_workers_count`. -/
def readWorkersCount : Option ℤ → ℕ → ℤ → IntResult := readWorkerNumber "worker.threads"

/-- `read_worker_contention`. -/
def readWorkerContention : Option ℤ → ℕ → ℤ → IntResult := readWorkerNumber "worker.contention"

/-- `read_memcached_expiration`, with what the variable held before. -/
def readMemcachedExpiration (setting : Option ℤ) (expiration : ℤ) : IntResult :=
  match setting with
  | none => ⟨-1, expiration, [noSettingMessage "memcached.expiration"]⟩
  | some value =>
    if value < 0 then ⟨-1, expiration, [invalidSettingMessage "memcached.expiration"]⟩
    else ⟨1, value, []⟩

/-- `read_int`, with what the variable held before. -/
def readInt (setting : Option ℤ) (key : String) (value min max : ℤ) : IntResult :=
  match setting with
  | none => ⟨-1, value, [noSettingMessage key]⟩
  | some readValue =>
    if readValue < min ∧ readValue > max then ⟨-1, value, [invalidSettingMessage key]⟩
    else ⟨1, readValue, []⟩

/-! ### The list of servers -/

/-- The line `hostname:port` of a server, as `sprintf` writes it. -/
def serverLine (hostname : Block) (port : ℤ) : Block :=
  cstr hostname ++ ascii ":" ++ ascii (toString port) ++ [0]

/-- `log_warning ("memcached servers incomplete")`. -/
def incompleteServerMessage : LogMessage := ⟨.warning, ascii "memcached servers incomplete"⟩

/-- The loop of `read_memcached_servers`. -/
def packServers (allocates : ℕ → Bool) : ℕ → List ServerSetting → Packing →
    Option (List (Option Block)) × List LogMessage
  | _, [], packing => (some packing.slots, packing.logs)
  | i, record :: records, packing =>
    match record.hostname, record.port with
    | some hostname, some port =>
      if allocates i then
        packServers allocates (i + 1) records (packing.pack (serverLine hostname port))
      else
        (none, packing.logs ++
          [⟨.error, ascii "Failed to allocate memory for memcached server names"⟩])
    | _, _ => packServers allocates (i + 1) records (packing.skip incompleteServerMessage)

/-- `read_memcached_servers`, with what `server_count` held before. For an empty list
`init_string_list` returns NULL. -/
def readMemcachedServers (allocates : ℕ → Bool) (setting : Option (List ServerSetting))
    (serverCount : ℕ) : StringList :=
  match setting with
  | none => ⟨none, serverCount, [noSettingMessage "memcached.servers"]⟩
  | some records =>
    match initStringList records.length with
    | none => ⟨none, records.length, []⟩
    | some slots =>
      let packed := packServers allocates 0 records ⟨slots, 0, []⟩
      ⟨packed.1, records.length, packed.2⟩

/-! ### The settings in main -/

/-- `MAX_WORKERS`. -/
def maxWorkers : ℤ := 8

/-- `DEFAULT_WORKERS`. -/
def defaultWorkers : ℤ := 2

/-- `MAX_WORKER_CONTENTION_MILLIS`. -/
def maxWorkerContentionMillis : ℤ := 600000

/-- `DEFAULT_WORKER_CONTENTION_MILLIS`. -/
def defaultWorkerContentionMillis : ℤ := 100

/-- `DEFAULT_MEMCACHE_EXPIRATION_SECONDS`. -/
def defaultMemcacheExpirationSeconds : ℤ := 7200

/-- A string setting in `main`: the buffer gets the string read, or the default with the
notice that says so. -/
def loadString (read : Option Block × List LogMessage) (default notice : String) (buffer : Block) :
    Block × List LogMessage :=
  match read.1 with
  | some str => (strcpy buffer str, read.2)
  | none =>
    let copied := strcpy buffer (ascii default)
    (copied, read.2 ++ [⟨.notice, ascii notice ++ ascii "'" ++ cstr copied ++ ascii "'"⟩])

/-- A number of the worker pool in `main`: the one read, cut down to the maximum, or the default
with the notice that says so. -/
def loadNumber (read : IntResult) (max default : ℤ) (notice : String) : ℤ × List LogMessage :=
  if read.res ≠ -1 then (if read.value > max then max else read.value, read.logs)
  else (default, read.logs ++ [⟨.notice, ascii notice ++ ascii (toString default)⟩])

/-- `workers_count` in `main`. -/
def loadWorkersCount (setting : Option ℤ) (address : ℕ) (workersCount : ℤ) : ℤ × List LogMessage :=
  loadNumber (readWorkersCount setting address workersCount) maxWorkers defaultWorkers
    "Using default number of workers: "

/-- `worker_contention` in `main`. -/
def loadWorkerContention (setting : Option ℤ) (address : ℕ) (workerContention : ℤ) :
    ℤ × List LogMessage :=
  loadNumber (readWorkerContention setting address workerContention) maxWorkerContentionMillis
    defaultWorkerContentionMillis "Using default contention: "

/-- `expiration` in `main`. -/
def loadExpiration (setting : Option ℤ) (expiration : ℤ) : ℤ × List LogMessage :=
  let read := readMemcachedExpiration setting expiration
  if read.res = -1 then
    (defaultMemcacheExpirationSeconds, read.logs ++ [⟨.notice,
      ascii "Using default memcached expiration: " ++
        ascii (toString defaultMemcacheExpirationSeconds)⟩])
  else (read.value, read.logs)

/-- The variables of `main` and of queral.c that the settings go to. -/
structure MainVariables where
  pidfileFilename : Block
  fifoFilename : Block
  workersCount : ℤ
  workerContention : ℤ
  serverCount : ℕ
  memcachedServers : Option (List (Option Block))
  expiration : ℤ
  keyPrefix : Block
  includeDir : Block

/-- The addresses of `workers_count` and `worker_contention`. -/
structure MainAddresses where
  workersCount : ℕ
  workerContention : ℕ

/-- The code of `main` between the check of the version and the include files, and whether it
goes on from there: without servers it exits. -/
def loadSettings (allocates : ℕ → Bool) (addresses : MainAddresses) (cfg : MainConfig)
    (vars : MainVariables) : Bool × MainVariables × List LogMessage :=
  let pidfile := loadString (readPidfileFilename cfg.pidfileFilename)
    "/var/run/queral/queral.pid" "Using default pid file: " vars.pidfileFilename
  let fifo := loadString (readSocketFilename cfg.socketFilename)
    "/var/run/queral/queral.fifo" "Using default fifo file: " vars.fifoFilename
  let workers := loadWorkersCount cfg.workerThreads addresses.workersCount vars.workersCount
  let contention := loadWorkerContention cfg.workerContention addresses.workerContention
    vars.workerContention
  let servers := readMemcachedServers allocates cfg.memcachedServers vars.serverCount
  let vars := { vars with
    pidfileFilename := pidfile.1, fifoFilename := fifo.1, workersCount := workers.1
    workerContention := contention.1, serverCount := servers.count
    memcachedServers := servers.list }
  let logs := pidfile.2 ++ fifo.2 ++ workers.2 ++ contention.2 ++ servers.logs
  if servers.list.isNone then (false, vars, logs)
  else
    let expiration := loadExpiration cfg.memcachedExpiration vars.expiration
    let key := loadString (readMemcachedKeyPrefix cfg.memcachedKeyPrefix)
      "__memc_" "Using default memcached key prefix: " vars.keyPrefix
    let dir := readIncludeDir cfg.includeDir
    (true, { vars with
        expiration := expiration.1, keyPrefix := key.1
        includeDir := match dir.1 with
          | some str => strcpy vars.includeDir str
          | none => vars.includeDir },
      logs ++ expiration.2 ++ key.2 ++ dir.2)

/-! ### Which numbers get through -/

/-- `read_memcached_expiration` does test the number: no negative one reaches `expiration`. -/
theorem loadExpiration_nonneg (setting : Option ℤ) (expiration : ℤ) :
    0 ≤ (loadExpiration setting expiration).1 := by
  cases setting with
  | none => exact show 0 ≤ defaultMemcacheExpirationSeconds by decide
  | some value =>
    by_cases hneg : value < 0
    · simp only [loadExpiration, readMemcachedExpiration, if_pos hneg, if_true]
      decide
    · simp only [loadExpiration, readMemcachedExpiration, if_neg hneg]
      exact not_lt.mp hneg

section Numbers

variable {threads contention setting : Option ℤ} {key : String} {before value min max : ℤ}

/-- No pointer is below 0, so the readers of the worker pool accept every number. -/
theorem readWorkerNumber_some (key : String) (address : ℕ) (before value : ℤ) :
    readWorkerNumber key (some value) address before = ⟨1, value, []⟩ := by
  rw [readWorkerNumber, if_neg (Nat.not_lt_zero address)]

/-- `main` only cuts a number down to the maximum, it does not raise it. -/
theorem loadNumber_some (key : String) (address : ℕ) (before value max default : ℤ)
    (notice : String) :
    (loadNumber (readWorkerNumber key (some value) address before) max default notice).1 =
      Min.min value max := by
  rw [readWorkerNumber_some, loadNumber, if_pos (show (1 : ℤ) ≠ -1 by decide)]
  dsimp only
  rw [min_def]
  split_ifs <;> omega

theorem loadNumber_none (key : String) (address : ℕ) (before max default : ℤ) (notice : String) :
    (loadNumber (readWorkerNumber key none address before) max default notice).1 = default := rfl

/-- `read_int` as its bounds say: it accepts exactly the numbers between them, and a refused one
does not reach the variable. -/
structure ReadIntExact (setting : Option ℤ) (key : String) (value min max : ℤ) : Prop where
  accepted_iff : (readInt setting key value min max).res = 1 ↔
    ∃ readValue, setting = some readValue ∧ min ≤ readValue ∧ readValue ≤ max
  kept : (readInt setting key value min max).res ≠ 1 →
    (readInt setting key value min max).value = value

/-- No number is below the minimum and above the maximum, so `read_int` accepts every one. -/
theorem readInt_some (hle : min ≤ max) (key : String) (value readValue : ℤ) :
    readInt (some readValue) key value min max = ⟨1, readValue, []⟩ := by
  rw [readInt, if_neg (by omega)]

theorem readInt_exact_iff (hle : min ≤ max) (setting : Option ℤ) (key : String) (value : ℤ) :
    ReadIntExact setting key value min max ↔
      ∀ readValue ∈ setting, min ≤ readValue ∧ readValue ≤ max := by
  cases setting with
  | none =>
    refine iff_of_true ⟨iff_of_false ?_ ?_, fun _ => rfl⟩ ?_
    · exact show ¬ (-1 : ℤ) = 1 by decide
    · rintro ⟨_, hsome, -⟩
      exact absurd hsome (Option.some_ne_none _).symm
    · exact fun _ hmem => absurd hmem (Option.not_mem_none _)
  | some readValue =>
    have hread := readInt_some hle key value readValue
    constructor
    · intro hexact other hother
      obtain rfl := Option.some.inj hother
      obtain ⟨_, hsome, hrange⟩ := hexact.accepted_iff.mp (by rw [hread])
      rwa [Option.some.inj hsome]
    · intro hrange
      refine ⟨?_, ?_⟩ <;> rw [hread]
      · exact iff_of_true rfl ⟨readValue, rfl, hrange readValue rfl⟩
      · exact fun hne => absurd rfl hne

/-- The numbers of the worker pool behind `main`'s loading code: in their range, the default in
the place of a negative one, and good for a pause whatever number `rand` returns. -/
structure WorkerSettingsExact (threads contention : Option ℤ) (addresses : MainAddresses)
    (vars : MainVariables) : Prop where
  workersCount_nonneg : 0 ≤ (loadWorkersCount threads addresses.workersCount vars.workersCount).1
  workersCount_le : (loadWorkersCount threads addresses.workersCount vars.workersCount).1 ≤
    maxWorkers
  contention_nonneg : 0 ≤
    (loadWorkerContention contention addresses.workerContention vars.workerContention).1
  contention_le :
    (loadWorkerContention contention addresses.workerContention vars.workerContention).1 ≤
      maxWorkerContentionMillis
  threads_refused : ∀ value ∈ threads, value < 0 →
    (readWorkersCount threads addresses.workersCount vars.workersCount).res = -1 ∧
      (loadWorkersCount threads addresses.workersCount vars.workersCount).1 = defaultWorkers
  contention_refused : ∀ value ∈ contention, value < 0 →
    (readWorkerContention contention addresses.workerContention vars.workerContention).res = -1 ∧
      (loadWorkerContention contention addresses.workerContention vars.workerContention).1 =
        defaultWorkerContentionMillis
  pause : ∀ rand, PauseSound rand
    (loadWorkerContention contention addresses.workerContention vars.workerContention).1

/-- A number of the pool is loaded in its range exactly when it is not negative. -/
theorem loadNumber_mem_iff (key notice : String) (setting : Option ℤ) (address : ℕ)
    (before max default : ℤ) (hdefault : 0 ≤ default) (hmax : default ≤ max) :
    let loaded := (loadNumber (readWorkerNumber key setting address before) max default notice).1
    loaded ≤ max ∧ (0 ≤ loaded ↔ ∀ value ∈ setting, 0 ≤ value) := by
  cases setting with
  | none =>
    rw [loadNumber_none]
    exact ⟨hmax, iff_of_true hdefault fun _ hmem => absurd hmem (Option.not_mem_none _)⟩
  | some value =>
    rw [loadNumber_some]
    refine ⟨min_le_right value max, ?_⟩
    simp only [Option.mem_some_iff, forall_eq']
    have hpos : 0 ≤ max := hdefault.trans hmax
    exact le_min_iff.trans (and_iff_left hpos)

theorem worker_settings_exact_iff (threads contention : Option ℤ) (addresses : MainAddresses)
    (vars : MainVariables) :
    WorkerSettingsExact threads contention addresses vars ↔
      (∀ value ∈ threads, 0 ≤ value) ∧ ∀ value ∈ contention, 0 ≤ value := by
  obtain ⟨hcountLe, hcount⟩ := loadNumber_mem_iff "worker.threads"
    "Using default number of workers: " threads addresses.workersCount vars.workersCount
    maxWorkers defaultWorkers (by decide) (by decide)
  obtain ⟨hpauseLe, hpause⟩ := loadNumber_mem_iff "worker.contention" "Using default contention: "
    contention addresses.workerContention vars.workerContention maxWorkerContentionMillis
    defaultWorkerContentionMillis (by decide) (by decide)
  constructor
  · intro hexact
    exact ⟨hcount.mp hexact.workersCount_nonneg, hpause.mp hexact.contention_nonneg⟩
  · rintro ⟨hthreads, hcontention⟩
    have hnonneg := hpause.mpr hcontention
    refine ⟨hcount.mpr hthreads, hcountLe, hnonneg, hpauseLe, ?_, ?_, ?_⟩
    · exact fun value hvalue hneg => absurd (hthreads value hvalue) (not_le.mpr hneg)
    · exact fun value hvalue hneg => absurd (hcontention value hvalue) (not_le.mpr hneg)
    · exact fun rand => pauseSound_of_nonneg rand hnonneg (hpauseLe.trans_lt (by decide))

end Numbers

/-- The numbers of a configuration are accepted exactly in their range when no number of the
worker pool is negative and what `read_int` reads is in its range: the tests that should refuse
the others refuse nothing. -/
theorem numeric_settings_exact_iff (threads contention : Option ℤ) (addresses : MainAddresses)
    (vars : MainVariables) (setting : Option ℤ) (key : String) (value : ℤ) {min max : ℤ}
    (hle : min ≤ max) :
    (WorkerSettingsExact threads contention addresses vars ∧
        ReadIntExact setting key value min max) ↔
      ((∀ number ∈ threads, 0 ≤ number) ∧ (∀ number ∈ contention, 0 ≤ number)) ∧
        ∀ readValue ∈ setting, min ≤ readValue ∧ readValue ≤ max :=
  and_congr (worker_settings_exact_iff threads contention addresses vars)
    (readInt_exact_iff hle setting key value)

/-- The variables of queral.c before `main` loads anything. -/
def MainVariables.zero : MainVariables := ⟨[], [], 0, 0, 0, none, 0, [], [0]⟩

/-- The numbers of the sample configuration, and a number that `read_int` finds on its bound. -/
theorem numeric_settings_exact_sample :
    (0 : ℤ) ≤ 9 ∧ WorkerSettingsExact (some 2) (some 100) ⟨4096, 4104⟩ .zero ∧
      ReadIntExact (some 9) "limit" 5 0 9 := by
  have hle : (0 : ℤ) ≤ 9 := by decide
  refine ⟨hle, (numeric_settings_exact_iff (some 2) (some 100) ⟨4096, 4104⟩ .zero (some 9) "limit" 5
    hle).mpr ⟨⟨?_, ?_⟩, ?_⟩⟩ <;> rintro _ ⟨⟩ <;> decide

/-- A contention of -1 gets through: the divisor of the pause is 0, whatever `rand` returns. And
`read_int` takes a number above its maximum. -/
theorem negative_contention_divides_by_zero :
    (loadWorkerContention (some (-1)) 4104 0).1 = -1 ∧
      (∀ rand, sleepMillis rand (loadWorkerContention (some (-1)) 4104 0).1 = none) ∧
      (readInt (some 10) "limit" 5 0 9).res = 1 ∧
      ¬ (WorkerSettingsExact (some 2) (some (-1)) ⟨4096, 4104⟩ .zero ∧
        ReadIntExact (some 10) "limit" 5 0 9) := by
  have hloaded : (loadWorkerContention (some (-1)) 4104 0).1 = -1 := by decide
  refine ⟨hloaded, fun rand => ?_, by decide, fun hexact => ?_⟩
  · rw [hloaded]
    rfl
  · exact absurd (hloaded ▸ hexact.1.contention_nonneg) (by decide)

end EasyForetell