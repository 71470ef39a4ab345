import EasyForetell.ActionTable
import EasyForetell.Command
import EasyForetell.CurlClient
import EasyForetell.MemcachedClient

/-!
# The jobs of a worker (queral.c, worker_thread)

A worker handles one job after another in the same buffers: the local arrays of
`worker_thread` and the download buffer. What the outside sees of a job are the URLs
fetched, the calls of libmemcached, the commands written to the FIFO and the messages
logged.

## Main results

* `storedPages_handleCache`: what the CACHE branch stores
* `stored_page_iff`: a CACHE job stores the page it downloaded exactly when the page
  holds no NUL
-/

namespace EasyForetell

open Memory

/-- What `main` sets up before the workers start. The table is one in which
`find_action` meets no pointer that was never written. -/
structure Settings where
  actions : Option (List Slot)
  keyPrefix : Block
  expiration : ℤ
  fifoFilename : Block
  tame : ∀ name, findAction actions name ≠ .wild

/-- What the libraries and the FIFO answer while a job is handled: the transfer of its
URL, the texts of its errors, the two calls of libmemcached, and every write. -/
structure Responses where
  transfer : Transfer
  strerror : CurlCode → List UInt8
  deleted : MemcachedReturn
  stored : MemcachedReturn
  access : ℕ → FifoAccess

/-- The local arrays of `worker_thread` and the buffer of its cURL client. -/
structure Worker where
  job : Block
  command : Block
  key : Block
  newCommand : Block
  buffer : MemoryStruct

/-- What the outside sees of a worker. -/
inductive Operation
  | fetch (url : List UInt8)
  | memcached (request : MemcachedRequest)
  | write (str : List UInt8)
  | log (message : LogMessage)

/-- What a worker leaves in its buffers, and what it did. -/
structure JobResult where
  worker : Worker
  operations : List Operation

/-- The `FETCH` branch. -/
def handleFetch (responses : Responses) (w : Worker) : JobResult :=
  let fetched := curlFetchUrl responses.strerror responses.transfer
    { w.buffer with enabled := false } w.job
  ⟨{ w with buffer := fetched.buffer }, .fetch (cstr w.job) :: fetched.logs.map .log⟩

/-- The `CACHE` branch. -/
def handleCache (settings : Settings) (responses : Responses) (w : Worker) : JobResult :=
  let created := createKey w.key (memcachedMaxKey - 1) settings.keyPrefix w.job
  let w := { w with key := created.out }
  if created.res = -1 then ⟨w, created.logs.map .log⟩
  else
    let deleted := memcachedDeleteRecord responses.deleted w.key false
    let fetched := curlFetchUrl responses.strerror responses.transfer
      { w.buffer with enabled := true } w.job
    let w := { w with buffer := fetched.buffer }
    let before := .memcached deleted.request :: .log deleted.log :: .fetch (cstr w.job) ::
      fetched.logs.map .log
    if fetched.res ≠ -1 then
      let stored := memcachedOverrideRecord responses.stored w.key w.buffer.memory
        settings.expiration
      ⟨w, before ++ [.memcached stored.request, .log stored.log]⟩
    else ⟨w, before⟩

/-- The loop of the `UPDATE` branch, for at most that many iterations. -/
def updateLoop (settings : Settings) (access : ℕ → FifoAccess) (action : Action) :
    ℕ → UpdateLoop → UpdateLoop × List Operation
  | 0, loop => (loop, [])
  | count + 1, loop =>
    match loop.next action with
    | none => (loop, [])
    | some (loop', .command str) =>
      -- the value that `write_fifo` returns is ignored
      let written := writeFifo settings.fifoFilename (access loop.index) [] str
      let later := updateLoop settings access action count loop'
      (later.1, .write written.1 :: written.2.2.map .log ++ later.2)
    | some (loop', .message log) =>
      let later := updateLoop settings access action count loop'
      (later.1, .log log :: later.2)

/-- The `UPDATE` branch. -/
def handleUpdate (settings : Settings) (responses : Responses) (w : Worker) : JobResult :=
  match findAction settings.actions w.job with
  | .found _ action =>
    let updated := updateLoop settings responses.access action action.count (.start w.newCommand)
    ⟨{ w with newCommand := updated.1.newCommand }, updated.2⟩
  | .null => ⟨w, [.log ⟨.notice,
      ascii "Failed to update a non-existent cache: '" ++ cstr w.job ++ ascii "'"⟩]⟩
  | .wild => ⟨w, []⟩

/-- The worker takes the line in a slot of the queue apart. -/
def Worker.parse (w : Worker) (slot : Block) : CommandResult :=
  getCommand w.command (memcpy w.job slot (strlen slot + 1))

/-- One iteration of `worker_thread`, for the line in the slot that is dequeued. -/
def handleJob (settings : Settings) (responses : Responses) (w : Worker) (slot : Block) :
    JobResult :=
  let parsed := w.parse slot
  let w := { w with command := parsed.command, job := parsed.job }
  match parsed.res with
  | .fetch => handleFetch responses w
  | .cache => handleCache settings responses w
  | .update => handleUpdate settings responses w
  | .undefined => ⟨w, [.log ⟨.notice,
      ascii "Calling an undefined operation: " ++ cstr w.command⟩]⟩

/-- The worker after a sequence of jobs, each with the responses it meets. -/
def handleJobs (settings : Settings) : List (Block × Responses) → Worker → Worker
  | [], w => w
  | (slot, responses) :: history, w =>
    handleJobs settings history (handleJob settings responses w slot).worker

/-! ### What a CACHE job stores -/

/-- The records that operations store, with the bytes libmemcached is pointed to. -/
def storedPages (operations : List Operation) : List (List UInt8 × List UInt8) :=
  operations.filterMap fun operation =>
    match operation with
    | .memcached (.set key value _ _) => some (key, value)
    | _ => none

section Cache

variable {settings : Settings} {responses : Responses} {w : Worker}

@[simp] theorem storedPages_logs (logs : List LogMessage) : storedPages (logs.map .log) = [] := by
  induction logs with
  | nil => rfl
  | cons log logs ih => exact ih

theorem storedPages_append (first second : List Operation) :
    storedPages (first ++ second) = storedPages first ++ storedPages second :=
  List.filterMap_append

/-- When the key is accepted and the response fits and arrives, the CACHE branch stores
under the key the response up to its first NUL, whatever the buffers held before. -/
theorem storedPages_handleCache (settings : Settings) (responses : Responses) (w : Worker)
    (hkey : (createKey w.key (memcachedMaxKey - 1) settings.keyPrefix w.job).res = 1)
    (hfits : responses.transfer.body.length < bufferMemorySize)
    (hfetched : (curlFetchUrl responses.strerror responses.transfer
      { w.buffer with enabled := true } w.job).res = 1) :
    storedPages (handleCache settings responses w).operations =
      [(cstr settings.keyPrefix ++ cstr w.job, cstr responses.transfer.body)] := by
  obtain ⟨hholds, -⟩ := curlFetchUrl_of_fits responses.strerror
    (show ({ w.buffer with enabled := true } : MemoryStruct).enabled = true from rfl) w.job hfits
  have haccepted : ¬ (createKey w.key (memcachedMaxKey - 1) settings.keyPrefix w.job).res = -1 := by
    omega
  have harrived : (curlFetchUrl responses.strerror responses.transfer
      { w.buffer with enabled := true } w.job).res ≠ -1 := by
    omega
  -- what libmemcached is pointed to: the string in the buffer, not its bytes
  have hset := request_memcachedOverrideRecord responses.stored
    (createKey w.key (memcachedMaxKey - 1) settings.keyPrefix w.job).out
    (curlFetchUrl responses.strerror responses.transfer { w.buffer with enabled := true }
      w.job).buffer.memory settings.expiration
  rw [cstr_createKey haccepted, hholds.cstr_memory] at hset
  simp only [handleCache, if_neg haccepted, if_pos harrived, request_memcachedDeleteRecord, hset]
  rw [storedPages_append]
  -- the delete, the fetch and the messages store nothing
  exact congrArg (· ++ _) (storedPages_logs _)

theorem handleJob_of_cache {slot : Block} (hcommand : (w.parse slot).res = .cache) :
    handleJob settings responses w slot = handleCache settings responses
      { w with command := (w.parse slot).command, job := (w.parse slot).job } := by
  simp only [handleJob, hcommand]

end Cache

/-- Whatever jobs a worker handled before, a CACHE job whose key is accepted and whose
download of less than `BUFFER_MEMORY_SIZE` bytes succeeds stores exactly the page under
its key if and only if the page holds no NUL. -/
theorem stored_page_iff (settings : Settings) (start : Worker)
    (history : List (Block × Responses)) (responses : Responses) (slot : Block) :
    let w := handleJobs settings history start
    let parsed := w.parse slot
    let page := responses.transfer.body
    parsed.res = .cache →
    (createKey w.key (memcachedMaxKey - 1) settings.keyPrefix parsed.job).res = 1 →
    page.length < bufferMemorySize →
    (curlFetchUrl responses.strerror responses.transfer { w.buffer with enabled := true }
      parsed.job).res = 1 →
    (storedPages (handleJob settings responses w slot).operations =
        [(cstr settings.keyPrefix ++ cstr parsed.job, page)] ↔ (0 : UInt8) ∉ page) := by
  intro w parsed page hcommand hkey hfits hfetched
  have hstored := storedPages_handleCache settings responses
    { w with command := parsed.command, job := parsed.job } hkey hfits hfetched
  rw [handleJob_of_cache hcommand, hstored, ← cstr_eq_self_iff]
  simp [page, parsed]

/-- Settings without include files. -/
def exampleSettings : Settings where
  actions := none
  keyPrefix := ascii "__memc_"
  expiration := 7200
  fifoFilename := ascii "queral.fifo"
  tame := nofun

/-- A worker before its first job. -/
def exampleWorker : Worker := ⟨[], [], [], [], ⟨[], 0, false⟩⟩

/-- Responses to a job that downloads two chunks. -/
def exampleResponses (first second : List UInt8) : Responses where
  transfer := ⟨[first, second], .ok⟩
  strerror := fun _ => []
  deleted := .success
  stored := .success
  access := fun _ => .unopened

/-- A page of text is stored whole. -/
theorem stored_page_text :
    storedPages (handleJob exampleSettings (exampleResponses (ascii "ab") (ascii "c"))
      exampleWorker (ascii "CACHE u" ++ [0])).operations = [(ascii "__memc_u", ascii "abc")] := by
  have hfits : (exampleResponses (ascii "ab") (ascii "c")).transfer.body.length <
      bufferMemorySize := by
    unfold bufferMemorySize
    decide
  have hstored := (stored_page_iff exampleSettings exampleWorker []
    (exampleResponses (ascii "ab") (ascii "c")) (ascii "CACHE u" ++ [0]) (by decide) (by decide)
    hfits ((curlFetchUrl_of_fits _ rfl _ hfits).2.mpr rfl)).mpr (by decide)
  exact hstored.trans (by decide)

/-- A page with a NUL is stored up to the NUL. -/
theorem stored_page_cut_at_nul :
    let responses := exampleResponses (ascii "ab") [0, 99]
    let parsed := exampleWorker.parse (ascii "CACHE u" ++ [0])
    parsed.res = .cache ∧
      (createKey exampleWorker.key (memcachedMaxKey - 1) exampleSettings.keyPrefix
        parsed.job).res = 1 ∧
      responses.transfer.body.length < bufferMemorySize ∧
      (curlFetchUrl responses.strerror responses.transfer
        { exampleWorker.buffer with enabled := true } parsed.job).res = 1 ∧
      responses.transfer.body = ascii "ab" ++ [0, 99] ∧
      storedPages (handleJob exampleSettings responses exampleWorker
        (ascii "CACHE u" ++ [0])).operations = [(ascii "__memc_u", ascii "ab")] := by
  intro responses parsed
  have hfits : responses.transfer.body.length < bufferMemorySize := by
    unfold bufferMemorySize
    decide
  have hcommand : parsed.res = .cache := by decide
  have hkey : (createKey exampleWorker.key (memcachedMaxKey - 1) exampleSettings.keyPrefix
      parsed.job).res = 1 := by decide
  have hfetched : (curlFetchUrl responses.strerror responses.transfer
      { exampleWorker.buffer with enabled := true } parsed.job).res = 1 :=
    (curlFetchUrl_of_fits _ rfl _ hfits).2.mpr rfl
  refine ⟨hcommand, hkey, hfits, hfetched, by decide, ?_⟩
  rw [handleJob_of_cache hcommand]
  refine (storedPages_handleCache exampleSettings responses
    { exampleWorker with command := parsed.command, job := parsed.job } hkey hfits hfetched).trans ?_
  decide

end EasyForetell
