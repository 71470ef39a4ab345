import EasyForetell.JobLine
import EasyForetell.WorkerBounds

/-!
# What a job inherits from the jobs before it (queral.c, worker_thread)

The buffers of a worker live as long as the worker, and every job overwrites only a part of
them. Two workers that come to the same job with different buffers nevertheless do the same
for it: a branch reads only what the job itself has put there. The one exception is the text
logged for an undefined operation, which is taken from `command` also when `get_command` found
no word to put there.

## Main results

* `curlFetchUrl_congr`: a fetch does not depend on what the buffer held before
* `handleJob_congr`: the operations depend on what the parser leaves
* `job_independent_iff`: when two histories make no difference
-/

namespace EasyForetell

open Memory

/-! ### The download buffer -/

section Download

variable {mem mem' : MemoryStruct} {received : List UInt8}

/-- Two buffers that received the same bytes treat a chunk alike. -/
theorem writeCallback_congr (h : mem.Holds received) (h' : mem'.Holds received)
    (henabled : mem.enabled = mem'.enabled) (chunk : List UInt8) :
    let taken := writeCallback mem chunk
    let taken' := writeCallback mem' chunk
    taken.returned = taken'.returned ∧ taken.logs = taken'.logs ∧
      taken.buffer.enabled = taken'.buffer.enabled ∧
      ∃ received', taken.buffer.Holds received' ∧ taken'.buffer.Holds received' := by
  cases hmem : mem.enabled with
  | false =>
    have hmem' : mem'.enabled = false := henabled ▸ hmem
    simp only [writeCallback, hmem, hmem', Bool.not_false, if_true, true_and]
    exact ⟨received, h, h'⟩
  | true =>
    have hmem' : mem'.enabled = true := henabled ▸ hmem
    by_cases hfits : received.length + chunk.length < bufferMemorySize
    · obtain ⟨hholds, hkept, hreturned, hlogs⟩ := h.writeCallback hmem hfits
      obtain ⟨hholds', hkept', hreturned', hlogs'⟩ := h'.writeCallback hmem' hfits
      exact ⟨hreturned.trans hreturned'.symm, hlogs.trans hlogs'.symm, hkept.trans hkept'.symm,
        _, hholds, hholds'⟩
    · have hfull : mem.size + chunk.length + 1 > bufferMemorySize := by
        rw [h.size_eq]
        omega
      have hfull' : mem'.size + chunk.length + 1 > bufferMemorySize := by
        rw [h'.size_eq]
        omega
      simp only [writeCallback, hmem, hmem', Bool.not_true, Bool.false_eq_true,
        if_false, if_pos hfull, if_pos hfull', true_and]
      exact ⟨received, h, h'⟩

/-- So they treat a whole transfer alike. -/
theorem curlEasyPerform_congr (h : mem.Holds received)
    (h' : mem'.Holds received) (henabled : mem.enabled = mem'.enabled) (code : CurlCode)
    (chunks : List (List UInt8)) :
    let performed := curlEasyPerform mem code chunks
    let performed' := curlEasyPerform mem' code chunks
    performed.code = performed'.code ∧ performed.logs = performed'.logs ∧
      performed.buffer.enabled = performed'.buffer.enabled ∧
      ∃ received', performed.buffer.Holds received' ∧ performed'.buffer.Holds received' := by
  induction chunks generalizing mem mem' received with
  | nil => exact ⟨rfl, rfl, henabled, received, h, h'⟩
  | cons chunk chunks ih =>
    obtain ⟨hreturned, hlogs, hkept, received', hholds, hholds'⟩ :=
      writeCallback_congr h h' henabled chunk
    obtain ⟨hcode, hlater, hrest⟩ := ih hholds hholds' hkept
    simp only [curlEasyPerform, hreturned]
    split_ifs
    · exact ⟨hcode, by rw [hlogs, hlater], hrest⟩
    · exact ⟨rfl, hlogs, hkept, received', hholds, hholds'⟩

/-- A fetch clears the buffer, so its outcome, its messages and the page it leaves depend on the
URL and the transfer. -/
theorem curlFetchUrl_congr (strerror : CurlCode → List UInt8) (transfer : Transfer)
    {buffer buffer' : MemoryStruct} (henabled : buffer.enabled = buffer'.enabled)
    {url url' : Block} (hurl : cstr url = cstr url') :
    let fetched := curlFetchUrl strerror transfer buffer url
    let fetched' := curlFetchUrl strerror transfer buffer' url'
    fetched.res = fetched'.res ∧ fetched.logs = fetched'.logs ∧
      cstr fetched.buffer.memory = cstr fetched'.buffer.memory := by
  obtain ⟨hcode, hlogs, hkept, received, hholds, hholds'⟩ :=
    curlEasyPerform_congr buffer.holds_cleared buffer'.holds_cleared henabled transfer.code
      transfer.chunks
  simp only [MemoryStruct.cleared] at hcode hlogs hkept hholds hholds'
  have hpage := hholds.cstr_memory.trans hholds'.cstr_memory.symm
  simp only [curlFetchUrl, hcode, hlogs, hkept, hurl, hholds.size_eq, hholds'.size_eq]
  split_ifs <;> exact ⟨rfl, rfl, hpage⟩

end Download

/-! ### The branches -/

section Branches

theorem memcachedDeleteRecord_congr (answer : MemcachedReturn) {key key' : Block}
    (hkey : cstr key = cstr key') (logError : Bool) :
    memcachedDeleteRecord answer key logError = memcachedDeleteRecord answer key' logError := by
  simp only [memcachedDeleteRecord, take_strlen, hkey]

theorem memcachedOverrideRecord_congr (answer : MemcachedReturn) {key key' value value' : Block}
    (hkey : cstr key = cstr key') (hvalue : cstr value = cstr value') (expiration : ℤ) :
    memcachedOverrideRecord answer key value expiration =
      memcachedOverrideRecord answer key' value' expiration := by
  simp only [memcachedOverrideRecord, take_strlen, hkey, hvalue]

variable {settings : Settings} {responses : Responses} {w w' : Worker}

/-- The FETCH branch reads the URL only. -/
theorem handleFetch_congr (hjob : cstr w.job = cstr w'.job) :
    (handleFetch responses w).operations = (handleFetch responses w').operations := by
  obtain ⟨-, hlogs, -⟩ := curlFetchUrl_congr responses.strerror responses.transfer
    (show ({ w.buffer with enabled := false } : MemoryStruct).enabled =
      ({ w'.buffer with enabled := false } : MemoryStruct).enabled from rfl) hjob
  simp only [handleFetch, hjob, hlogs]

/-- The CACHE branch makes its key and its page anew. -/
theorem handleCache_congr (hjob : cstr w.job = cstr w'.job) :
    (handleCache settings responses w).operations =
      (handleCache settings responses w').operations := by
  have hlength : strlen w.job = strlen w'.job := congrArg List.length hjob
  obtain ⟨hres, hlogs, hpage⟩ := curlFetchUrl_congr responses.strerror responses.transfer
    (show ({ w.buffer with enabled := true } : MemoryStruct).enabled =
      ({ w'.buffer with enabled := true } : MemoryStruct).enabled from rfl) hjob
  by_cases haccepted : strlen settings.keyPrefix + strlen w'.job < memcachedMaxKey ∧
      strlen settings.keyPrefix + strlen w'.job ≤ memcachedMaxKey - 1
  · obtain ⟨hcreated, hkey, -⟩ := createKey_of_accepted w.key (hlength ▸ haccepted)
    obtain ⟨hcreated', hkey', -⟩ := createKey_of_accepted w'.key haccepted
    rw [hjob, ← hkey'] at hkey
    have hdeleted := memcachedDeleteRecord_congr responses.deleted hkey false
    have hstored := memcachedOverrideRecord_congr responses.stored hkey hpage settings.expiration
    have hone : ¬ (1 : ℤ) = -1 := by decide
    simp only [handleCache, hcreated, hcreated', if_neg hone, hdeleted, hstored, hres, hlogs, hjob]
    split_ifs <;> rfl
  · simp only [handleCache, createKey, hlength, if_neg haccepted, if_true, hjob]

/-- Two loops of the UPDATE branch at the same page do the same, whatever the pages before left
in their buffers. -/
theorem updateLoop_congr {action : Action} {access : ℕ → FifoAccess} {loop loop' : UpdateLoop}
    (hready : loop.Ready) (hready' : loop'.Ready) (hindex : loop.index = loop'.index) (count : ℕ) :
    (updateLoop settings access action count loop).2 =
      (updateLoop settings access action count loop').2 := by
  induction count generalizing loop loop' with
  | zero => rfl
  | succ count ih =>
    cases hpage : action.refresh loop.index with
    | none =>
      have hpage' : action.refresh loop'.index = none := hindex ▸ hpage
      simp only [updateLoop, UpdateLoop.next, hpage, hpage']
    | some page =>
      have hpage' : action.refresh loop'.index = some page := hindex ▸ hpage
      have hlength := hready.length1_eq.trans hready'.length1_eq.symm
      by_cases hfits : loop.length1 + strlen page + 1 ≤ bufferSize
      · -- both write the same command, and restore the same word
        have hnext := UpdateLoop.next_of_fits hpage hfits
        have hnext' := UpdateLoop.next_of_fits hpage' (hlength ▸ hfits)
        obtain ⟨hbuilt, hagain⟩ := hready.cstr_built page
        obtain ⟨hbuilt', hagain'⟩ := hready'.cstr_built page
        have hwritten := writeFifo_congr settings.fifoFilename (access loop.index) []
          (hbuilt.trans hbuilt'.symm)
        have hlater := ih hagain hagain' (congrArg (· + 1) hindex)
        rw [hindex] at hwritten hlater
        simp only [updateLoop, hnext, hnext', hindex]
        rw [hwritten, hlater]
      · -- the page is skipped, and its message names no buffer
        have hcut := hready.cstr_cut
        have hcut' := hready'.cstr_cut
        have hlater := ih
          (show UpdateLoop.Ready { loop with
            index := loop.index + 1, newCommand := store loop.newCommand loop.length1 [0] } from
              ⟨hready.length1_eq, hcut ▸ List.prefix_rfl⟩)
          (show UpdateLoop.Ready { loop' with
            index := loop'.index + 1, newCommand := store loop'.newCommand loop'.length1 [0] } from
              ⟨hready'.length1_eq, hcut' ▸ List.prefix_rfl⟩)
          (congrArg (· + 1) hindex)
        simp only [updateLoop, UpdateLoop.next, hpage, hpage', ← hlength, if_neg hfits]
        rw [hlength] at hlater ⊢
        rw [hlater]

theorem findActionFrom_congr {name name' : Block} (hname : cstr name = cstr name')
    (slots : List Slot) (index : ℕ) :
    findActionFrom name slots index = findActionFrom name' slots index := by
  induction slots generalizing index with
  | nil => rfl
  | cons slot slots ih =>
    cases slot with
    | uninitialised => rfl
    | null => rfl
    | action a => simp only [findActionFrom, hname, ih]

/-- The UPDATE branch reads the name of the cache only. -/
theorem handleUpdate_congr (hjob : cstr w.job = cstr w'.job) :
    (handleUpdate settings responses w).operations =
      (handleUpdate settings responses w').operations := by
  have hfound : findAction settings.actions w.job = findAction settings.actions w'.job := by
    cases hactions : settings.actions with
    | none => rfl
    | some slots => exact findActionFrom_congr hjob slots 0
  unfold handleUpdate
  rw [hfound]
  cases findAction settings.actions w'.job with
  | found index action =>
    exact updateLoop_congr (UpdateLoop.ready_start w.newCommand)
      (UpdateLoop.ready_start w'.newCommand) rfl action.count
  | null => simp only [hjob]
  | wild => rfl

/-- What a worker does for a job depends on what the parser leaves of it: the kind, the string
in `job` and, for an undefined operation only, the string in `command`. -/
theorem handleJob_congr {slot slot' : Block} (hres : (w.parse slot).res = (w'.parse slot').res)
    (hjob : cstr (w.parse slot).job = cstr (w'.parse slot').job)
    (hcommand : (w.parse slot).res = .undefined →
      cstr (w.parse slot).command = cstr (w'.parse slot').command) :
    (handleJob settings responses w slot).operations =
      (handleJob settings responses w' slot').operations := by
  unfold handleJob
  cases hkind : (w.parse slot).res with
  | fetch =>
    simp only [hkind, ← hres]
    exact handleFetch_congr hjob
  | cache =>
    simp only [hkind, ← hres]
    exact handleCache_congr hjob
  | update =>
    simp only [hkind, ← hres]
    exact handleUpdate_congr hjob
  | undefined =>
    simp only [hkind, ← hres, hcommand hkind]

end Branches

/-! ### Two histories -/

/-- No branch writes to `command` behind the parser. -/
theorem command_handleJob (settings : Settings) (responses : Responses) (w : Worker)
    (slot : Block) :
    (handleJob settings responses w slot).worker.command = (w.parse slot).command := by
  unfold handleJob
  cases hkind : (w.parse slot).res with
  | fetch => simp only [hkind, handleFetch]
  | cache =>
    simp only [hkind, handleCache]
    split_ifs <;> rfl
  | update =>
    simp only [hkind, handleUpdate]
    cases findAction settings.actions (w.parse slot).job <;> rfl
  | undefined => simp only [hkind]

/-- What a history leaves in `command` is the word of its last line that had one. -/
theorem cstr_command_handleJobs (settings : Settings) {history : List (Block × Responses)}
    (hnul : ∀ job ∈ history, (0 : UInt8) ∈ job.1) (start : Worker) :
    cstr (handleJobs settings history start).command =
      (history.map fun job => cstr job.1).foldl wordBehind (cstr start.command) := by
  induction history generalizing start with
  | nil => rfl
  | cons job history ih =>
    obtain ⟨hfirst, hlater⟩ := List.forall_mem_cons.mp hnul
    rw [handleJobs, ih hlater, command_handleJob, (parse_spec start hfirst).2.1]
    rfl

/-- What two workers that share nothing but the settings do for the same line: the same, unless
the line has no word before a space and their last lines with one had different words. -/
theorem operations_eq_iff (settings : Settings) (responses : Responses) (w w' : Worker)
    {slot : Block} (hnul : (0 : UInt8) ∈ slot) :
    (handleJob settings responses w slot).operations =
        (handleJob settings responses w' slot).operations ↔
      space ∈ trim (cstr slot) ∨ cstr w.command = cstr w'.command := by
  obtain ⟨hres, hjob⟩ := parse_congr w w' hnul
  by_cases hspace : space ∈ trim (cstr slot)
  · refine iff_of_true (handleJob_congr hres hjob fun _ => ?_) (Or.inl hspace)
    rw [(parse_spec w hnul).2.1, (parse_spec w' hnul).2.1, wordBehind, wordBehind, if_pos hspace,
      if_pos hspace]
  · obtain ⟨hundefined, hcommand⟩ := parse_of_no_space w hnul hspace
    obtain ⟨hundefined', hcommand'⟩ := parse_of_no_space w' hnul hspace
    rw [or_iff_right hspace]
    constructor
    · intro hsame
      simp only [handleJob, hundefined, hundefined', hcommand, hcommand', List.cons.injEq,
        Operation.log.injEq, LogMessage.mk.injEq, true_and, and_true] at hsame
      exact List.append_cancel_left hsame
    · intro hword
      refine handleJob_congr hres hjob fun _ => ?_
      rw [hcommand, hcommand', hword]

/-- Whatever a worker handled before, it does the same for the next job, if and only if the job
has a space in it or both histories have left the same word in `command`. -/
theorem job_independent_iff (settings : Settings) (responses : Responses) (start : Worker)
    (history history' : List (Block × Responses)) (slot : Block) (hnul : (0 : UInt8) ∈ slot) :
    let w := handleJobs settings history start
    let w' := handleJobs settings history' start
    (handleJob settings responses w slot).operations =
        (handleJob settings responses w' slot).operations ↔
      space ∈ trim (cstr slot) ∨ cstr w.command = cstr w'.command :=
  operations_eq_iff settings responses _ _ hnul

/-- A line with a space is handled alike behind two different histories. -/
theorem job_independent_fetch :
    let history := [(ascii "A b" ++ [0], exampleResponses [] [])]
    let history' := [(ascii "B b" ++ [0], exampleResponses [] [])]
    (handleJob exampleSettings (exampleResponses [] []) (handleJobs exampleSettings history
        exampleWorker) (ascii "FETCH u" ++ [0])).operations =
      (handleJob exampleSettings (exampleResponses [] []) (handleJobs exampleSettings history'
        exampleWorker) (ascii "FETCH u" ++ [0])).operations :=
  (job_independent_iff exampleSettings (exampleResponses [] []) exampleWorker
    [(ascii "A b" ++ [0], exampleResponses [] [])] [(ascii "B b" ++ [0], exampleResponses [] [])]
    (ascii "FETCH u" ++ [0]) (by decide)).mpr (Or.inl (by decide))

/-- The line `x` is logged as the operation `A` behind one history, and as `B` behind another. -/
theorem job_logs_stale_word :
    let history := [(ascii "A b" ++ [0], exampleResponses [] [])]
    let history' := [(ascii "B b" ++ [0], exampleResponses [] [])]
    (handleJob exampleSettings (exampleResponses [] []) (handleJobs exampleSettings history
        exampleWorker) (ascii "x" ++ [0])).operations =
      [.log ⟨.notice, ascii "Calling an undefined operation: A"⟩] ∧
    (handleJob exampleSettings (exampleResponses [] []) (handleJobs exampleSettings history'
        exampleWorker) (ascii "x" ++ [0])).operations =
      [.log ⟨.notice, ascii "Calling an undefined operation: B"⟩] ∧
    (handleJob exampleSettings (exampleResponses [] []) (handleJobs exampleSettings history
        exampleWorker) (ascii "x" ++ [0])).operations ≠
      (handleJob exampleSettings (exampleResponses [] []) (handleJobs exampleSettings history'
        exampleWorker) (ascii "x" ++ [0])).operations := by
  refine ⟨rfl, rfl, fun hsame => ?_⟩
  have hword := (operations_eq_iff _ _ _ _ (by decide)).mp hsame
  exact absurd hword (by decide)

end EasyForetell
