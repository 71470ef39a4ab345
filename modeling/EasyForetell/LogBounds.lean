import EasyForetell.JobIndependence
import EasyForetell.MainSettings

/-!
# The messages about a job (logger.c, queral.c)

Every message is formatted with `vsprintf` into an array of `QUERAL_LOG_BUFFER_SIZE` bytes. The
messages of a worker quote the word, the argument or the key of its job, the name of a cache or
the name of the FIFO, and none of the calls looks at their length. A job is safe when what it
quotes leaves room for the text around it, in the longest message that the answers of the
libraries can bring about.

## Main results

* `mem_logs_curlFetchUrl`, `mem_log_updateLoop`: the messages of a fetch and of an update
* `job_messages_fit_iff`: which jobs are logged within the buffer
-/

namespace EasyForetell

open Memory

/-- `QUERAL_LOG_BUFFER_SIZE`. -/
def queralLogBufferSize : ℕ := 256

/-- A message fits in the buffer it is formatted in, with its NUL. -/
def LogMessage.Fits (message : LogMessage) : Prop :=
  message.text.length + 1 ≤ queralLogBufferSize

/-- The length of a message that quotes a text. -/
theorem length_quoted (before behind : String) (text : List UInt8) :
    (ascii before ++ text ++ ascii behind).length =
      text.length + (before.length + behind.length) := by
  rw [List.length_append, List.length_append, length_ascii, length_ascii]
  omega

/-- The error functions of libcurl and libmemcached return empty texts. -/
structure Responses.Quiet (responses : Responses) : Prop where
  strerror : ∀ code, responses.strerror code = []
  deleted : ∀ text, responses.deleted = .failed text → text = []
  stored : ∀ text, responses.stored = .failed text → text = []

/-! ### The messages of a fetch -/

section Fetch

variable {mem : MemoryStruct}

theorem memoryLimitMessage_fits : memoryLimitMessage.Fits := by
  unfold LogMessage.Fits memoryLimitMessage bufferMemorySize
  decide

/-- A call of `write_callback` keeps the flag, keeps the size below the limit, and logs the limit
or nothing. -/
theorem writeCallback_inv (mem : MemoryStruct) (chunk : List UInt8) :
    (writeCallback mem chunk).buffer.enabled = mem.enabled ∧
      (mem.size < bufferMemorySize → (writeCallback mem chunk).buffer.size < bufferMemorySize) ∧
      ∀ message ∈ (writeCallback mem chunk).logs, message = memoryLimitMessage := by
  unfold writeCallback
  dsimp only
  split_ifs
  · exact ⟨rfl, id, fun _ hmem => absurd hmem List.not_mem_nil⟩
  · exact ⟨rfl, id, fun _ hmem => List.mem_singleton.mp hmem⟩
  · refine ⟨rfl, fun _ => ?_, fun _ hmem => absurd hmem List.not_mem_nil⟩
    dsimp only
    omega

theorem curlEasyPerform_inv (mem : MemoryStruct) (code : CurlCode) (chunks : List (List UInt8)) :
    (curlEasyPerform mem code chunks).buffer.enabled = mem.enabled ∧
      (mem.size < bufferMemorySize →
        (curlEasyPerform mem code chunks).buffer.size < bufferMemorySize) ∧
      ∀ message ∈ (curlEasyPerform mem code chunks).logs, message = memoryLimitMessage := by
  induction chunks generalizing mem with
  | nil => exact ⟨rfl, id, fun _ hmem => absurd hmem List.not_mem_nil⟩
  | cons chunk chunks ih =>
    obtain ⟨hkept, hsize, hlogs⟩ := writeCallback_inv mem chunk
    obtain ⟨hkept', hsize', hlogs'⟩ := ih (writeCallback mem chunk).buffer
    unfold curlEasyPerform
    dsimp only
    split_ifs
    · refine ⟨hkept'.trans hkept, fun hlt => hsize' (hsize hlt), fun message hmem => ?_⟩
      exact (List.mem_append.mp hmem).elim (hlogs message) (hlogs' message)
    · exact ⟨hkept, hsize, hlogs⟩

/-- The message about a page that is stored: its size has at most six digits. -/
theorem length_retrieved {size : ℕ} (hsize : size < bufferMemorySize) (url : Block) :
    (ascii "URL: " ++ cstr url ++ (ascii ", succeeded, " ++ ascii (toString size) ++
      ascii " bytes retrieved")).length ≤ strlen url + 40 := by
  have hlimit : bufferMemorySize = 102400 := by unfold bufferMemorySize; rfl
  have hdigits : (toString size).length ≤ 6 :=
    (Nat.length_repr_le_iff (by decide)).mpr (hsize.trans (by rw [hlimit]; decide))
  have houtcome : (ascii ", succeeded, " ++ ascii (toString size) ++
      ascii " bytes retrieved").length = (ascii (toString size)).length + 29 := length_quoted _ _ _
  have hurl : (ascii "URL: ").length = 5 := length_ascii _
  rw [List.length_append, List.length_append, houtcome, hurl, length_ascii, ← strlen]
  omega

/-- The last message of a fetch quotes the URL. The longest one when the page is stored tells its
size, and otherwise that it was only fetched. -/
theorem exists_log_curlFetchUrl {strerror : CurlCode → List UInt8}
    (hquiet : ∀ code, strerror code = []) (transfer : Transfer) (buffer : MemoryStruct)
    (url : Block) :
    ∃ last : LogMessage, (curlFetchUrl strerror transfer buffer url).logs =
        (curlEasyPerform buffer.cleared transfer.code transfer.chunks).logs ++ [last] ∧
      last.text.length ≤ strlen url + if buffer.enabled then 40 else 28 := by
  obtain ⟨hkept, hsize, -⟩ := curlEasyPerform_inv buffer.cleared transfer.code transfer.chunks
  have henabled : (curlEasyPerform buffer.cleared transfer.code transfer.chunks).buffer.enabled =
      buffer.enabled := hkept
  have hlt := hsize (show 0 < bufferMemorySize by unfold bufferMemorySize; decide)
  have hfailed : (ascii "URL: " ++ cstr url ++ ascii ", failed with error: ").length =
      strlen url + 26 := length_quoted _ _ _
  simp only [MemoryStruct.cleared] at henabled hlt ⊢
  by_cases hstored : buffer.enabled = true
  · simp only [curlFetchUrl, henabled, if_pos hstored, hquiet, List.append_nil]
    split_ifs with hok
    · exact ⟨_, rfl, length_retrieved hlt url⟩
    · exact ⟨_, rfl, hfailed.le.trans (by omega)⟩
  · have hlength : (ascii "URL: " ++ cstr url ++ ascii ", succeeded, fetch only").length =
        strlen url + 28 := length_quoted _ _ _
    simp only [curlFetchUrl, henabled, if_neg hstored, hquiet, List.append_nil]
    split_ifs with hok
    · exact ⟨_, rfl, hlength.le⟩
    · exact ⟨_, rfl, hfailed.le.trans (by omega)⟩

/-- The messages of a fetch: the limit, and one that quotes the URL. -/
theorem mem_logs_curlFetchUrl {strerror : CurlCode → List UInt8}
    (hquiet : ∀ code, strerror code = []) (transfer : Transfer) (buffer : MemoryStruct)
    (url : Block) {message : LogMessage}
    (hmem : message ∈ (curlFetchUrl strerror transfer buffer url).logs) :
    message = memoryLimitMessage ∨
      message.text.length ≤ strlen url + if buffer.enabled then 40 else 28 := by
  obtain ⟨-, -, hlogs⟩ := curlEasyPerform_inv buffer.cleared transfer.code transfer.chunks
  obtain ⟨last, hlast, hlength⟩ := exists_log_curlFetchUrl hquiet transfer buffer url
  rw [hlast] at hmem
  rcases List.mem_append.mp hmem with hearly | hlater
  · exact Or.inl (hlogs message hearly)
  · obtain rfl := List.mem_singleton.mp hlater
    exact Or.inr hlength

end Fetch

/-! ### The messages of an update -/

section Update

variable {settings : Settings} {access : ℕ → FifoAccess} {action : Action} {loop : UpdateLoop}

/-- `log_error ("Maximum buffer length exceeded: '%d'")`. -/
def pageLimitMessage : LogMessage :=
  ⟨.error, ascii "Maximum buffer length exceeded: '" ++ ascii (toString bufferSize) ++ ascii "'"⟩

/-- `log_error ("Failed to open socket for writing: '%s'")`. -/
def openFailedMessage (fifoFilename : Block) : LogMessage :=
  ⟨.error, ascii "Failed to open socket for writing: '" ++ cstr fifoFilename ++ ascii "'"⟩

theorem pageLimitMessage_fits : pageLimitMessage.Fits := by
  unfold LogMessage.Fits
  decide

theorem length_openFailedMessage (fifoFilename : Block) :
    (openFailedMessage fifoFilename).text.length = strlen fifoFilename + 37 :=
  length_quoted _ _ _

/-- The longest message of a write tells that the FIFO cannot be opened. -/
theorem length_logs_writeFifo {fifoFilename : Block} {access : FifoAccess} {fifo : List UInt8}
    {str : Block} {message : LogMessage}
    (hmem : message ∈ (writeFifo fifoFilename access fifo str).2.2) :
    message.text.length ≤ strlen fifoFilename + 37 := by
  have hfailure : (ascii "Failed to write on socket: '" ++ cstr fifoFilename ++ ascii "'").length =
      strlen fifoFilename + 29 := length_quoted _ _ _
  cases access with
  | unopened =>
    obtain rfl := List.mem_singleton.mp hmem
    exact (length_openFailedMessage fifoFilename).le
  | failed =>
    obtain rfl := List.mem_singleton.mp hmem
    dsimp only
    omega
  | wrote count =>
    simp only [writeFifo] at hmem
    split_ifs at hmem
    · exact absurd hmem List.not_mem_nil
    · obtain rfl := List.mem_singleton.mp hmem
      dsimp only
      omega

/-- A message of the UPDATE branch is about a page that is too long, or about the write of one
that fits. -/
theorem mem_log_updateLoop (hready : loop.Ready) (hindex : loop.index ≤ action.pages.length)
    {count : ℕ} {message : LogMessage}
    (hmem : .log message ∈ (updateLoop settings access action count loop).2) :
    message = pageLimitMessage ∨ (∃ page ∈ action.pages, strlen page + 7 ≤ bufferSize) ∧
      message.text.length ≤ strlen settings.fifoFilename + 37 := by
  induction count generalizing loop with
  | zero => exact absurd hmem List.not_mem_nil
  | succ count ih =>
    have hrefresh := Action.refresh_eq_getElem? hindex
    cases hpage : action.refresh loop.index with
    | none => simp [updateLoop, UpdateLoop.next, hpage] at hmem
    | some page =>
      have hget : action.pages[loop.index]? = some page := hrefresh ▸ hpage
      have hlater : loop.index + 1 ≤ action.pages.length :=
        Nat.succ_le_of_lt (List.getElem?_eq_some_iff.mp hget).1
      have hlength1 := hready.length1_le.1
      by_cases hfits : strlen page + 7 ≤ bufferSize
      · have hnext := UpdateLoop.next_of_fits hpage (by omega)
        simp only [updateLoop, hnext, List.mem_cons, List.mem_append, reduceCtorEq, false_or,
          List.mem_map, Operation.log.injEq, exists_eq_right] at hmem
        rcases hmem with hwrite | hrest
        · exact Or.inr ⟨⟨page, List.mem_of_getElem? hget, hfits⟩, length_logs_writeFifo hwrite⟩
        · exact ih (hready.cstr_built page).2 hlater hrest
      · obtain ⟨newCommand, hnext, -, hagain⟩ := hready.next_of_long hpage (by omega)
        simp only [updateLoop, hnext, List.mem_cons, Operation.log.injEq] at hmem
        rcases hmem with hlimit | hrest
        · exact Or.inl hlimit
        · exact ih hagain hlater hrest

/-- When the FIFO cannot be opened, every page that fits is logged so. -/
theorem log_mem_updateLoop_of_unopened (hready : loop.Ready)
    (hindex : loop.index ≤ action.pages.length) {count : ℕ}
    (hcount : action.pages.length ≤ loop.index + count)
    (hpages : ∃ page ∈ action.pages.drop loop.index, strlen page + 7 ≤ bufferSize) :
    .log (openFailedMessage settings.fifoFilename) ∈
      (updateLoop settings (fun _ => .unopened) action count loop).2 := by
  induction count generalizing loop with
  | zero =>
    obtain ⟨page, hmem, -⟩ := hpages
    rw [Nat.add_zero] at hcount
    rw [List.drop_eq_nil_of_le hcount] at hmem
    exact absurd hmem List.not_mem_nil
  | succ count ih =>
    obtain ⟨page, hmem, hfits⟩ := hpages
    have hlater : loop.index < action.pages.length := by
      by_contra hover
      rw [List.drop_eq_nil_of_le (not_lt.mp hover)] at hmem
      exact absurd hmem List.not_mem_nil
    have hfirst : action.refresh loop.index = some action.pages[loop.index] := by
      rw [Action.refresh_eq_getElem? hindex, List.getElem?_eq_getElem hlater]
    rw [List.drop_eq_getElem_cons hlater] at hmem
    generalize action.pages[loop.index] = first at hfirst hmem
    have hlength1 := hready.length1_le.1
    by_cases hshort : strlen first + 7 ≤ bufferSize
    · -- the first page is one
      have hnext := UpdateLoop.next_of_fits hfirst (by omega)
      simp only [updateLoop, hnext, List.mem_cons, List.mem_append, List.mem_map]
      exact Or.inl (Or.inr ⟨_, List.mem_singleton_self _, rfl⟩)
    · -- the first page is too long, and another one follows
      obtain ⟨newCommand, hnext, -, hagain⟩ := hready.next_of_long hfirst (by omega)
      have hrest : page ∈ action.pages.drop (loop.index + 1) :=
        (List.mem_cons.mp hmem).resolve_left fun heq => hshort (heq ▸ hfits)
      simp only [updateLoop, hnext, List.mem_cons]
      exact Or.inr (ih hagain hlater (by dsimp only; omega) ⟨page, hrest, hfits⟩)

end Update

/-! ### The messages of the branches -/

/-- Whatever the libraries answer, the messages among these operations fit in the buffer. -/
def MessagesFit (operations : Responses → List Operation) : Prop :=
  ∀ responses, responses.Quiet → ∀ message, .log message ∈ operations responses → message.Fits

section Branches

variable {settings : Settings} {w : Worker}

/-- Responses with empty texts, for a download of nothing. -/
def quietResponses (deleted : MemcachedReturn) : Responses where
  transfer := ⟨[], .ok⟩
  strerror := fun _ => []
  deleted := deleted
  stored := .success
  access := fun _ => .unopened

theorem quiet_quietResponses : (quietResponses (.failed [])).Quiet :=
  ⟨fun _ => rfl, fun _ heq => (MemcachedReturn.failed.inj heq).symm, nofun⟩

/-- FETCH: the longest message tells that the URL was only fetched. -/
theorem messagesFit_handleFetch_iff :
    MessagesFit (fun responses => (handleFetch responses w).operations) ↔
      strlen w.job + 29 ≤ queralLogBufferSize := by
  constructor
  · intro hfit
    have hfetched := hfit _ quiet_quietResponses
      ⟨.info, ascii "URL: " ++ cstr w.job ++ ascii ", succeeded, fetch only"⟩
      (by simp [handleFetch, curlFetchUrl, curlEasyPerform, quietResponses])
    have hlength : (ascii "URL: " ++ cstr w.job ++ ascii ", succeeded, fetch only").length =
        strlen w.job + 28 := length_quoted _ _ _
    rw [LogMessage.Fits, hlength] at hfetched
    exact hfetched
  · intro hshort responses hquiet message hmem
    simp only [handleFetch, List.mem_cons, reduceCtorEq, false_or, List.mem_map,
      Operation.log.injEq, exists_eq_right] at hmem
    rcases mem_logs_curlFetchUrl hquiet.strerror _ _ _ hmem with rfl | hlength
    · exact memoryLimitMessage_fits
    · unfold LogMessage.Fits
      simp only [Bool.false_eq_true, if_false] at hlength
      omega

/-- UPDATE of an unknown cache: its name is quoted. -/
theorem messagesFit_handleUpdate_of_null (hnull : findAction settings.actions w.job = .null) :
    MessagesFit (fun responses => (handleUpdate settings responses w).operations) ↔
      strlen w.job + 42 ≤ queralLogBufferSize := by
  have hlength : (ascii "Failed to update a non-existent cache: '" ++ cstr w.job ++
      ascii "'").length = strlen w.job + 41 := length_quoted _ _ _
  simp only [MessagesFit, handleUpdate, hnull, List.mem_singleton, Operation.log.injEq, forall_eq,
    LogMessage.Fits, hlength]
  exact ⟨fun hfit => hfit _ quiet_quietResponses, fun hshort _ _ => hshort⟩

/-- UPDATE of a known cache: the name of the FIFO is quoted when a page is to be written. -/
theorem messagesFit_handleUpdate_of_found {index : ℕ} {action : Action}
    (hfound : findAction settings.actions w.job = .found index action) :
    MessagesFit (fun responses => (handleUpdate settings responses w).operations) ↔
      ((∃ page ∈ action.pages, strlen page + 7 ≤ bufferSize) →
        strlen settings.fifoFilename + 38 ≤ queralLogBufferSize) := by
  have hready := UpdateLoop.ready_start w.newCommand
  have hindex : (UpdateLoop.start w.newCommand).index ≤ action.pages.length := Nat.zero_le _
  simp only [MessagesFit, handleUpdate_of_found hfound]
  constructor
  · intro hfit hpages
    have hopened := hfit _ quiet_quietResponses _ (log_mem_updateLoop_of_unopened hready hindex
      (show action.pages.length ≤ 0 + action.count by
        rw [Nat.zero_add]
        exact length_pagesOf_le _ _) hpages)
    rw [LogMessage.Fits, length_openFailedMessage] at hopened
    exact hopened
  · intro hshort responses _ message hmem
    rcases mem_log_updateLoop hready hindex hmem with rfl | ⟨hpages, hlength⟩
    · exact pageLimitMessage_fits
    · have := hshort hpages
      unfold LogMessage.Fits
      omega

/-- Without a text from libmemcached the longest message of a delete tells that it failed. -/
theorem length_log_memcachedDeleteRecord {answer : MemcachedReturn}
    (hquiet : ∀ text, answer = .failed text → text = []) (key : Block) (logError : Bool) :
    (memcachedDeleteRecord answer key logError).log.text.length ≤ strlen key + 41 := by
  have hdeleted : (ascii "Cache: " ++ cstr key ++ ascii ", deleted").length = strlen key + 16 :=
    length_quoted _ _ _
  have hfailed : (ascii "Failed to delete record '" ++ cstr key ++
      ascii "' on memcached: ").length = strlen key + 41 := length_quoted _ _ _
  cases answer with
  | success | buffered => exact hdeleted.le.trans (by omega)
  | failed text =>
    simp only [memcachedDeleteRecord, hquiet text rfl, List.append_nil]
    exact hfailed.le

theorem length_log_memcachedOverrideRecord {answer : MemcachedReturn}
    (hquiet : ∀ text, answer = .failed text → text = []) (key value : Block) (expiration : ℤ) :
    (memcachedOverrideRecord answer key value expiration).log.text.length ≤ strlen key + 41 := by
  have hupdated : (ascii "Cache: " ++ cstr key ++ ascii ", updated").length = strlen key + 16 :=
    length_quoted _ _ _
  have hfailed : (ascii "Failed to store record '" ++ cstr key ++
      ascii "' on memcached: ").length = strlen key + 40 := length_quoted _ _ _
  cases answer with
  | success | buffered => exact hupdated.le.trans (by omega)
  | failed text =>
    simp only [memcachedOverrideRecord, hquiet text rfl, List.append_nil]
    exact hfailed.le.trans (by omega)

/-- A key that is refused is logged with its URL, which is long then: an accepted prefix is
short. -/
theorem not_messagesFit_handleCache_of_refused
    (hshort : strlen settings.keyPrefix < maxKeyPrefixLength)
    (hrefused : ¬ strlen settings.keyPrefix + strlen w.job < memcachedMaxKey) :
    ¬ MessagesFit (fun responses => (handleCache settings responses w).operations) := by
  intro hfit
  have hmax : memcachedMaxKey = 251 := rfl
  have hprefixMax : maxKeyPrefixLength = 13 := rfl
  have hbefore : (ascii "Maximum memcached key length exceeded: ").length = 39 := length_ascii _
  have hdigits : (ascii (toString memcachedMaxKey)).length = 3 := length_ascii _
  have hurl : (ascii ", URL: '").length = 8 := length_ascii _
  have hlogged := hfit _ quiet_quietResponses
    ⟨.error, ascii "Maximum memcached key length exceeded: " ++ ascii (toString memcachedMaxKey) ++
      ascii ", URL: '" ++ cstr w.job ++ ascii "'"⟩
    (by simp [handleCache, createKey, hrefused])
  simp only [LogMessage.Fits, queralLogBufferSize, List.length_append, hbefore, hdigits,
    hurl] at hlogged
  unfold strlen at hshort hrefused
  omega

/-- An accepted key is as long as the prefix and the URL together. -/
theorem strlen_createKey (key : Block)
    (haccepted : strlen settings.keyPrefix + strlen w.job < memcachedMaxKey) :
    (createKey key (memcachedMaxKey - 1) settings.keyPrefix w.job).res = 1 ∧
      strlen (createKey key (memcachedMaxKey - 1) settings.keyPrefix w.job).out =
        strlen settings.keyPrefix + strlen w.job := by
  obtain ⟨hres, hstring, -⟩ := createKey_of_accepted key
    (⟨haccepted, Nat.le_sub_one_of_lt haccepted⟩ : strlen settings.keyPrefix + strlen w.job <
      memcachedMaxKey ∧ strlen settings.keyPrefix + strlen w.job ≤ memcachedMaxKey - 1)
  rw [strlen, hstring, List.length_append]
  exact ⟨hres, rfl⟩

/-- The delete of an accepted key can fail, and then the key is logged. -/
theorem room_of_messagesFit_handleCache
    (haccepted : strlen settings.keyPrefix + strlen w.job < memcachedMaxKey)
    (hfit : MessagesFit (fun responses => (handleCache settings responses w).operations)) :
    strlen settings.keyPrefix + strlen w.job + 42 ≤ queralLogBufferSize := by
  obtain ⟨hres, hkey⟩ := strlen_createKey w.key haccepted
  have hone : ¬ (1 : ℤ) = -1 := by decide
  have hdeleted := hfit _ quiet_quietResponses (memcachedDeleteRecord (.failed [])
    (createKey w.key (memcachedMaxKey - 1) settings.keyPrefix w.job).out false).log (by
      simp only [handleCache, hres, if_neg hone]
      split_ifs <;> simp [quietResponses])
  have hlength : (ascii "Failed to delete record '" ++ cstr (createKey w.key
      (memcachedMaxKey - 1) settings.keyPrefix w.job).out ++ ascii "' on memcached: ").length =
        strlen settings.keyPrefix + strlen w.job + 41 :=
    (length_quoted _ _ _).trans (congrArg (· + 41) hkey)
  simp only [LogMessage.Fits, memcachedDeleteRecord, List.append_nil, hlength] at hdeleted
  exact hdeleted

/-- No message of the CACHE branch is longer. -/
theorem messagesFit_handleCache_of_room
    (haccepted : strlen settings.keyPrefix + strlen w.job < memcachedMaxKey)
    (hroom : strlen settings.keyPrefix + strlen w.job + 42 ≤ queralLogBufferSize) :
    MessagesFit (fun responses => (handleCache settings responses w).operations) := by
  intro responses hquiet message hmem
  obtain ⟨hres, hkey⟩ := strlen_createKey w.key haccepted
  have hone : ¬ (1 : ℤ) = -1 := by decide
  have hdeleted := length_log_memcachedDeleteRecord hquiet.deleted
    (createKey w.key (memcachedMaxKey - 1) settings.keyPrefix w.job).out false
  have hstored := fun value => length_log_memcachedOverrideRecord hquiet.stored
    (createKey w.key (memcachedMaxKey - 1) settings.keyPrefix w.job).out value settings.expiration
  have hfetched : ∀ log ∈ (curlFetchUrl responses.strerror responses.transfer
      { w.buffer with enabled := true } w.job).logs, log.Fits := by
    intro log hlog
    rcases mem_logs_curlFetchUrl hquiet.strerror _ _ _ hlog with rfl | hlength
    · exact memoryLimitMessage_fits
    · unfold LogMessage.Fits
      simp only [if_true] at hlength
      omega
  simp only [handleCache, hres, if_neg hone] at hmem
  split_ifs at hmem
  · -- deleted, fetched and stored
    simp only [List.mem_append, List.mem_cons, reduceCtorEq, false_or, List.mem_map,
      Operation.log.injEq, exists_eq_right, List.not_mem_nil, or_false] at hmem
    rcases hmem with (rfl | hlog) | rfl
    · unfold LogMessage.Fits
      omega
    · exact hfetched message hlog
    · have := hstored (curlFetchUrl responses.strerror responses.transfer
        ⟨w.buffer.memory, w.buffer.size, true⟩ w.job).buffer.memory
      unfold LogMessage.Fits
      omega
  · -- deleted and fetched, with nothing to store
    simp only [List.mem_cons, reduceCtorEq, false_or, List.mem_map, Operation.log.injEq,
      exists_eq_right] at hmem
    rcases hmem with rfl | hlog
    · unfold LogMessage.Fits
      omega
    · exact hfetched message hlog

/-- CACHE: the longest message tells that the delete of the key failed. -/
theorem messagesFit_handleCache_iff
    (hshort : strlen settings.keyPrefix < maxKeyPrefixLength) :
    MessagesFit (fun responses => (handleCache settings responses w).operations) ↔
      strlen settings.keyPrefix + strlen w.job + 42 ≤ queralLogBufferSize := by
  have hmax : memcachedMaxKey = 251 := rfl
  have hsize : queralLogBufferSize = 256 := rfl
  by_cases haccepted : strlen settings.keyPrefix + strlen w.job < memcachedMaxKey
  · exact ⟨room_of_messagesFit_handleCache haccepted, messagesFit_handleCache_of_room haccepted⟩
  · exact iff_of_false (not_messagesFit_handleCache_of_refused hshort haccepted) (by omega)

end Branches

/-! ### The messages about a line -/

/-- What a line makes a worker quote leaves room for the rest of the message: the word before its
first space, or the one left in `command` by an earlier line; its argument; the key; and the name
of the FIFO when an update has a page to write. -/
def ShortTexts (settings : Settings) (word line : List UInt8) : Prop :=
  match lineKind line with
  | .undefined => (wordBehind word line).length + 33 ≤ queralLogBufferSize
  | .fetch => (lineArgument line).length + 29 ≤ queralLogBufferSize
  | .cache =>
    strlen settings.keyPrefix + (lineArgument line).length + 42 ≤ queralLogBufferSize
  | .update =>
    match findAction settings.actions (lineArgument line ++ [0]) with
    | .found _ action => (∃ page ∈ action.pages, strlen page + 7 ≤ bufferSize) →
        strlen settings.fifoFilename + 38 ≤ queralLogBufferSize
    | _ => (lineArgument line).length + 42 ≤ queralLogBufferSize

/-- The argument of a line names the cache that the worker looks up. -/
theorem findAction_job {settings : Settings} {w : Worker} {line : List UInt8}
    (hargument : cstr w.job = lineArgument line) :
    findAction settings.actions (lineArgument line ++ [0]) =
      findAction settings.actions w.job := by
  have hname : cstr (lineArgument line ++ [0]) = cstr w.job := by
    rw [cstr_append_nul_eq, ← hargument]
    exact cstr_of_nulFree (nul_notMem_cstr w.job)
  cases hactions : settings.actions with
  | none => rfl
  | some slots => exact findActionFrom_congr hname slots 0

/-- UPDATE: an unknown name is quoted, and otherwise the name of the FIFO. -/
theorem messagesFit_handleUpdate_iff {settings : Settings} {w : Worker} {line : List UInt8}
    (hargument : cstr w.job = lineArgument line) (hline : lineKind line = .update)
    (word : List UInt8) :
    MessagesFit (fun responses => (handleUpdate settings responses w).operations) ↔
      ShortTexts settings word line := by
  simp only [ShortTexts, hline, findAction_job hargument]
  rw [← hargument]
  cases hfound : findAction settings.actions w.job with
  | found index action => exact messagesFit_handleUpdate_of_found hfound
  | null => exact messagesFit_handleUpdate_of_null hfound
  | wild => exact absurd hfound (settings.tame w.job)

/-- An operation that is not defined is logged with the word in `command`. -/
theorem messagesFit_undefined_iff (word : List UInt8) :
    MessagesFit (fun _ => [.log ⟨.notice, ascii "Calling an undefined operation: " ++ word⟩]) ↔
      word.length + 33 ≤ queralLogBufferSize := by
  have hbefore : (ascii "Calling an undefined operation: ").length = 32 := length_ascii _
  simp only [MessagesFit, List.mem_singleton, Operation.log.injEq, forall_eq, LogMessage.Fits,
    List.length_append, hbefore]
  constructor
  · intro hfit
    have := hfit _ quiet_quietResponses
    omega
  · intro hshort _ _
    omega

/-- Every message about a line fits in the log buffer, whatever libcurl, memcached and the FIFO
answer, if and only if the texts it quotes are short. -/
theorem job_messages_fit_iff (settings : Settings) (w : Worker) (slot : Block)
    (hnul : (0 : UInt8) ∈ slot) (hbegin : strlen settings.keyPrefix < maxKeyPrefixLength) :
    MessagesFit (fun responses => (handleJob settings responses w slot).operations) ↔
      ShortTexts settings (cstr w.command) (cstr slot) := by
  obtain ⟨hkind, hcommand, hargument⟩ := parse_spec w hnul
  cases hline : lineKind (cstr slot) with
  | undefined =>
    simp only [handleJob, hkind.trans hline, hcommand, ShortTexts, hline]
    exact messagesFit_undefined_iff _
  | fetch =>
    have hjob := hargument (by rw [hline]; decide)
    simp only [handleJob, hkind.trans hline, ShortTexts, hline, ← hjob]
    exact messagesFit_handleFetch_iff
  | cache =>
    have hjob := hargument (by rw [hline]; decide)
    simp only [handleJob, hkind.trans hline, ShortTexts, hline, ← hjob]
    exact messagesFit_handleCache_iff hbegin
  | update =>
    have hjob := hargument (by rw [hline]; decide)
    simp only [handleJob, hkind.trans hline]
    exact messagesFit_handleUpdate_iff hjob hline _

/-- The messages about a short URL fit. -/
theorem job_messages_fit_fetch :
    MessagesFit (fun responses => (handleJob exampleSettings responses exampleWorker
      (ascii "FETCH u" ++ [0])).operations) :=
  (job_messages_fit_iff exampleSettings exampleWorker (ascii "FETCH u" ++ [0]) (by decide)
    (by decide)).mpr (show 1 + 29 ≤ queralLogBufferSize by decide)

/-- A URL of 228 bytes, in a line that fits in its slot: the message has 256 bytes without its
NUL. -/
theorem fetch_message_overruns_buffer :
    let slot := ascii "FETCH " ++ List.replicate 228 117 ++ [0]
    slot.length ≤ bufferSize ∧ strlen exampleSettings.keyPrefix < maxKeyPrefixLength ∧
      ¬ MessagesFit (fun responses =>
        (handleJob exampleSettings responses exampleWorker slot).operations) := by
  intro slot
  have hfetch : (exampleWorker.parse slot).res = .fetch := by decide +kernel
  have hjob : strlen (exampleWorker.parse slot).job = 228 := by decide +kernel
  refine ⟨by decide +kernel, by decide, fun hfit => ?_⟩
  simp only [handleJob, hfetch] at hfit
  have hshort := messagesFit_handleFetch_iff.mp hfit
  simp only [hjob, queralLogBufferSize] at hshort
  omega

end EasyForetell
