import EasyForetell.Logger
import EasyForetell.Queue

/-!
# The FIFO callback (queral.c, socket_cb)

`socket_cb` runs whenever the FIFO becomes readable. It reads a chunk, completes
the line kept in `cache_buffer` with it, hands every complete line to the queue
and keeps the unterminated rest for the next chunk.

Between two lines the workers may take jobs from the queue. A schedule says how
many jobs are gone before each line; it is consumed line by line.

Behind each line but the last one of a chunk `strcpy` moves the rest of `read_buffer` to
its front. The two parts overlap where the rest is as long as the line, and C leaves open
what becomes of it. It is taken to be copied from left to right.
-/

namespace EasyForetell

open Memory

/-- `'\n'`. -/
def newline : UInt8 := 10

/-- The variables the mutex guards: the queue, `url_count` and `should_run`. -/
structure Shared where
  queue : FifoQueue
  urlCount : ℤ
  shouldRun : Bool

/-- The buffers of `socket_worker_t`. -/
structure SocketWorker where
  readBuffer : Block
  cacheBuffer : Block

/-- `QUEUE_CAPACITY`. -/
def queueCapacity : ℕ := 256

/-- The shared state `main` sets up. -/
def Shared.fresh (malloc : ℕ → Block) : Shared := ⟨fifoInit malloc queueCapacity, 0, true⟩

/-- The framing buffers `main` sets up: static memory, and a cleared `cache_buffer`. -/
def SocketWorker.fresh : SocketWorker where
  readBuffer := List.replicate bufferSize 0
  cacheBuffer := List.replicate bufferSize 0

/-! ### Mutex sections -/

/-- The mutex section of `should_socket_worker_run`, and `should_run` as it
leaves it. With `should_run` cleared it counts every worker of the pool once. -/
def shouldSocketWorkerRun (workersCount : ℕ) (s : Shared) : Shared × Bool :=
  if s.shouldRun then (s, true) else ({ s with urlCount := s.urlCount + workersCount }, false)

/-- The mutex section that queues a line, with the value of `res`. -/
def enqueueLine (s : Shared) (line : Block) : Shared × ℤ :=
  let result := fifoEnqueue s.queue line
  if result.2 = -1 then ({ s with queue := result.1 }, result.2)
  else ({ s with queue := result.1, urlCount := s.urlCount + 1 }, result.2)

/-- A worker takes a job, if there is one, into a buffer of its own. -/
def takeJob (s : Shared) : Shared :=
  if s.queue.occupied = 0 then s
  else { s with queue := (fifoDequeue s.queue []).1, urlCount := s.urlCount - 1 }

/-- Workers take several jobs. -/
def takeJobs : ℕ → Shared → Shared
  | 0, s => s
  | count + 1, s => takeJobs count (takeJob s)

section Sections

theorem shouldSocketWorkerRun_of_run {s : Shared} (hrun : s.shouldRun = true) (workersCount : ℕ) :
    shouldSocketWorkerRun workersCount s = (s, true) := by
  rw [shouldSocketWorkerRun, if_pos hrun]

theorem shouldSocketWorkerRun_of_stop {s : Shared} (hstop : s.shouldRun = false)
    (workersCount : ℕ) :
    shouldSocketWorkerRun workersCount s =
      ({ s with urlCount := s.urlCount + workersCount }, false) := by
  rw [shouldSocketWorkerRun, if_neg (by simp [hstop])]

@[simp] theorem shouldSocketWorkerRun_snd (workersCount : ℕ) (s : Shared) :
    (shouldSocketWorkerRun workersCount s).2 = s.shouldRun := by
  cases hrun : s.shouldRun with
  | true => rw [shouldSocketWorkerRun_of_run hrun]
  | false => rw [shouldSocketWorkerRun_of_stop hrun]

@[simp] theorem shouldRun_shouldSocketWorkerRun (workersCount : ℕ) (s : Shared) :
    (shouldSocketWorkerRun workersCount s).1.shouldRun = s.shouldRun := by
  unfold shouldSocketWorkerRun
  split_ifs <;> rfl

variable {s : Shared} {items : List (List UInt8)}

@[simp] theorem shouldRun_takeJobs (count : ℕ) (s : Shared) :
    (takeJobs count s).shouldRun = s.shouldRun := by
  induction count generalizing s with
  | zero => rfl
  | succ count ih =>
    rw [takeJobs, ih, takeJob]
    split_ifs <;> rfl

theorem occupied_takeJob (s : Shared) : (takeJob s).queue.occupied = s.queue.occupied - 1 := by
  unfold takeJob
  split_ifs with hempty
  · omega
  · rw [fifoDequeue, if_pos (Nat.pos_of_ne_zero hempty)]

theorem capacity_takeJob (s : Shared) : (takeJob s).queue.capacity = s.queue.capacity := by
  unfold takeJob fifoDequeue
  split_ifs <;> rfl

@[simp] theorem occupied_takeJobs (count : ℕ) (s : Shared) :
    (takeJobs count s).queue.occupied = s.queue.occupied - count := by
  induction count generalizing s with
  | zero => rfl
  | succ count ih =>
    rw [takeJobs, ih, occupied_takeJob]
    omega

@[simp] theorem capacity_takeJobs (count : ℕ) (s : Shared) :
    (takeJobs count s).queue.capacity = s.queue.capacity := by
  induction count generalizing s with
  | zero => rfl
  | succ count ih => rw [takeJobs, ih, capacity_takeJob]

/-- The room that is left when jobs have been taken. -/
theorem room_takeJobs_iff {count : ℕ} :
    (takeJobs count s).queue.occupied < (takeJobs count s).queue.capacity ↔
      s.queue.occupied - count < s.queue.capacity := by
  rw [occupied_takeJobs, capacity_takeJobs]

theorem holds_takeJob (h : s.queue.Holds items) : (takeJob s).queue.Holds items.tail := by
  unfold takeJob
  cases items with
  | nil =>
    rw [if_pos (by simpa using h.occupied_eq)]
    exact h
  | cons text items =>
    rw [if_neg (by simp [h.occupied_eq])]
    exact (h.fifoDequeue []).1

/-- Jobs leave the queue oldest first. -/
theorem holds_takeJobs (count : ℕ) (h : s.queue.Holds items) :
    (takeJobs count s).queue.Holds (items.drop count) := by
  induction count generalizing s items with
  | zero => exact h
  | succ count ih =>
    rw [takeJobs, ← List.drop_tail]
    exact ih (holds_takeJob h)

theorem enqueueLine_of_full (hfull : ¬ s.queue.occupied < s.queue.capacity) (line : Block) :
    enqueueLine s line = (s, -1) := by
  simp [enqueueLine, fifoEnqueue_of_full hfull]

theorem enqueueLine_of_room (hroom : s.queue.occupied < s.queue.capacity) (line : Block) :
    enqueueLine s line =
      ({ s with queue := (fifoEnqueue s.queue line).1, urlCount := s.urlCount + 1 }, 1) := by
  simp [enqueueLine, fifoEnqueue_of_room hroom]

theorem occupied_enqueueLine (hroom : s.queue.occupied < s.queue.capacity) (line : Block) :
    (enqueueLine s line).1.queue.occupied = s.queue.occupied + 1 := by
  rw [enqueueLine_of_room hroom, fifoEnqueue_of_room hroom]

@[simp] theorem capacity_enqueueLine (s : Shared) (line : Block) :
    (enqueueLine s line).1.queue.capacity = s.queue.capacity := by
  by_cases hroom : s.queue.occupied < s.queue.capacity
  · rw [enqueueLine_of_room hroom, fifoEnqueue_of_room hroom]
  · rw [enqueueLine_of_full hroom]

/-- A line that is queued when jobs have been taken. -/
theorem counts_enqueueLine_takeJobs {count : ℕ}
    (hroom : s.queue.occupied - count < s.queue.capacity) (line : Block) :
    (enqueueLine (takeJobs count s) line).1.queue.occupied = s.queue.occupied - count + 1 ∧
      (enqueueLine (takeJobs count s) line).1.queue.capacity = s.queue.capacity := by
  rw [occupied_enqueueLine (room_takeJobs_iff.mpr hroom), capacity_enqueueLine, occupied_takeJobs,
    capacity_takeJobs]
  exact ⟨rfl, rfl⟩

/-- A line that fits is appended to the queue. -/
theorem holds_enqueueLine {line : List UInt8} (h : s.queue.Holds items)
    (hroom : s.queue.occupied < s.queue.capacity) (hfree : (0 : UInt8) ∉ line)
    (hfit : line.length < bufferSize) :
    (enqueueLine s (line ++ [0])).1.queue.Holds (items ++ [line]) := by
  have hline : cstr (line ++ [0]) = line := cstr_append_nul hfree
  have hfits : FitsSlot (line ++ [0]) := ⟨by simp, by rw [strlen, hline]; exact hfit⟩
  have hpushed := h.fifoEnqueue hroom hfits
  rw [hline] at hpushed
  rwa [enqueueLine_of_room hroom]

@[simp] theorem shouldRun_enqueueLine (s : Shared) (line : Block) :
    (enqueueLine s line).1.shouldRun = s.shouldRun := by
  unfold enqueueLine
  dsimp only
  split_ifs <;> rfl

end Sections

/-! ### Passes of the loop -/

/-- What `read` puts into `read_buffer`, and the NUL after it. -/
def SocketWorker.fill (w : SocketWorker) (chunk : List UInt8) : SocketWorker :=
  { w with readBuffer := store (store w.readBuffer 0 chunk) chunk.length [0] }

/-- `buffer_length`: how far the first newline is, itself included. -/
def SocketWorker.bufferLength (w : SocketWorker) (found : ℕ) : ℕ :=
  strlen w.readBuffer - strlen (w.readBuffer.drop found) + 1

/-- `memset (cache_buffer, '\0', BUFFER_SIZE)`. -/
def SocketWorker.clearCache (w : SocketWorker) : SocketWorker :=
  { w with cacheBuffer := memset w.cacheBuffer 0 bufferSize }

/-- Append the line found in `read_buffer` to `cache_buffer` and cut its newline
off; `none` when the length test fails. -/
def SocketWorker.appendLine (w : SocketWorker) (found : ℕ) : Option SocketWorker :=
  if strlen w.cacheBuffer + w.bufferLength found > bufferSize then none
  else
    let cache := strncat w.cacheBuffer w.readBuffer (w.bufferLength found)
    some { w with cacheBuffer := store cache (strlen cache - 1) [0] }

/-- Drop the line from `read_buffer` and empty `cache_buffer`. The overlapping `strcpy` is
taken to copy from left to right. -/
def SocketWorker.restoreBuffers (w : SocketWorker) (found : ℕ) : SocketWorker :=
  if strlen w.readBuffer > w.bufferLength found then
    -- `strcpy (read_buffer, ++found)`
    { w with readBuffer := strcpy w.readBuffer (w.readBuffer.drop (found + 1)) }.clearCache
  else { w with readBuffer := memset w.readBuffer 0 bufferSize }.clearCache

/-- After the loop: keep what is left in `read_buffer`. -/
def SocketWorker.saveTail (w : SocketWorker) : SocketWorker :=
  if strlen w.readBuffer > 0 then { w with cacheBuffer := strcpy w.cacheBuffer w.readBuffer } else w

/-! ### The strings the passes leave -/

namespace SocketWorker

variable {w : SocketWorker} {text rest : List UInt8}

theorem cstr_readBuffer_fill {chunk : List UInt8} (hfree : (0 : UInt8) ∉ chunk) :
    cstr (w.fill chunk).readBuffer = chunk := by
  have hsplit : store (store w.readBuffer 0 chunk) chunk.length [0] =
      chunk ++ 0 :: (store w.readBuffer 0 chunk).drop (chunk.length + 1) := by
    rw [store, store_zero, List.take_left' rfl]
    simp
  rw [fill, hsplit]
  exact cstr_append_nul hfree

theorem bufferLength_of_split (hread : cstr w.readBuffer = text ++ newline :: rest) :
    w.bufferLength text.length = text.length + 1 := by
  have hlength : strlen w.readBuffer = text.length + (rest.length + 1) := by
    rw [strlen, hread, List.length_append, List.length_cons]
  rw [bufferLength, strlen_drop (by omega)]
  omega

theorem strchr_of_split (hread : cstr w.readBuffer = text ++ newline :: rest)
    (htext : newline ∉ text) : strchr w.readBuffer newline = some text.length :=
  strchr_of_append hread htext

@[simp] theorem cstr_clearCache : cstr w.clearCache.cacheBuffer = [] :=
  cstr_memset_nul (by decide)

@[simp] theorem readBuffer_clearCache : w.clearCache.readBuffer = w.readBuffer := rfl

/-- The length test of a pass compares the whole line with its newline. -/
theorem appendLine_eq_none_iff (hread : cstr w.readBuffer = text ++ newline :: rest) :
    w.appendLine text.length = none ↔
      bufferSize < (cstr w.cacheBuffer ++ text).length + 1 := by
  rw [appendLine, bufferLength_of_split hread, List.length_append, strlen]
  split_ifs with htest
  · exact iff_of_true rfl (by omega)
  · exact iff_of_false (by simp) (by omega)

/-- A pass that keeps the line has it in `cache_buffer`, without its newline. -/
theorem appendLine_eq_some {w' : SocketWorker}
    (hread : cstr w.readBuffer = text ++ newline :: rest)
    (happend : w.appendLine text.length = some w') :
    w'.readBuffer = w.readBuffer ∧ cstr w'.cacheBuffer = cstr w.cacheBuffer ++ text ∧
      (0 : UInt8) ∈ w'.cacheBuffer := by
  rw [appendLine, bufferLength_of_split hread] at happend
  split_ifs at happend
  obtain rfl := Option.some.inj happend
  refine ⟨rfl, ?_, mem_store (by simp)⟩
  have htake : (cstr w.readBuffer).take (text.length + 1) = text ++ [newline] := by
    rw [hread, List.take_length_add_append]
    rfl
  have hcache : cstr (strncat w.cacheBuffer w.readBuffer (text.length + 1)) =
      (cstr w.cacheBuffer ++ text) ++ [newline] := by
    rw [cstr_strncat, htake, List.append_assoc]
  -- the last byte of the string is the newline, which the NUL overwrites
  have hlength : strlen (strncat w.cacheBuffer w.readBuffer (text.length + 1)) - 1 =
      (cstr w.cacheBuffer ++ text).length := by
    rw [strlen, hcache, List.length_append, List.length_singleton, Nat.add_sub_cancel]
  rw [hlength, cstr_store_nul (by rw [strlen, hcache]; simp), hcache, List.take_left' rfl]

/-- The line a pass queues fits in a slot. -/
theorem fitsSlot_of_appendLine {w' : SocketWorker} {found : ℕ}
    (hfound : strchr w.readBuffer newline = some found) (happend : w.appendLine found = some w') :
    FitsSlot w'.cacheBuffer := by
  obtain ⟨text, rest, hread, -, rfl⟩ := eq_append_of_strchr hfound
  obtain ⟨-, hcache, hnul⟩ := appendLine_eq_some hread happend
  refine ⟨hnul, ?_⟩
  have htest : ¬ w.appendLine text.length = none := by simp [happend]
  rw [appendLine_eq_none_iff hread] at htest
  rw [strlen, hcache]
  omega

/-- The next pass starts with the rest of the chunk and an empty `cache_buffer`. -/
theorem restoreBuffers_spec (hread : cstr w.readBuffer = text ++ newline :: rest) :
    cstr (w.restoreBuffers text.length).readBuffer = rest ∧
      cstr (w.restoreBuffers text.length).cacheBuffer = [] := by
  have hlength : strlen w.readBuffer = text.length + (rest.length + 1) := by
    rw [strlen, hread, List.length_append, List.length_cons]
  rw [restoreBuffers, bufferLength_of_split hread]
  split_ifs with hmore
  · refine ⟨?_, cstr_clearCache⟩
    rw [readBuffer_clearCache, cstr_strcpy, cstr_drop (by omega), hread]
    simp [List.drop_append]
  · -- the newline was the last byte of the string
    refine ⟨?_, cstr_clearCache⟩
    have hrest : rest = [] := List.eq_nil_of_length_eq_zero (by omega)
    rw [hrest]
    exact cstr_memset_nul (by decide)

/-- A pass shortens the string of `read_buffer`. -/
theorem strlen_restoreBuffers_lt {found : ℕ} (hfound : strchr w.readBuffer newline = some found) :
    strlen (w.restoreBuffers found).readBuffer < strlen w.readBuffer := by
  obtain ⟨text, rest, hread, -, rfl⟩ := eq_append_of_strchr hfound
  rw [strlen, strlen, (restoreBuffers_spec hread).1, hread, List.length_append, List.length_cons]
  omega

theorem cstr_saveTail :
    cstr w.saveTail.cacheBuffer =
      if cstr w.readBuffer = [] then cstr w.cacheBuffer else cstr w.readBuffer := by
  unfold saveTail strlen
  split_ifs with hpos hnil hnil
  · simp [hnil] at hpos
  · exact cstr_strcpy _ _
  · rfl
  · exact absurd (List.length_pos_iff.mpr hnil) hpos

theorem readBuffer_of_appendLine {w' : SocketWorker} {found : ℕ}
    (happend : w.appendLine found = some w') : w'.readBuffer = w.readBuffer := by
  unfold appendLine at happend
  split_ifs at happend
  rw [← Option.some.inj happend]

end SocketWorker

/-! ### The callback -/

/-- What a call leaves behind: the buffers, the shared state, the unused part of
the schedule, the lines `fifo_enqueue` accepted and the messages logged. -/
structure CallbackResult where
  worker : SocketWorker
  shared : Shared
  dequeues : List ℕ
  accepted : List (List UInt8)
  logs : List LogMessage

/-- `log_error ("Parse failed, buffer overflow")`. -/
def overflowMessage : LogMessage := ⟨.error, ascii "Parse failed, buffer overflow"⟩

/-- `log_warning ("Queue is full")`. -/
def queueFullMessage : LogMessage := ⟨.warning, ascii "Queue is full"⟩

/-- The `while (found)` loop. At each test `found` is the first newline of
`read_buffer`: after the last line the buffer is all NUL and `found` is NULL. -/
def socketCbLoop (w : SocketWorker) (s : Shared) (dequeues : List ℕ) : CallbackResult :=
  match _hfound : strchr w.readBuffer newline with
  | none => ⟨w.saveTail, s, dequeues, [], []⟩
  | some found =>
    let s := takeJobs (dequeues.headD 0) s
    match _happend : w.appendLine found with
    | none => ⟨w.clearCache, s, dequeues.tail, [], [overflowMessage]⟩
    | some w' =>
      let result := enqueueLine s w'.cacheBuffer
      if result.2 = -1 then ⟨w'.clearCache, result.1, dequeues.tail, [], [queueFullMessage]⟩
      else
        let later := socketCbLoop (w'.restoreBuffers found) result.1 dequeues.tail
        { later with accepted := cstr w'.cacheBuffer :: later.accepted }
termination_by strlen w.readBuffer
decreasing_by
  have hread := SocketWorker.readBuffer_of_appendLine _happend
  rw [← hread] at _hfound ⊢
  exact SocketWorker.strlen_restoreBuffers_lt _hfound

section Loop

variable {w w' : SocketWorker} {found : ℕ}

theorem socketCbLoop_of_none (hfound : strchr w.readBuffer newline = none) (s : Shared)
    (dequeues : List ℕ) : socketCbLoop w s dequeues = ⟨w.saveTail, s, dequeues, [], []⟩ := by
  rw [socketCbLoop]
  split
  · rfl
  · simp_all

theorem socketCbLoop_of_overflow (hfound : strchr w.readBuffer newline = some found)
    (happend : w.appendLine found = none) (s : Shared) (dequeues : List ℕ) :
    socketCbLoop w s dequeues =
      ⟨w.clearCache, takeJobs (dequeues.headD 0) s, dequeues.tail, [], [overflowMessage]⟩ := by
  rw [socketCbLoop]
  split
  · simp_all
  · -- the line that was found is the one of the statement
    obtain rfl := Option.some.inj (hfound.symm.trans ‹_›)
    split
    · rfl
    · simp_all

theorem socketCbLoop_of_append (hfound : strchr w.readBuffer newline = some found)
    (happend : w.appendLine found = some w') (s : Shared) (dequeues : List ℕ) :
    socketCbLoop w s dequeues =
      let result := enqueueLine (takeJobs (dequeues.headD 0) s) w'.cacheBuffer
      if result.2 = -1 then ⟨w'.clearCache, result.1, dequeues.tail, [], [queueFullMessage]⟩
      else
        let later := socketCbLoop (w'.restoreBuffers found) result.1 dequeues.tail
        { later with accepted := cstr w'.cacheBuffer :: later.accepted } := by
  rw [socketCbLoop]
  split
  · simp_all
  · obtain rfl := Option.some.inj (hfound.symm.trans ‹_›)
    split
    · simp_all
    · obtain rfl := Option.some.inj (happend.symm.trans ‹_›)
      rfl

end Loop

/-- What `read` returns: an error, or the bytes it stored. -/
inductive ReadResult
  | failed
  | data (chunk : List UInt8)

/-- `socket_cb`. -/
def socketCb (workersCount : ℕ) (w : SocketWorker) (s : Shared) (input : ReadResult)
    (dequeues : List ℕ) : CallbackResult :=
  let test := shouldSocketWorkerRun workersCount s
  if test.2 then
    match input with
    | .failed => ⟨w, test.1, dequeues, [], []⟩
    | .data [] => ⟨w, test.1, dequeues, [], []⟩
    | .data chunk => socketCbLoop (w.fill chunk) test.1 dequeues
  else ⟨w, test.1, dequeues, [], []⟩

/-- Bytes that are read while the daemon runs go through the loop. -/
theorem socketCb_of_data (workersCount : ℕ) (w : SocketWorker) {s : Shared}
    (hrun : s.shouldRun = true) {chunk : List UInt8} (hne : chunk ≠ []) (dequeues : List ℕ) :
    socketCb workersCount w s (.data chunk) dequeues = socketCbLoop (w.fill chunk) s dequeues := by
  obtain ⟨c, rest, rfl⟩ := List.exists_cons_of_ne_nil hne
  simp [socketCb, shouldSocketWorkerRun_of_run hrun]

end EasyForetell
