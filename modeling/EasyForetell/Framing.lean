import EasyForetell.SocketCallback
import EasyForetell.Theory.LineFraming
import Mathlib.Data.List.Chain

/-!
# Framing the FIFO stream

The loop of `socket_cb` works on two buffers that it appends to, shifts and
clears. Here it is compared with the lines of the stream.

A call that starts with an open line `p` and reads a chunk meets the lines that
the chunk completes, `(frame newline p chunk).1`, in order (`socketCbLoop_eq`).
What it does with them is `processLines`: a line that is too long or that meets a
full queue ends the call.

## Main results

* `framing_exact_iff`: framing is independent of the chunking exactly when no
  chunk without a newline follows an open line
* `parse_error_exact_iff`: an error costs only the offending line exactly when
  nothing that could be kept follows it in the chunk
-/

namespace EasyForetell

open Memory Theory

/-! ### The lines a call meets -/

/-- What a call does with the complete lines of its chunk. -/
structure LinesOutcome where
  shared : Shared
  dequeues : List ℕ
  accepted : List (List UInt8)
  stopped : Bool
  logs : List LogMessage

/-- The loop of `socket_cb` on the lines themselves. Both error branches end it. -/
def processLines (s : Shared) (dequeues : List ℕ) : List (List UInt8) → LinesOutcome
  | [] => ⟨s, dequeues, [], false, []⟩
  | line :: lines =>
    let s := takeJobs (dequeues.headD 0) s
    if bufferSize < line.length + 1 then ⟨s, dequeues.tail, [], true, [overflowMessage]⟩
    else
      let result := enqueueLine s (line ++ [0])
      if result.2 = -1 then ⟨result.1, dequeues.tail, [], true, [queueFullMessage]⟩
      else
        let later := processLines result.1 dequeues.tail lines
        { later with accepted := line :: later.accepted }

/-- What is in `cache_buffer` after a call that did not stop: the chunk replaces
the open line unless it has a newline or is empty. -/
def keptLine (openLine chunk : List UInt8) : List UInt8 :=
  if newline ∈ chunk then tail newline chunk else if chunk = [] then openLine else chunk

/-- A call keeps the open line of the stream unless its chunk overwrites one. -/
theorem keptLine_eq_frame_snd {openLine chunk : List UInt8} (hne : chunk ≠ [])
    (hkeeps : openLine = [] ∨ newline ∈ chunk) :
    keptLine openLine chunk = (frame newline openLine chunk).2 := by
  unfold keptLine
  split_ifs with hmem
  · exact (frame_snd_of_mem hmem openLine).symm
  · rw [frame_of_notMem hmem, hkeeps.resolve_right hmem, List.nil_append]

theorem fifoEnqueue_congr (queue : FifoQueue) {first second : Block}
    (hfirst : (0 : UInt8) ∈ first) (hsecond : (0 : UInt8) ∈ second)
    (hstring : cstr first = cstr second) : fifoEnqueue queue first = fifoEnqueue queue second := by
  have hcopy (slot : Block) : memcpy slot first (strlen first + 1) =
      memcpy slot second (strlen second + 1) := by
    rw [memcpy, memcpy, take_strlen_succ hfirst, take_strlen_succ hsecond, hstring]
  rw [fifoEnqueue, fifoEnqueue, hcopy]

theorem enqueueLine_cacheBuffer (s : Shared) {cache : Block} (hnul : (0 : UInt8) ∈ cache) :
    enqueueLine s cache = enqueueLine s (cstr cache ++ [0]) := by
  have hstring : cstr cache = cstr (cstr cache ++ [0]) :=
    (cstr_append_nul (nul_notMem_cstr cache)).symm
  rw [enqueueLine, enqueueLine, fifoEnqueue_congr s.queue hnul (by simp) hstring]

/-- A call's result is an outcome on lines, with `kept` in `cache_buffer` unless
an error branch emptied it. -/
structure CallbackResult.Matches (result : CallbackResult) (outcome : LinesOutcome)
    (kept : List UInt8) : Prop where
  shared : result.shared = outcome.shared
  dequeues : result.dequeues = outcome.dequeues
  accepted : result.accepted = outcome.accepted
  logs : result.logs = outcome.logs
  cache : cstr result.worker.cacheBuffer = if outcome.stopped then [] else kept

/-- The loop is `processLines` on the lines the chunk completes. -/
theorem socketCbLoop_matches (w : SocketWorker) (s : Shared) (dequeues : List ℕ)
    {chunk : List UInt8} (hread : cstr w.readBuffer = chunk) :
    (socketCbLoop w s dequeues).Matches
      (processLines s dequeues (frame newline (cstr w.cacheBuffer) chunk).1)
      (keptLine (cstr w.cacheBuffer) chunk) := by
  -- line by line: every pass of the loop meets the first newline that is left
  induction chunk using lineInduction newline generalizing w s dequeues with
  | hlast text htext =>
    have hnone : strchr w.readBuffer newline = none := strchr_eq_none_iff.mpr (hread ▸ htext)
    rw [frame_of_notMem htext, socketCbLoop_of_none hnone]
    refine ⟨rfl, rfl, rfl, rfl, ?_⟩
    simp [processLines, keptLine, htext, SocketWorker.cstr_saveTail, hread]
  | hline text rest htext ih =>
    have hfound := SocketWorker.strchr_of_split hread htext
    rw [frame_append_sep htext]
    cases happend : w.appendLine text.length with
    | none =>
      have hlong := (SocketWorker.appendLine_eq_none_iff hread).mp happend
      rw [socketCbLoop_of_overflow hfound happend, processLines, if_pos hlong]
      exact ⟨rfl, rfl, rfl, rfl, SocketWorker.cstr_clearCache⟩
    | some w' =>
      have hshort : ¬ bufferSize < (cstr w.cacheBuffer ++ text).length + 1 := by
        rw [← SocketWorker.appendLine_eq_none_iff hread, happend]
        simp
      obtain ⟨hread', hcache', hnul⟩ := SocketWorker.appendLine_eq_some hread happend
      rw [← hread'] at hread
      obtain ⟨hrest, hempty⟩ := SocketWorker.restoreBuffers_spec hread
      rw [socketCbLoop_of_append hfound happend, processLines, if_neg hshort,
        enqueueLine_cacheBuffer _ hnul, hcache']
      dsimp only
      split_ifs with hfull
      · exact ⟨rfl, rfl, rfl, rfl, SocketWorker.cstr_clearCache⟩
      · -- the rest of the chunk starts a fresh line
        have hlater := ih (w'.restoreBuffers text.length)
          (enqueueLine (takeJobs (dequeues.headD 0) s) (cstr w.cacheBuffer ++ text ++ [0])).1
          dequeues.tail hrest
        rw [hempty] at hlater
        have hkept : keptLine [] rest =
            keptLine (cstr w.cacheBuffer) (text ++ newline :: rest) := by
          have hmem : newline ∈ text ++ newline :: rest := by simp
          unfold keptLine
          rw [if_pos hmem, tail_append_sep htext]
          split_ifs with hrestmem hnil
          · rfl
          · rw [hnil]
            rfl
          · exact (tail_of_notMem hrestmem).symm
        rw [hkept] at hlater
        exact ⟨hlater.shared, hlater.dequeues, congrArg _ hlater.accepted, hlater.logs,
          hlater.cache⟩

/-! ### Lines for which there is room -/

/-- There is room for each of `count` more lines when the workers take the
scheduled jobs before each. -/
def RoomFor (capacity : ℕ) : ℕ → List ℕ → ℕ → Prop
  | _, _, 0 => True
  | occupied, dequeues, count + 1 =>
    occupied - dequeues.headD 0 < capacity ∧
      RoomFor capacity (occupied - dequeues.headD 0 + 1) dequeues.tail count

/-- How many slots are occupied after `count` more lines. -/
def occupiedAfter : ℕ → List ℕ → ℕ → ℕ
  | occupied, _, 0 => occupied
  | occupied, dequeues, count + 1 =>
    occupiedAfter (occupied - dequeues.headD 0 + 1) dequeues.tail count

theorem roomFor_add (capacity occupied : ℕ) (dequeues : List ℕ) (first second : ℕ) :
    RoomFor capacity occupied dequeues (first + second) ↔
      RoomFor capacity occupied dequeues first ∧
        RoomFor capacity (occupiedAfter occupied dequeues first) (dequeues.drop first) second := by
  induction first generalizing occupied dequeues with
  | zero => simp [RoomFor, occupiedAfter]
  | succ first ih =>
    rw [Nat.succ_add, RoomFor, RoomFor, occupiedAfter, ih, List.drop_tail, and_assoc]

section Processing

variable {s : Shared} {dequeues : List ℕ} {line : List UInt8} {lines : List (List UInt8)}

theorem processLines_of_long (hlong : bufferSize < line.length + 1) :
    processLines s dequeues (line :: lines) =
      ⟨takeJobs (dequeues.headD 0) s, dequeues.tail, [], true, [overflowMessage]⟩ := by
  rw [processLines, if_pos hlong]

theorem processLines_of_full (hfit : line.length < bufferSize)
    (hfull : ¬ s.queue.occupied - dequeues.headD 0 < s.queue.capacity) :
    processLines s dequeues (line :: lines) =
      ⟨takeJobs (dequeues.headD 0) s, dequeues.tail, [], true, [queueFullMessage]⟩ := by
  rw [processLines, if_neg (by omega), enqueueLine_of_full (room_takeJobs_iff.not.mpr hfull)]
  rfl

theorem processLines_of_accept (hfit : line.length < bufferSize)
    (hroom : s.queue.occupied - dequeues.headD 0 < s.queue.capacity) :
    processLines s dequeues (line :: lines) =
      let later := processLines (enqueueLine (takeJobs (dequeues.headD 0) s) (line ++ [0])).1
        dequeues.tail lines
      { later with accepted := line :: later.accepted } := by
  rw [processLines, if_neg (by omega), enqueueLine_of_room (room_takeJobs_iff.mpr hroom)]
  rfl

end Processing

/-- What is known after lines that fit and find room: all are accepted. -/
structure LinesOutcome.AcceptsAll (outcome : LinesOutcome) (s : Shared) (schedule : List ℕ)
    (lines : List (List UInt8)) : Prop where
  accepted : outcome.accepted = lines
  not_stopped : outcome.stopped = false
  logs : outcome.logs = []
  dequeues : outcome.dequeues = schedule.drop lines.length
  occupied : outcome.shared.queue.occupied =
    occupiedAfter s.queue.occupied schedule lines.length
  capacity : outcome.shared.queue.capacity = s.queue.capacity
  shouldRun : outcome.shared.shouldRun = s.shouldRun

theorem processLines_of_room (s : Shared) (dequeues : List ℕ) {lines : List (List UInt8)}
    (hfit : ∀ line ∈ lines, line.length < bufferSize)
    (hroom : RoomFor s.queue.capacity s.queue.occupied dequeues lines.length) :
    (processLines s dequeues lines).AcceptsAll s dequeues lines := by
  induction lines generalizing s dequeues with
  | nil => exact ⟨rfl, rfl, rfl, rfl, rfl, rfl, rfl⟩
  | cons line lines ih =>
    obtain ⟨hnow, hlater⟩ := hroom
    obtain ⟨hoccupied, hcapacity⟩ := counts_enqueueLine_takeJobs hnow (line ++ [0])
    have hrest := ih (enqueueLine (takeJobs (dequeues.headD 0) s) (line ++ [0])).1
      dequeues.tail (fun l hl => hfit l (by simp [hl])) (by rwa [hoccupied, hcapacity])
    rw [processLines_of_accept (hfit line (by simp)) hnow]
    refine ⟨congrArg _ hrest.accepted, hrest.not_stopped, hrest.logs, ?_, ?_, ?_, ?_⟩
    · exact hrest.dequeues.trans List.drop_tail
    · exact hrest.occupied.trans (by rw [hoccupied]; rfl)
    · exact hrest.capacity.trans hcapacity
    · exact hrest.shouldRun.trans (by rw [shouldRun_enqueueLine, shouldRun_takeJobs])

theorem shouldRun_processLines (s : Shared) (dequeues : List ℕ) (lines : List (List UInt8)) :
    (processLines s dequeues lines).shared.shouldRun = s.shouldRun := by
  induction lines generalizing s dequeues with
  | nil => rfl
  | cons line lines ih =>
    by_cases hfit : line.length < bufferSize
    · by_cases hroom : s.queue.occupied - dequeues.headD 0 < s.queue.capacity
      · rw [processLines_of_accept hfit hroom]
        exact (ih _ _).trans (by rw [shouldRun_enqueueLine, shouldRun_takeJobs])
      · rw [processLines_of_full hfit hroom, shouldRun_takeJobs]
    · rw [processLines_of_long (by omega), shouldRun_takeJobs]

/-- Whatever happens to the lines, what was queued before together with the
accepted lines is what the workers took followed by what is queued. -/
theorem processLines_holds {s : Shared} {items : List (List UInt8)} (h : s.queue.Holds items)
    (dequeues : List ℕ) {lines : List (List UInt8)}
    (hfree : ∀ line ∈ lines, (0 : UInt8) ∉ line) :
    ∃ taken queued, items ++ (processLines s dequeues lines).accepted = taken ++ queued ∧
      (processLines s dequeues lines).shared.queue.Holds queued := by
  induction lines generalizing s items dequeues with
  | nil => exact ⟨[], items, by simp [processLines], h⟩
  | cons line lines ih =>
    -- the workers take the oldest jobs before the line is queued
    have htaken := holds_takeJobs (dequeues.headD 0) h
    have hsplit : items.take (dequeues.headD 0) ++ items.drop (dequeues.headD 0) = items :=
      List.take_append_drop _ _
    by_cases hfit : line.length < bufferSize
    · by_cases hroom : s.queue.occupied - dequeues.headD 0 < s.queue.capacity
      · have hpushed := holds_enqueueLine htaken (room_takeJobs_iff.mpr hroom)
          (hfree line (by simp)) hfit
        obtain ⟨taken, queued, heq, hqueued⟩ := ih hpushed dequeues.tail
          fun l hl => hfree l (by simp [hl])
        rw [processLines_of_accept hfit hroom]
        refine ⟨items.take (dequeues.headD 0) ++ taken, queued, ?_, hqueued⟩
        rw [List.append_assoc, ← heq, List.append_assoc, ← List.append_assoc (items.take _), hsplit]
        rfl
      · rw [processLines_of_full hfit hroom]
        exact ⟨_, _, by rw [List.append_nil, hsplit], htaken⟩
    · rw [processLines_of_long (by omega)]
      exact ⟨_, _, by rw [List.append_nil, hsplit], htaken⟩

/-! ### Calls on a stream of chunks -/

/-- `socket_cb` for chunk after chunk. -/
def socketCbAll (workersCount : ℕ) (w : SocketWorker) (s : Shared) (dequeues : List ℕ) :
    List (List UInt8) → CallbackResult
  | [] => ⟨w, s, dequeues, [], []⟩
  | chunk :: chunks =>
    let now := socketCb workersCount w s (.data chunk) dequeues
    let later := socketCbAll workersCount now.worker now.shared now.dequeues chunks
    { later with accepted := now.accepted ++ later.accepted, logs := now.logs ++ later.logs }

/-- What `read` can return when there are bytes without NULs. -/
def ValidChunk (chunk : List UInt8) : Prop :=
  chunk ≠ [] ∧ chunk.length ≤ bufferSize - 1 ∧ (0 : UInt8) ∉ chunk

instance : DecidablePred ValidChunk := fun _ => inferInstanceAs (Decidable (_ ∧ _ ∧ _))

/-- A call on a chunk while the daemon runs. -/
theorem socketCb_matches (workersCount : ℕ) (w : SocketWorker) {s : Shared}
    (hrun : s.shouldRun = true) (dequeues : List ℕ) {chunk : List UInt8}
    (hchunk : ValidChunk chunk) :
    (socketCb workersCount w s (.data chunk) dequeues).Matches
      (processLines s dequeues (frame newline (cstr w.cacheBuffer) chunk).1)
      (keptLine (cstr w.cacheBuffer) chunk) := by
  obtain ⟨hne, -, hfree⟩ := hchunk
  rw [socketCb_of_data workersCount w hrun hne]
  exact socketCbLoop_matches (w.fill chunk) s dequeues (SocketWorker.cstr_readBuffer_fill hfree)

/-- The framing `socket_cb` performs when no line is refused: the open line is
carried by `keptLine`. -/
def keptFrame : List UInt8 → List (List UInt8) → List (List UInt8) × List UInt8
  | openLine, [] => ([], openLine)
  | openLine, chunk :: chunks =>
    let later := keptFrame (keptLine openLine chunk) chunks
    ((frame newline openLine chunk).1 ++ later.1, later.2)

/-- When every line fits and finds room, a sequence of calls accepts the lines of
`keptFrame` and leaves its open line in `cache_buffer`. -/
theorem socketCbAll_of_room (workersCount : ℕ) (w : SocketWorker) {s : Shared}
    (hrun : s.shouldRun = true) (dequeues : List ℕ) {chunks : List (List UInt8)}
    (hchunks : ∀ chunk ∈ chunks, ValidChunk chunk)
    (hfit : ∀ line ∈ (keptFrame (cstr w.cacheBuffer) chunks).1, line.length < bufferSize)
    (hroom : RoomFor s.queue.capacity s.queue.occupied dequeues
      (keptFrame (cstr w.cacheBuffer) chunks).1.length) :
    let result := socketCbAll workersCount w s dequeues chunks
    (result.accepted, cstr result.worker.cacheBuffer) = keptFrame (cstr w.cacheBuffer) chunks := by
  induction chunks generalizing w s dequeues with
  | nil => rfl
  | cons chunk chunks ih =>
    have hmatches := socketCb_matches workersCount w hrun dequeues (hchunks chunk (by simp))
    -- the lines of this chunk find room first, then those of the others
    simp only [keptFrame, List.mem_append, List.length_append, roomFor_add] at hfit hroom
    have hall := processLines_of_room s dequeues (fun line hl => hfit line (Or.inl hl))
      hroom.1
    set now := socketCb workersCount w s (.data chunk) dequeues with hnow
    have hcache : cstr now.worker.cacheBuffer = keptLine (cstr w.cacheBuffer) chunk := by
      rw [hmatches.cache, hall.not_stopped]
      rfl
    have hrunning : now.shared.shouldRun = true := by rw [hmatches.shared, hall.shouldRun, hrun]
    have hlater := ih now.worker hrunning now.dequeues (fun c hc => hchunks c (by simp [hc]))
      (by rw [hcache]; exact fun line hl => hfit line (Or.inr hl))
      (by
        rw [hcache, hmatches.shared, hmatches.dequeues, hall.capacity, hall.occupied,
          hall.dequeues]
        exact hroom.2)
    rw [hcache] at hlater
    obtain ⟨haccepted, hopen⟩ := Prod.ext_iff.mp hlater
    simp only [socketCbAll, keptFrame, ← hnow]
    rw [← haccepted, ← hopen, hmatches.accepted, hall.accepted]

/-- The bytes queued before the calls and the lines they accept are what the
workers took and what is queued after them. -/
theorem socketCbAll_holds (workersCount : ℕ) (w : SocketWorker) {s : Shared}
    (hrun : s.shouldRun = true) {items : List (List UInt8)} (h : s.queue.Holds items)
    (dequeues : List ℕ) {chunks : List (List UInt8)}
    (hchunks : ∀ chunk ∈ chunks, ValidChunk chunk) :
    ∃ taken queued,
      items ++ (socketCbAll workersCount w s dequeues chunks).accepted = taken ++ queued ∧
        (socketCbAll workersCount w s dequeues chunks).shared.queue.Holds queued := by
  induction chunks generalizing w s items dequeues with
  | nil => exact ⟨[], items, by simp [socketCbAll], h⟩
  | cons chunk chunks ih =>
    have hchunk := hchunks chunk (by simp)
    have hmatches := socketCb_matches workersCount w hrun dequeues hchunk
    have hfree : ∀ line ∈ (frame newline (cstr w.cacheBuffer) chunk).1, (0 : UInt8) ∉ line := by
      intro line hline hnul
      rcases mem_of_mem_frame hline hnul with hopen | htext
      · exact nul_notMem_cstr _ hopen
      · exact hchunk.2.2 htext
    obtain ⟨taken, queued, heq, hqueued⟩ := processLines_holds h dequeues hfree
    set now := socketCb workersCount w s (.data chunk) dequeues with hnow
    rw [← hmatches.shared] at hqueued
    have hrunning : now.shared.shouldRun = true := by
      rw [hmatches.shared, shouldRun_processLines, hrun]
    obtain ⟨taken', queued', heq', hqueued'⟩ := ih now.worker hrunning hqueued now.dequeues
      fun c hc => hchunks c (by simp [hc])
    simp only [socketCbAll, ← hnow]
    refine ⟨taken ++ taken', queued', ?_, hqueued'⟩
    rw [hmatches.accepted, ← List.append_assoc, heq, List.append_assoc, heq', List.append_assoc]

/-! ### When framing is exact -/

/-- The separators a framing accounts for, with the bytes of its lines. -/
def frameWeight (framed : List (List UInt8) × List UInt8) : ℕ :=
  (framed.1.map fun line => line.length + 1).sum + framed.2.length

/-- Framing loses nothing. -/
theorem frameWeight_frame (openLine text : List UInt8) :
    frameWeight (frame newline openLine text) = openLine.length + text.length := by
  induction text using lineInduction newline generalizing openLine with
  | hlast text htext => simp [frame_of_notMem htext, frameWeight]
  | hline line rest hline ih =>
    have hrest := ih []
    rw [frame_append_sep hline]
    simp only [frameWeight, lines, tail, List.map_cons, List.sum_cons, List.length_append,
      List.length_cons, List.length_nil] at hrest ⊢
    omega

theorem frameWeight_keptFrame_le (openLine : List UInt8) (chunks : List (List UInt8)) :
    frameWeight (keptFrame openLine chunks) ≤ openLine.length + chunks.flatten.length := by
  induction chunks generalizing openLine with
  | nil => simp [keptFrame, frameWeight]
  | cons chunk chunks ih =>
    have hlater := ih (keptLine openLine chunk)
    have hchunk := frameWeight_frame openLine chunk
    -- a chunk that overwrites the open line drops its bytes
    have hkept : (keptLine openLine chunk).length ≤ (frame newline openLine chunk).2.length := by
      unfold keptLine
      split_ifs with hmem hnil
      · rw [frame_snd_of_mem hmem]
      · simp [hnil, frame]
      · simp [frame_of_notMem hmem]
    simp only [frameWeight, keptFrame, List.map_append, List.sum_append, List.flatten_cons,
      List.length_append] at hlater hchunk ⊢
    omega

/-- A chunk may follow another when it does not overwrite an open line. -/
def Continues (first second : List UInt8) : Prop :=
  first.getLast? = some newline ∨ newline ∈ second

instance : DecidableRel Continues := fun _ _ => inferInstanceAs (Decidable (_ ∨ _))

theorem keptLine_eq_nil_iff {openLine chunk : List UInt8} (hne : chunk ≠ []) :
    keptLine openLine chunk = [] ↔ chunk.getLast? = some newline := by
  unfold keptLine
  split_ifs with hmem
  · rw [tail_eq_nil_iff, or_iff_right hne]
  · exact iff_of_false hne fun hlast => hmem (List.mem_of_getLast? hlast)

/-- `keptFrame` is the framing of the whole stream exactly when no chunk
overwrites an open line. -/
theorem keptFrame_eq_frame_iff (openLine : List UInt8) {chunks : List (List UInt8)}
    (hne : ∀ chunk ∈ chunks, chunk ≠ []) :
    keptFrame openLine chunks = frame newline openLine chunks.flatten ↔
      (∀ chunk ∈ chunks.head?, openLine = [] ∨ newline ∈ chunk) ∧
        chunks.IsChain Continues := by
  induction chunks generalizing openLine with
  | nil => simp [keptFrame, frame]
  | cons chunk chunks ih =>
    have hchunk : chunk ≠ [] := hne chunk (by simp)
    have hlater := ih (keptLine openLine chunk) fun c hc => hne c (by simp [hc])
    have hchain : (chunk :: chunks).IsChain Continues ↔
        (∀ c ∈ chunks.head?, keptLine openLine chunk = [] ∨ newline ∈ c) ∧
          chunks.IsChain Continues := by
      rw [List.isChain_cons]
      simp only [Continues, keptLine_eq_nil_iff hchunk]
    rw [hchain, ← hlater, List.flatten_cons, List.head?_cons]
    simp only [Option.mem_some_iff, forall_eq']
    by_cases hkeeps : openLine = [] ∨ newline ∈ chunk
    · -- the open line survives this chunk, and the rest is a matter of the later ones
      have hopen := keptLine_eq_frame_snd hchunk hkeeps
      rw [iff_true_intro hkeeps, true_and, keptFrame, frame_append, ← hopen, Prod.ext_iff,
        Prod.ext_iff]
      simp
    · -- the open line is lost, and its bytes are missing from the result
      obtain ⟨hopen, hmem⟩ := not_or.mp hkeeps
      refine iff_of_false (fun heq => ?_) fun h => hkeeps h.1
      have hweight := frameWeight_keptFrame_le chunk chunks
      have htotal := congrArg frameWeight heq
      have hkept : keptLine openLine chunk = chunk := by simp [keptLine, hmem, hchunk]
      simp only [frameWeight_frame, keptFrame, hkept, frame_of_notMem hmem, List.nil_append,
        List.length_append, Prod.mk.eta] at htotal
      have hpos := List.length_pos_iff.mpr hopen
      omega

/-- The lines `socket_cb` frames are no longer than the lines of the stream, one
by one, since it loses bytes at most. -/
theorem keptFrame_length_le {first second : List UInt8} (hle : first.length ≤ second.length)
    (chunks : List (List UInt8)) :
    List.Forall₂ (fun a b => a.length ≤ b.length) (keptFrame first chunks).1
      (frame newline second chunks.flatten).1 := by
  induction chunks generalizing first second with
  | nil => exact .nil
  | cons chunk chunks ih =>
    obtain ⟨hlines, hopen⟩ := frame_length_le newline hle chunk
    have hkept : (keptLine first chunk).length ≤ (frame newline first chunk).2.length := by
      unfold keptLine
      split_ifs with hmem hnil
      · rw [frame_snd_of_mem hmem]
      · simp [hnil, frame]
      · simp [frame_of_notMem hmem]
    rw [List.flatten_cons, frame_append, keptFrame]
    exact List.rel_append hlines (ih (hkept.trans hopen))

theorem length_le_of_forall₂ {first second : List (List UInt8)} {bound : ℕ}
    (hshorter : List.Forall₂ (fun a b => a.length ≤ b.length) first second)
    (hbound : ∀ line ∈ second, line.length ≤ bound) : ∀ line ∈ first, line.length ≤ bound := by
  induction hshorter with
  | nil => simp
  | cons hle _ ih =>
    intro line hline
    rcases List.mem_cons.mp hline with rfl | hmore
    · exact hle.trans (hbound _ (by simp))
    · exact ih (fun l hl => hbound l (by simp [hl])) line hmore

/-- Running `socket_cb` on the chunks of a stream from an empty `cache_buffer`,
with lines of at most 253 bytes and room for each, enqueues exactly the lines of
the stream and leaves exactly its tail if and only if no chunk without a newline
follows a chunk that ends inside a line. The accepted lines go to the queue. -/
theorem framing_exact_iff (workersCount : ℕ) (w : SocketWorker) (s : Shared) (dequeues : List ℕ)
    (items : List (List UInt8)) (chunks : List (List UInt8))
    (hempty : cstr w.cacheBuffer = []) (hrun : s.shouldRun = true) (hholds : s.queue.Holds items)
    (hchunks : ∀ chunk ∈ chunks, ValidChunk chunk)
    (hlines : ∀ line ∈ lines newline chunks.flatten, line.length ≤ 253)
    (hroom : RoomFor s.queue.capacity s.queue.occupied dequeues
      (lines newline chunks.flatten).length) :
    let result := socketCbAll workersCount w s dequeues chunks
    (∃ taken queued, items ++ result.accepted = taken ++ queued ∧
        result.shared.queue.Holds queued) ∧
      ((result.accepted = lines newline chunks.flatten ∧
          cstr result.worker.cacheBuffer = tail newline chunks.flatten) ↔
        chunks.IsChain Continues) := by
  intro result
  refine ⟨socketCbAll_holds workersCount w hrun hholds dequeues hchunks, ?_⟩
  have hshorter := keptFrame_length_le (Nat.le_refl ([] : List UInt8).length) chunks
  have hfit : ∀ line ∈ (keptFrame [] chunks).1, line.length < bufferSize := by
    intro line hline
    have := length_le_of_forall₂ hshorter hlines line hline
    unfold bufferSize
    omega
  have hresult := socketCbAll_of_room workersCount w hrun dequeues hchunks
    (by rwa [hempty]) (by rw [hempty, hshorter.length_eq]; exact hroom)
  have hne : ∀ chunk ∈ chunks, chunk ≠ [] := fun chunk hchunk => (hchunks chunk hchunk).1
  -- what is accepted is `keptFrame`, and that is the framing of the stream or not
  have hexact := keptFrame_eq_frame_iff [] hne
  rw [hempty] at hresult
  rw [← hresult, Prod.ext_iff] at hexact
  simpa [lines, tail] using hexact

/-- A cut inside a line is harmless when the next chunk brings its newline. -/
theorem framing_exact_split_line :
    let result := socketCbAll 2 .fresh (.fresh fun _ => List.replicate bufferSize 0) []
      [ascii "FETCH a\nCA", ascii "CHE b\n"]
    result.accepted = [ascii "FETCH a", ascii "CACHE b"] ∧
      cstr result.worker.cacheBuffer = [] := by
  have hholds : (Shared.fresh fun _ => List.replicate bufferSize 0).queue.Holds [] :=
    fifoInit_holds (fun _ => List.length_replicate) (by decide)
  obtain ⟨haccepted, hcache⟩ := (framing_exact_iff 2 .fresh
    (.fresh fun _ => List.replicate bufferSize 0) [] [] [ascii "FETCH a\nCA", ascii "CHE b\n"]
    (by decide) rfl hholds (by decide) (by decide)
    ⟨by decide, by decide, trivial⟩).2.mpr (by decide)
  exact ⟨haccepted.trans (by decide), hcache.trans (by decide)⟩

/-- Two partial chunks in a row: the second overwrites the first in
`cache_buffer`, and `abc` is queued for the line `FETCH abc`. -/
theorem framing_loses_open_line :
    let chunks := [ascii "FETCH ", ascii "abc", ascii "\n"]
    let s := Shared.fresh fun _ => List.replicate bufferSize 0
    let result := socketCbAll 2 .fresh s [] chunks
    (∀ chunk ∈ chunks, ValidChunk chunk) ∧
      (∀ line ∈ lines newline chunks.flatten, line.length ≤ 253) ∧
      RoomFor s.queue.capacity s.queue.occupied [] (lines newline chunks.flatten).length ∧
      lines newline chunks.flatten = [ascii "FETCH abc"] ∧
      result.accepted = [ascii "abc"] := by
  intro chunks s result
  have hresult := socketCbAll_of_room 2 .fresh (s := s) rfl []
    (show ∀ chunk ∈ chunks, ValidChunk chunk by decide) (by decide) ⟨by decide, trivial⟩
  refine ⟨by decide, by decide, ⟨by decide, trivial⟩, by decide, ?_⟩
  exact (congrArg Prod.fst hresult).trans (by decide)

end EasyForetell
