import EasyForetell.SocketCallback
import EasyForetell.Theory.LineFraming

/-!
# The framing buffers (queral.c, socket_cb)

How far `socket_cb` writes into `read_buffer` and `cache_buffer`, for any chunks and
whatever becomes of the lines. The length test of a pass compares the line and its
newline with `BUFFER_SIZE`, and leaves out the NUL that `strncat` puts behind them. Only
the first line of a chunk can be that long: the others are shorter than a chunk.

## Main results

* `SocketWorker.inBounds_socketCbLoop_iff`: when the loop stays in the buffers
* `framing_in_bounds_iff`: when all calls of a run do
-/

namespace EasyForetell

open Memory Theory

/-- What a call of `socket_cb` meets: the shared state, what `read` returns and the jobs
taken between its lines. -/
structure FramingCall where
  shared : Shared
  input : ReadResult
  dequeues : List ℕ

/-- `read` stores no more than it is asked for. -/
def FramingCall.Valid (call : FramingCall) : Prop :=
  ∀ chunk, call.input = .data chunk → chunk.length ≤ bufferSize - 1

/-- The buffers after a call. -/
def FramingCall.next (workersCount : ℕ) (w : SocketWorker) (call : FramingCall) : SocketWorker :=
  (socketCb workersCount w call.shared call.input call.dequeues).worker

/-- The buffers after a sequence of calls, from those that `main` sets up. -/
def framedBy (workersCount : ℕ) (calls : List FramingCall) : SocketWorker :=
  calls.foldl (FramingCall.next workersCount) .fresh

/-- Nothing was written behind the buffers. -/
def SocketWorker.InBounds (w : SocketWorker) : Prop :=
  w.readBuffer.length ≤ bufferSize ∧ w.cacheBuffer.length ≤ bufferSize

/-- A line that the chunk completes fills `cache_buffer` up with its newline. -/
def SocketWorker.FilledBy (w : SocketWorker) (chunk : List UInt8) : Prop :=
  ∃ line ∈ (frame newline (cstr w.cacheBuffer) chunk).1, line.length + 1 = bufferSize

/-- The call reads a chunk that does so. -/
def FramingCall.Fills (w : SocketWorker) (call : FramingCall) : Prop :=
  call.shared.shouldRun = true ∧ ∃ chunk, call.input = .data chunk ∧ w.FilledBy (cstr chunk)

section Bounds

variable {w w' : SocketWorker} {text rest : List UInt8}

/-- In a chunk only the first line can be that long. -/
theorem SocketWorker.filledBy_iff_of_split (htext : newline ∉ text)
    (hshort : (text ++ newline :: rest).length ≤ bufferSize - 1) :
    w.FilledBy (text ++ newline :: rest) ↔ (cstr w.cacheBuffer ++ text).length + 1 = bufferSize := by
  rw [FilledBy, frame_append_sep htext]
  constructor
  · rintro ⟨line, hline, hlength⟩
    rcases List.mem_cons.mp hline with rfl | hlater
    · exact hlength
    · have hless := length_lt_of_mem_lines hlater
      rw [List.length_append, List.length_cons] at hshort
      omega
  · intro hlength
    exact ⟨_, List.mem_cons_self, hlength⟩

theorem SocketWorker.length_clearCache :
    w.clearCache.cacheBuffer.length = max w.cacheBuffer.length bufferSize :=
  length_memset _ _ _

/-- A pass that keeps the line leaves `cache_buffer` in its bounds unless the line fills
it. -/
theorem SocketWorker.length_appendLine (hread : cstr w.readBuffer = text ++ newline :: rest)
    (happend : w.appendLine text.length = some w') :
    w'.cacheBuffer.length ≤ bufferSize ↔
      w.cacheBuffer.length ≤ bufferSize ∧
        (cstr w.cacheBuffer ++ text).length + 1 ≠ bufferSize := by
  have hshort : ¬ bufferSize < (cstr w.cacheBuffer ++ text).length + 1 := by
    rw [← appendLine_eq_none_iff hread, happend]
    simp
  rw [appendLine, bufferLength_of_split hread] at happend
  split_ifs at happend
  obtain rfl := Option.some.inj happend
  -- the NUL that cuts the newline off is inside what `strncat` wrote
  have hread' : strlen w.readBuffer = text.length + (rest.length + 1) := by
    rw [strlen, hread, List.length_append, List.length_cons]
  have hinside := strlen_le_length (strncat w.cacheBuffer w.readBuffer (text.length + 1))
  have hlength := length_strncat w.cacheBuffer w.readBuffer (text.length + 1)
  rw [List.length_append, ← strlen] at hshort ⊢
  rw [length_store (by omega), List.length_singleton]
  omega

/-- The next pass starts in the bounds that this one kept. -/
theorem SocketWorker.length_restoreBuffers (hread : cstr w.readBuffer = text ++ newline :: rest)
    (hsize : w.readBuffer.length ≤ bufferSize) :
    (w.restoreBuffers text.length).readBuffer.length ≤ bufferSize ∧
      (w.restoreBuffers text.length).cacheBuffer.length = max w.cacheBuffer.length bufferSize := by
  have hlength : strlen w.readBuffer = text.length + (rest.length + 1) := by
    rw [strlen, hread, List.length_append, List.length_cons]
  have htotal := strlen_le_length w.readBuffer
  rw [restoreBuffers, bufferLength_of_split hread]
  split_ifs with hmore
  · refine ⟨?_, length_clearCache⟩
    rw [readBuffer_clearCache, length_strcpy, strlen_drop (by omega)]
    omega
  · refine ⟨?_, length_clearCache⟩
    rw [readBuffer_clearCache, length_memset]
    exact max_le hsize (Nat.le_refl _)

/-- The rest of a chunk and its NUL fit in `cache_buffer`. -/
theorem SocketWorker.length_saveTail (hread : cstr w.readBuffer = text)
    (hsize : w.readBuffer.length ≤ bufferSize) (hshort : text.length ≤ bufferSize - 1) :
    w.saveTail.readBuffer.length ≤ bufferSize ∧
      (w.saveTail.cacheBuffer.length ≤ bufferSize ↔ w.cacheBuffer.length ≤ bufferSize) := by
  have hpositive : 1 ≤ bufferSize := by decide
  rw [saveTail, strlen, hread]
  split_ifs
  · refine ⟨hsize, ?_⟩
    rw [length_strcpy, strlen, hread]
    omega
  · exact ⟨hsize, Iff.rfl⟩

/-- Behind an empty `cache_buffer` no line of a chunk is long enough. -/
theorem SocketWorker.not_filledBy_of_empty (hempty : cstr w.cacheBuffer = [])
    (hshort : rest.length ≤ bufferSize - 1) : ¬ w.FilledBy rest := by
  rintro ⟨line, hline, hlength⟩
  rw [hempty] at hline
  have := length_lt_of_mem_lines hline
  omega

/-- From a chunk in `read_buffer`, the loop keeps `read_buffer` in its bounds, and
`cache_buffer` exactly when no line fills it up. -/
theorem SocketWorker.inBounds_socketCbLoop_iff (s : Shared) (dequeues : List ℕ)
    {chunk : List UInt8} (hread : cstr w.readBuffer = chunk)
    (hsize : w.readBuffer.length ≤ bufferSize) (hshort : chunk.length ≤ bufferSize - 1) :
    (socketCbLoop w s dequeues).worker.readBuffer.length ≤ bufferSize ∧
      ((socketCbLoop w s dequeues).worker.cacheBuffer.length ≤ bufferSize ↔
        w.cacheBuffer.length ≤ bufferSize ∧ ¬ w.FilledBy chunk) := by
  induction chunk using lineInduction newline generalizing w s dequeues with
  | hlast text htext =>
    have hnone : strchr w.readBuffer newline = none := strchr_eq_none_iff.mpr (hread ▸ htext)
    have hquiet : ¬ w.FilledBy text := by simp [FilledBy, frame_of_notMem htext]
    rw [socketCbLoop_of_none hnone, and_iff_left hquiet]
    exact length_saveTail hread hsize hshort
  | hline text rest htext ih =>
    have hfound := strchr_of_split hread htext
    -- only the first line of a chunk can be long enough
    rw [filledBy_iff_of_split htext hshort]
    cases happend : w.appendLine text.length with
    | none =>
      -- the line is too long, and dropped
      have hlong := (appendLine_eq_none_iff hread).mp happend
      rw [socketCbLoop_of_overflow hfound happend]
      refine ⟨hsize, ?_⟩
      dsimp only
      rw [length_clearCache]
      omega
    | some w' =>
      have hkept := length_appendLine hread happend
      obtain ⟨hread', -⟩ := appendLine_eq_some hread happend
      rw [socketCbLoop_of_append hfound happend]
      dsimp only
      split_ifs with hfull
      · -- the queue is full
        refine ⟨?_, ?_⟩
        · rwa [readBuffer_clearCache, hread']
        · dsimp only
          rw [length_clearCache, ← ne_eq, ← hkept]
          omega
      · -- the lines behind this one are too short to fill anything
        have hread'' : cstr w'.readBuffer = text ++ newline :: rest := by rw [hread', hread]
        have hrest : rest.length ≤ bufferSize - 1 := by
          rw [List.length_append, List.length_cons] at hshort
          omega
        obtain ⟨hnextRead, hempty⟩ := restoreBuffers_spec hread''
        obtain ⟨hreadSize, hcacheSize⟩ := length_restoreBuffers hread'' (hread' ▸ hsize)
        obtain ⟨hlaterRead, hlaterCache⟩ := ih _ dequeues.tail hnextRead hreadSize hrest
        refine ⟨hlaterRead, ?_⟩
        rw [hlaterCache, and_iff_left (not_filledBy_of_empty hempty hrest), hcacheSize, ← ne_eq,
          ← hkept]
        omega

/-- A chunk and its NUL fit in `read_buffer`. -/
theorem SocketWorker.fill_spec {chunk : List UInt8} (hsize : w.readBuffer.length ≤ bufferSize)
    (hshort : chunk.length ≤ bufferSize - 1) :
    cstr (w.fill chunk).readBuffer = cstr chunk ∧
      (w.fill chunk).readBuffer.length ≤ bufferSize := by
  have hpositive : 1 ≤ bufferSize := by decide
  have hstored : (store w.readBuffer 0 chunk).length = max w.readBuffer.length chunk.length := by
    rw [length_store (Nat.zero_le _), Nat.zero_add]
  constructor
  · rw [fill, store, store_zero, List.take_left' rfl, List.append_assoc]
    exact cstr_append_nul_eq _ _
  · rw [fill, length_store (by omega), hstored, List.length_singleton]
    omega

/-- A call that starts in the bounds of the buffers stays there unless its chunk
completes a line that fills `cache_buffer` up. -/
theorem FramingCall.inBounds_next_iff (workersCount : ℕ) {call : FramingCall}
    (hvalid : call.Valid) (hbounds : w.InBounds) :
    (call.next workersCount w).InBounds ↔ ¬ call.Fills w := by
  cases hrun : call.shared.shouldRun with
  | false =>
    -- the callback broadcasts shutdown and reads nothing
    have hstill : call.next workersCount w = w := by
      simp [next, socketCb, shouldSocketWorkerRun_of_stop hrun]
    rw [hstill]
    exact iff_of_true hbounds fun hfills => by simp [hrun, Fills] at hfills
  | true =>
    cases hinput : call.input with
    | failed =>
      have hstill : call.next workersCount w = w := by
        simp [next, socketCb, shouldSocketWorkerRun_of_run hrun, hinput]
      rw [hstill]
      refine iff_of_true hbounds ?_
      rintro ⟨-, chunk, hchunk, -⟩
      rw [hinput] at hchunk
      cases hchunk
    | data chunk =>
      have hfills : call.Fills w ↔ w.FilledBy (cstr chunk) := by
        simp [Fills, hrun, hinput]
      rw [hfills]
      rcases List.eq_nil_or_concat' chunk with rfl | ⟨front, last, hchunk⟩
      · have hstill : call.next workersCount w = w := by
          simp [next, socketCb, shouldSocketWorkerRun_of_run hrun, hinput]
        rw [hstill]
        exact iff_of_true hbounds (by simp [SocketWorker.FilledBy, cstr, frame])
      · have hne : chunk ≠ [] := by simp [hchunk]
        have hshort := hvalid chunk hinput
        obtain ⟨hread, hsize⟩ := w.fill_spec hbounds.1 hshort
        have hstring : (cstr chunk).length ≤ bufferSize - 1 :=
          (cstr_isPrefix chunk).length_le.trans hshort
        obtain ⟨hreadBuffer, hcacheBuffer⟩ := SocketWorker.inBounds_socketCbLoop_iff
          call.shared call.dequeues hread hsize hstring
        rw [next, hinput, socketCb_of_data workersCount w hrun hne, SocketWorker.InBounds,
          hcacheBuffer]
        exact (and_iff_right hreadBuffer).trans (and_iff_right hbounds.2)

end Bounds

theorem framedBy_succ (workersCount : ℕ) {calls : List FramingCall} {n : ℕ} {call : FramingCall}
    (hcall : calls[n]? = some call) :
    framedBy workersCount (calls.take (n + 1)) =
      call.next workersCount (framedBy workersCount (calls.take n)) := by
  rw [framedBy, List.take_add_one, hcall, Option.toList_some, List.foldl_append]
  rfl

/-- In every run of `socket_cb`, whatever it reads and whatever becomes of the lines, the
calls stay in the framing buffers if and only if no chunk completes a line that fills
`cache_buffer` up with its newline. -/
theorem framing_in_bounds_iff (workersCount : ℕ) (calls : List FramingCall)
    (hvalid : ∀ call ∈ calls, call.Valid) :
    (∀ n ≤ calls.length, (framedBy workersCount (calls.take n)).InBounds) ↔
      ∀ (n : ℕ) (call : FramingCall), calls[n]? = some call →
        ¬ call.Fills (framedBy workersCount (calls.take n)) := by
  constructor
  · intro hbounds n call hcall
    obtain ⟨hn, -⟩ := List.getElem?_eq_some_iff.mp hcall
    rw [← FramingCall.inBounds_next_iff workersCount (hvalid call (List.mem_of_getElem? hcall))
      (hbounds n hn.le), ← framedBy_succ workersCount hcall]
    exact hbounds (n + 1) hn
  · intro hquiet n
    induction n with
    | zero => exact fun _ => ⟨by simp [framedBy, SocketWorker.fresh],
        by simp [framedBy, SocketWorker.fresh]⟩
    | succ n ih =>
      intro hn
      have hcall : calls[n]? = some calls[n] := List.getElem?_eq_getElem hn
      rw [framedBy_succ workersCount hcall, FramingCall.inBounds_next_iff workersCount
        (hvalid _ (List.mem_of_getElem? hcall)) (ih (Nat.le_of_succ_le hn))]
      exact hquiet n _ hcall

/-- A call that reads a chunk while the daemon runs. -/
def readCall (chunk : List UInt8) : FramingCall := ⟨Shared.fresh fun _ => [], .data chunk, []⟩

theorem readCall_valid {chunk : List UInt8} (hshort : chunk.length ≤ bufferSize - 1) :
    (readCall chunk).Valid := by
  intro read hread
  obtain rfl := ReadResult.data.inj hread
  exact hshort

/-- A short line stays in the buffers. -/
theorem framing_in_bounds_short_line : (framedBy 0 [readCall (ascii "ab\n")]).InBounds := by
  refine (framing_in_bounds_iff 0 [readCall (ascii "ab\n")] ?_).mpr ?_ 1 (Nat.le_refl 1)
  · intro call hcall
    obtain rfl := List.mem_singleton.mp hcall
    exact readCall_valid (by decide)
  · intro n call hcall
    cases n with
    | zero =>
      obtain rfl : readCall (ascii "ab\n") = call := Option.some.inj hcall
      rintro ⟨-, chunk, hchunk, hfilled⟩
      obtain rfl := ReadResult.data.inj hchunk
      revert hfilled
      unfold SocketWorker.FilledBy
      decide
    | succ n => cases hcall

/-- The first call keeps a chunk without a newline in `cache_buffer`. -/
theorem readCall_next_fresh {chunk : List UInt8} (hshort : chunk.length ≤ bufferSize - 1)
    (hne : chunk ≠ []) (hline : newline ∉ chunk) (hnul : (0 : UInt8) ∉ chunk) :
    ((readCall chunk).next 0 .fresh).InBounds ∧
      cstr ((readCall chunk).next 0 .fresh).cacheBuffer = chunk := by
  have hfresh : SocketWorker.fresh.InBounds := by simp [SocketWorker.InBounds, SocketWorker.fresh]
  constructor
  · rw [FramingCall.inBounds_next_iff 0 (readCall_valid hshort) hfresh]
    rintro ⟨-, read, hchunk, hfilled⟩
    obtain rfl := ReadResult.data.inj hchunk
    rw [cstr_of_nulFree hnul, SocketWorker.FilledBy, frame_of_notMem hline] at hfilled
    simp at hfilled
  · obtain ⟨hread, -⟩ := SocketWorker.fill_spec hfresh.1 hshort
    rw [cstr_of_nulFree hnul] at hread
    have hnone : strchr (SocketWorker.fresh.fill chunk).readBuffer newline = none :=
      strchr_eq_none_iff.mpr (by rwa [hread])
    rw [readCall, FramingCall.next, socketCb_of_data 0 _ rfl hne, socketCbLoop_of_none hnone,
      SocketWorker.cstr_saveTail, hread, if_neg hne]

/-- A line of 254 bytes whose newline comes in a chunk of its own: `strncat` puts its NUL
behind `cache_buffer`. -/
theorem framing_overruns_cache_buffer :
    let calls := [readCall (List.replicate 254 120), readCall [newline]]
    (∀ call ∈ calls, call.Valid) ∧ ¬ (framedBy 0 calls).InBounds := by
  have hlength : (List.replicate 254 (120 : UInt8)).length = 254 := List.length_replicate
  have hbytes : ∀ c ∈ List.replicate 254 (120 : UInt8), c = 120 :=
    fun c hc => List.eq_of_mem_replicate hc
  generalize List.replicate 254 (120 : UInt8) = chunk at hlength hbytes
  have hshort : chunk.length ≤ bufferSize - 1 := by
    rw [hlength]
    decide
  obtain ⟨hbetween, hkept⟩ := readCall_next_fresh hshort
    (List.ne_nil_of_length_eq_add_one hlength)
    (fun hmem => absurd (hbytes _ hmem) (by decide))
    (fun hmem => absurd (hbytes _ hmem) (by decide))
  have hsecond : (readCall [newline]).Valid := readCall_valid (by decide)
  refine ⟨List.forall_mem_cons.mpr ⟨readCall_valid hshort, List.forall_mem_singleton.mpr hsecond⟩,
    ?_⟩
  -- the second call completes the line
  change ¬ ((readCall [newline]).next 0 ((readCall chunk).next 0 .fresh)).InBounds
  rw [FramingCall.inBounds_next_iff 0 hsecond hbetween, not_not]
  refine ⟨rfl, [newline], rfl, chunk, ?_, by rw [hlength]; rfl⟩
  have hnewline : cstr [newline] = [] ++ newline :: [] := by decide
  rw [hnewline, frame_append_sep List.not_mem_nil, hkept]
  simp

end EasyForetell
