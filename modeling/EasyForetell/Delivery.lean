import EasyForetell.JobCommands
import EasyForetell.Quiescence

/-!
# Lines on their way (queral.c, socket_cb and its callers)

Between the FIFO and the queue a line lies in pieces: its end in the FIFO, its beginning in
`read_buffer` or `cache_buffer`. `transit` is what is still to be queued, wherever the main
thread is in its loop. While everybody writes whole lines and the queue has room, what is
queued and what is on its way are together always what was written, in order.

## Main results

* `Delivering.of_mainStep`: the main thread loses nothing
* `Delivering.write`, `Delivering.of_worker`: what the others do
-/

namespace EasyForetell

open Memory Theory

namespace Daemon

variable {workersCount : ℕ} {malloc : ℕ → Block} {capacity : ℕ} {d e : Daemon workersCount}
  {line : List UInt8}

/-- The line that is open, and the bytes that are framed behind it. -/
def unread (d : Daemon workersCount) : List UInt8 × List UInt8 :=
  let behind := (cstr d.buffers.readBuffer ++ d.fifo).drop
  match d.main with
  | .looping => (cstr d.buffers.cacheBuffer, behind 0)
  -- the line is complete, and its newline is the next byte
  | .enqueueing found => (cstr d.buffers.cacheBuffer, behind found)
  | .restoring found => ([], behind (found + 1))
  | .saving => ([], behind 0)
  | .waiting | .testing | .returning | .reading | .left => (cstr d.buffers.cacheBuffer, d.fifo)

/-- The lines that are still to be queued. -/
def transit (d : Daemon workersCount) : List (List UInt8) :=
  (frame newline d.unread.1 d.unread.2).1

/-- The queue has a slot for the line that the main thread is about to queue. -/
def HasRoom (d : Daemon workersCount) : Prop :=
  ∀ found, d.main = .enqueueing found →
    d.pool.shared.queue.occupied < d.pool.shared.queue.capacity

/-- Whole lines are on their way, each of them short enough for a window, and so a window
completes the line that is open before it. -/
structure Delivering (d : Daemon workersCount) : Prop where
  running : d.pool.shared.shouldRun = true
  nulFree : (0 : UInt8) ∉ d.fifo
  whole : (frame newline d.unread.1 d.unread.2).2 = []
  short : ∀ line ∈ d.transit, line.length + 1 ≤ bufferSize - 1
  looping : d.main = .looping → cstr d.buffers.cacheBuffer = [] ∨
    newline ∈ cstr d.buffers.readBuffer
  saving : d.main = .saving → cstr d.buffers.cacheBuffer = [] ∧
    newline ∉ cstr d.buffers.readBuffer

/-! ### The main thread -/

/-- A newline completes the line that is open. -/
theorem frame_newline (openLine rest : List UInt8) :
    frame newline openLine (newline :: rest) =
      (openLine :: lines newline rest, tail newline rest) := by
  simp [frame, lines, tail]

/-- A step that leaves what is framed as it is. -/
theorem Delivering.of_frame (h : d.Delivering)
    (hframe : frame newline e.unread.1 e.unread.2 = frame newline d.unread.1 d.unread.2)
    (hpool : e.pool = d.pool) (hnul : (0 : UInt8) ∉ e.fifo)
    (hlooping : e.main = .looping → cstr e.buffers.cacheBuffer = [] ∨
      newline ∈ cstr e.buffers.readBuffer)
    (hsaving : e.main = .saving → cstr e.buffers.cacheBuffer = [] ∧
      newline ∉ cstr e.buffers.readBuffer) :
    e.Delivering ∧ e.pool.accepted ++ e.transit = d.pool.accepted ++ d.transit := by
  have htransit : e.transit = d.transit := congrArg Prod.fst hframe
  refine ⟨⟨hpool ▸ h.running, hnul, ?_, ?_, hlooping, hsaving⟩, by rw [hpool, htransit]⟩
  · rw [hframe]
    exact h.whole
  · rw [htransit]
    exact h.short

/-- A step between two places at which nothing of the window is read. -/
theorem Delivering.of_unread (h : d.Delivering) (hunread : e.unread = d.unread)
    (hpool : e.pool = d.pool) (hfifo : e.fifo = d.fifo) (hlooping : e.main ≠ .looping)
    (hsaving : e.main ≠ .saving) :
    e.Delivering ∧ e.pool.accepted ++ e.transit = d.pool.accepted ++ d.transit :=
  h.of_frame (by rw [hunread]) hpool (hfifo ▸ h.nulFree) (fun hmain => absurd hmain hlooping)
    fun hmain => absurd hmain hsaving

/-- The window that is read goes on with the line that is open. -/
theorem Delivering.read (h : d.Delivering) (hmain : d.main = .reading) :
    let e : Daemon workersCount := { d with
      main := .looping
      buffers := d.buffers.fill (d.fifo.take (bufferSize - 1))
      fifo := d.fifo.drop (bufferSize - 1) }
    e.Delivering ∧ e.pool.accepted ++ e.transit = d.pool.accepted ++ d.transit := by
  intro e
  have hfree : (0 : UInt8) ∉ d.fifo.take (bufferSize - 1) :=
    fun hmem => h.nulFree (List.mem_of_mem_take hmem)
  have hstring : cstr e.buffers.readBuffer = d.fifo.take (bufferSize - 1) :=
    SocketWorker.cstr_readBuffer_fill hfree
  have hunread : d.unread = (cstr d.buffers.cacheBuffer, d.fifo) := by
    simp only [unread, hmain]
  have hsame : e.unread = d.unread := by
    have hafter : e.unread = (cstr d.buffers.cacheBuffer,
        cstr e.buffers.readBuffer ++ d.fifo.drop (bufferSize - 1)) := rfl
    rw [hafter, hunread, hstring, List.take_append_drop]
  refine h.of_frame (by rw [hsame]) rfl (fun hmem => h.nulFree (List.mem_of_mem_drop hmem))
    (fun _ => ?_) (fun hsaving => by cases hsaving)
  by_cases hopen : cstr d.buffers.cacheBuffer = []
  · exact Or.inl hopen
  · -- the line that is open ends in the window
    have hwhole := h.whole
    have hshort := h.short
    rw [transit] at hshort
    rw [hunread] at hwhole hshort
    rw [hstring]
    exact Or.inr (sep_mem_take hopen hwhole fun line hline =>
      (Nat.le_succ _).trans (hshort line hline))

/-- A line that was found is short, so its length passes the test. -/
theorem Delivering.append (h : d.Delivering) (hmain : d.main = .looping) {found : ℕ}
    (hfound : strchr d.buffers.readBuffer newline = some found) :
    d.buffers.appendLine found ≠ none ∧
      ∀ buffers, d.buffers.appendLine found = some buffers →
        let e : Daemon workersCount := { d with main := .enqueueing found, buffers := buffers }
        e.Delivering ∧ e.pool.accepted ++ e.transit = d.pool.accepted ++ d.transit := by
  obtain ⟨text, rest, hread, htext, rfl⟩ := eq_append_of_strchr hfound
  have hframed : frame newline d.unread.1 d.unread.2 =
      ((cstr d.buffers.cacheBuffer ++ text) :: lines newline (rest ++ d.fifo),
        tail newline (rest ++ d.fifo)) := by
    simp only [unread, hmain, List.drop_zero, hread, List.append_assoc, List.cons_append]
    exact frame_append_sep htext _ _
  constructor
  · intro hoverflow
    have hlong := (SocketWorker.appendLine_eq_none_iff hread).mp hoverflow
    have hshort := h.short (cstr d.buffers.cacheBuffer ++ text) (by
      rw [transit, hframed]
      exact List.mem_cons_self)
    omega
  · intro buffers happend e
    obtain ⟨hsame, hcache, -⟩ := SocketWorker.appendLine_eq_some hread happend
    refine h.of_frame ?_ rfl h.nulFree (fun hplace => by cases hplace)
      (fun hplace => by cases hplace)
    have hafter : e.unread = (cstr buffers.cacheBuffer,
        (cstr buffers.readBuffer ++ d.fifo).drop text.length) := rfl
    rw [hframed, hafter, hsame, hcache, hread, List.append_assoc, List.drop_left]
    exact frame_newline _ _

/-- A line that is queued is the next of those on their way. -/
theorem Delivering.enqueue (h : d.Delivering) (hplaced : d.Placed) {found : ℕ}
    (hmain : d.main = .enqueueing found)
    (hroom : d.pool.shared.queue.occupied < d.pool.shared.queue.capacity)
    (hstep : d.mainStep = some e) :
    e.Delivering ∧ e.pool.accepted ++ e.transit = d.pool.accepted ++ d.transit := by
  have hres : ¬ (enqueueLine d.pool.shared d.buffers.cacheBuffer).2 = -1 := by
    rw [enqueueLine_of_room hroom]
    simp
  simp only [mainStep, hmain, Option.map_eq_some_iff, if_neg hres] at hstep
  obtain ⟨pool, hpool, rfl⟩ := hstep
  simp only [Pool.next, if_neg hres] at hpool
  split_ifs at hpool
  obtain rfl := Option.some.inj hpool
  obtain ⟨text, rest, hread, -, rfl⟩ := eq_append_of_strchr (hplaced.found found (Or.inl hmain))
  have hframed : frame newline d.unread.1 d.unread.2 =
      (cstr d.buffers.cacheBuffer :: lines newline (rest ++ d.fifo),
        tail newline (rest ++ d.fifo)) := by
    simp only [unread, hmain, hread, List.append_assoc, List.drop_left, List.cons_append]
    exact frame_newline _ _
  have hbehind : (cstr d.buffers.readBuffer ++ d.fifo).drop (text.length + 1) =
      rest ++ d.fifo := by
    rw [hread, List.append_assoc, ← List.drop_drop, List.drop_left]
    rfl
  have hwhole := h.whole
  have hshort := h.short
  rw [transit] at hshort
  rw [hframed] at hwhole hshort
  refine ⟨⟨?_, h.nulFree, ?_, ?_, (fun hplace => by cases hplace),
    fun hplace => by cases hplace⟩, ?_⟩
  · exact (shouldRun_enqueueLine _ _).trans h.running
  · simp only [unread, hbehind]
    exact hwhole
  · simp only [transit, unread, hbehind]
    exact fun line hline => hshort line (List.mem_cons_of_mem _ hline)
  · simp only [transit, hframed]
    simp only [unread, hbehind, List.append_assoc]
    rfl

/-- The main thread loses nothing, as long as the queue has room. -/
theorem Delivering.of_mainStep (h : d.Delivering) (hplaced : d.Placed) (hroom : d.HasRoom)
    (hstep : d.mainStep = some e) :
    e.Delivering ∧ e.pool.accepted ++ e.transit = d.pool.accepted ++ d.transit := by
  by_cases hplace : ∃ found, d.main = .enqueueing found
  · obtain ⟨found, hmain⟩ := hplace
    exact h.enqueue hplaced hmain (hroom found hmain) hstep
  · cases MainStep.of_mainStep hstep with
    | refuse hmain | accept hmain => exact absurd ⟨_, hmain⟩ hplace
    | call hmain | goOn hmain | starve hmain =>
      exact h.of_unread (by simp only [unread, hmain]) rfl rfl (by simp) (by simp)
    | test hmain hpool =>
      simp only [Pool.next, shouldSocketWorkerRun_of_run h.running] at hpool
      split_ifs at hpool
      obtain rfl := Option.some.inj hpool
      exact h.of_unread (by simp only [unread, hmain]) rfl rfl (by simp) (by simp)
    | stop hmain hstop =>
      rw [h.running] at hstop
      cases hstop
    | read hmain => exact h.read hmain
    | finishLoop hmain hfound =>
      have hnone := strchr_eq_none_iff.mp hfound
      have hempty := (h.looping hmain).resolve_right hnone
      refine h.of_frame ?_ rfl h.nulFree (fun hplace => by cases hplace) fun _ => ⟨hempty, hnone⟩
      simp only [unread, hmain, hempty]
    | overflow hmain hfound happend => exact absurd happend (h.append hmain hfound).1
    | append hmain hfound happend => exact (h.append hmain hfound).2 _ happend
    | restore hmain =>
      obtain ⟨text, rest, hread, -, rfl⟩ := eq_append_of_strchr (hplaced.found _ (Or.inr hmain))
      obtain ⟨hrest, hempty⟩ := SocketWorker.restoreBuffers_spec hread
      refine h.of_frame ?_ rfl h.nulFree (fun _ => Or.inl hempty) (fun hplace => by cases hplace)
      simp only [unread, hmain, hrest, hempty, List.drop_zero]
      rw [hread, List.append_assoc, ← List.drop_drop, List.drop_left]
      rfl
    | save hmain =>
      obtain ⟨hempty, hnone⟩ := h.saving hmain
      refine h.of_frame ?_ rfl h.nulFree (fun hplace => by cases hplace)
        (fun hplace => by cases hplace)
      have hsaved : cstr d.buffers.saveTail.cacheBuffer = cstr d.buffers.readBuffer := by
        rw [SocketWorker.cstr_saveTail]
        split_ifs with hread
        · rw [hempty, hread]
        · rfl
      simp only [unread, hmain, hsaved, List.drop_zero]
      rw [frame_append, frame_of_notMem hnone]
      rfl

/-! ### The others -/

/-- What is written to the FIFO is framed last. -/
theorem unread_write (d : Daemon workersCount) (hplaced : d.Placed) (bytes : List UInt8) :
    unread { d with fifo := d.fifo ++ bytes } = (d.unread.1, d.unread.2 ++ bytes) := by
  have hdrop : ∀ found, d.main = .enqueueing found ∨ d.main = .restoring found →
      found + 1 ≤ (cstr d.buffers.readBuffer ++ d.fifo).length := by
    intro found hmain
    obtain ⟨text, rest, hread, -, rfl⟩ := eq_append_of_strchr (hplaced.found found hmain)
    rw [hread]
    simp only [List.length_append, List.length_cons]
    omega
  unfold unread
  cases hmain : d.main with
  | enqueueing found =>
    dsimp only
    rw [← List.append_assoc,
      List.drop_append_of_le_length ((Nat.le_succ _).trans (hdrop found (Or.inl hmain)))]
  | restoring found =>
    dsimp only
    rw [← List.append_assoc, List.drop_append_of_le_length (hdrop found (Or.inr hmain))]
  | looping | saving =>
    dsimp only
    rw [List.drop_zero, List.drop_zero, List.append_assoc]
  | waiting | testing | returning | reading | left => rfl

/-- A line that is written whole comes last. -/
theorem Delivering.write (h : d.Delivering) (hplaced : d.Placed) (hline : WholeLine line) :
    Delivering { d with fifo := d.fifo ++ (line ++ [newline]) } ∧
      transit { d with fifo := d.fifo ++ (line ++ [newline]) } = d.transit ++ [line] := by
  have hunread := unread_write d hplaced (line ++ [newline])
  have hframe : frame newline d.unread.1 (d.unread.2 ++ (line ++ [newline])) =
      (d.transit ++ [line], []) := by
    rw [frame_append, h.whole, frame_line hline.oneLine]
    rfl
  have htransit : transit { d with fifo := d.fifo ++ (line ++ [newline]) } =
      d.transit ++ [line] := by
    rw [transit, hunread, hframe]
  refine ⟨⟨h.running, ?_, ?_, ?_, h.looping, h.saving⟩, htransit⟩
  · have hnewline : (0 : UInt8) ∉ [newline] := by decide
    simp only [List.mem_append, not_or]
    exact ⟨h.nulFree, hline.nulFree, hnewline⟩
  · rw [hunread, hframe]
  · intro other hother
    rw [htransit] at hother
    rcases List.mem_append.mp hother with hbefore | hlast
    · exact h.short other hbefore
    · rw [List.mem_singleton.mp hlast]
      exact hline.fits

/-- The workers leave the lines on their way alone. -/
theorem Delivering.of_worker (h : d.Delivering) {event : PoolEvent workersCount}
    (hstep : d.next (.worker event) = some e) :
    e.Delivering ∧ e.pool.accepted = d.pool.accepted ∧ e.transit = d.transit := by
  have hworker : event.ofWorker = true := by
    by_contra hother
    simp [next, hother] at hstep
  obtain ⟨pool, -, hpool, rfl, hrun, -⟩ := worker_cases hstep
  exact ⟨⟨hrun.trans h.running, h.nulFree, h.whole, h.short, h.looping, h.saving⟩,
    Pool.accepted_of_worker hworker hpool, rfl⟩

end Daemon

end EasyForetell
