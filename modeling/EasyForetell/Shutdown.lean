import EasyForetell.JobAccounting

/-!
# Shutting the daemon down (queral.c, the event loop and signal_handler)

`Daemon` adds to the pool where the main thread is between the event loop and the
end of `socket_cb`, its buffers and the bytes waiting in the FIFO. The handler
interrupts the main thread at any point outside its mutex sections: it clears
`should_run` and writes `QUIT` into the FIFO, so that the event loop calls
`socket_cb` once more.

The flag is tested before `read`, and `QUIT` lands among the jobs. A request that
arrives between the two is lost when the read takes everything there is.

## Main results

* `pool_of_daemon`: the daemon's mutex sections are a run of the pool
* `termination_kept_iff_reads_in_time`: a request is kept while no late read empties the FIFO
* `late_read_loses_request`: every late read that empties it can lose the request
-/

namespace EasyForetell

open Memory Theory

/-- Where the main thread is: waiting for an event, before the test of
`should_run`, between the test and the return of its value, before `read`, at the
head of the loop, before the section that queues a line, behind that section,
behind the loop, or out of the event loop. -/
inductive MainThread
  | waiting
  | testing
  | returning
  | reading
  | looping
  | enqueueing (found : ℕ)
  | restoring (found : ℕ)
  | saving
  | left
  deriving DecidableEq

/-- The daemon: its pool, the main thread with its buffers, and the FIFO. -/
structure Daemon (workersCount : ℕ) where
  pool : Pool workersCount
  main : MainThread
  buffers : SocketWorker
  fifo : List UInt8

/-- What happens next: the main thread goes on, a signal interrupts it, another
process or a worker writes to the FIFO, or a worker goes on. -/
inductive DaemonEvent (workersCount : ℕ)
  | main
  | signal
  | write (bytes : List UInt8)
  | worker (event : PoolEvent workersCount)

/-- The events of the pool that are steps of a worker. -/
def PoolEvent.ofWorker {workersCount : ℕ} : PoolEvent workersCount → Bool
  | .enqueue _ | .testRun | .terminate => false
  | .initialise .. | .enter _ | .wakeUp _ | .finish .. => true

/-- The worker whose step an event is. -/
def PoolEvent.worker? {workersCount : ℕ} : PoolEvent workersCount → Option (Fin workersCount)
  | .initialise worker _ | .enter worker | .wakeUp worker | .finish worker _ => some worker
  | .enqueue _ | .testRun | .terminate => none

/-- `write_fifo ("QUIT")`. -/
def quitCommand : List UInt8 := ascii "QUIT"

theorem PoolEvent.fits_of_ofWorker {workersCount : ℕ} {event : PoolEvent workersCount}
    (hworker : event.ofWorker = true) : event.Fits := by
  cases event with
  | enqueue line => cases hworker
  | _ => exact trivial

/-- A step of one worker moves no other. -/
theorem Pool.status_of_other {workersCount : ℕ} {s t : Pool workersCount}
    {event : PoolEvent workersCount} (hworker : event.ofWorker = true)
    (hstep : s.next event = some t) {i : Fin workersCount} (hother : event.worker? ≠ some i) : t.workers i = s.workers i := by
  cases event with
  | initialise worker connected | wakeUp worker | finish worker job =>
    simp only [Pool.next, Option.ite_none_right_eq_some, Option.some.injEq] at hstep
    obtain ⟨-, rfl⟩ := hstep
    exact s.workers_setStatus_of_ne (fun hsame => hother (congrArg some hsame.symm)) _ _
  | enter worker =>
    simp only [Pool.next, Option.ite_none_right_eq_some, Option.some.injEq] at hstep
    obtain ⟨-, rfl⟩ := hstep
    exact s.workers_enterSection_of_ne fun hsame => hother (congrArg some hsame.symm)
  | enqueue line | testRun | terminate => cases hworker

namespace Daemon

variable {workersCount : ℕ}

/-- The state when the event loop starts. -/
def fresh (pool : Pool workersCount) : Daemon workersCount := ⟨pool, .waiting, .fresh, []⟩

/-- One step of the main thread; `none` when it waits for an event or is done. -/
def mainStep (d : Daemon workersCount) : Option (Daemon workersCount) :=
  match d.main with
  | .waiting =>
    -- libev calls `socket_cb` while the FIFO is readable
    if d.fifo = [] then none else some { d with main := .testing }
  | .testing => (d.pool.next .testRun).map fun pool => { d with pool := pool, main := .returning }
  | .returning =>
    -- the value returned is read after the mutex is released
    if d.pool.shared.shouldRun then some { d with main := .reading }
    else some { d with main := if d.pool.broadcast then .left else .waiting }
  | .reading =>
    let chunk := d.fifo.take (bufferSize - 1)
    -- the FIFO is open for writing here too, so an empty one gives EAGAIN
    if chunk = [] then some { d with main := .waiting }
    else some { d with
      main := .looping, buffers := d.buffers.fill chunk, fifo := d.fifo.drop (bufferSize - 1) }
  | .looping =>
    match strchr d.buffers.readBuffer newline with
    | none => some { d with main := .saving }
    | some found =>
      match d.buffers.appendLine found with
      | none => some { d with main := .waiting, buffers := d.buffers.clearCache }
      | some buffers => some { d with main := .enqueueing found, buffers := buffers }
  | .enqueueing found =>
    (d.pool.next (.enqueue d.buffers.cacheBuffer)).map fun pool =>
      if (enqueueLine d.pool.shared d.buffers.cacheBuffer).2 = -1 then
        { d with pool := pool, main := .waiting, buffers := d.buffers.clearCache }
      else { d with pool := pool, main := .restoring found }
  | .restoring found =>
    some { d with main := .looping, buffers := d.buffers.restoreBuffers found }
  | .saving => some { d with main := .waiting, buffers := d.buffers.saveTail }
  | .left => none

/-- `signal_handler` for SIGTERM and SIGINT. After shutdown the FIFO is unlinked
and `write_fifo` fails. -/
def signalHandler (d : Daemon workersCount) : Daemon workersCount :=
  { d with
    pool := { d.pool with shared := { d.pool.shared with shouldRun := false } }
    fifo := if d.pool.broadcast then d.fifo else d.fifo ++ quitCommand }

/-- One step of the daemon. A signal comes between the steps of the main thread, and so outside
its mutex sections; a busy worker can always end its job. -/
def next (d : Daemon workersCount) : DaemonEvent workersCount → Option (Daemon workersCount)
  | .main => d.mainStep
  | .signal => some d.signalHandler
  | .write bytes => some { d with fifo := d.fifo ++ bytes }
  | .worker event =>
    if event.ofWorker then (d.pool.next event).map fun pool => { d with pool := pool } else none

end Daemon

/-- The interleavings of the main thread, the signals, the writers and the
workers. -/
def daemonSystem (workersCount : ℕ) (malloc : ℕ → Block) (capacity : ℕ) :
    TransitionSystem (Daemon workersCount) (DaemonEvent workersCount) where
  init d := ∃ job, d = .fresh (.fresh workersCount malloc capacity job)
  step d event e := d.next event = some e

namespace Daemon

variable {workersCount : ℕ} {malloc : ℕ → Block} {capacity : ℕ} {d e : Daemon workersCount}

/-! ### What a step can do -/

/-- The steps of the main thread, branch by branch. -/
inductive MainStep (d : Daemon workersCount) : Daemon workersCount → Prop
  | call (hmain : d.main = .waiting) (hready : d.fifo ≠ []) :
      MainStep d { d with main := .testing }
  | test (hmain : d.main = .testing) {pool : Pool workersCount}
      (hpool : d.pool.next .testRun = some pool) :
      MainStep d { d with pool := pool, main := .returning }
  | goOn (hmain : d.main = .returning) (hrun : d.pool.shared.shouldRun = true) :
      MainStep d { d with main := .reading }
  | stop (hmain : d.main = .returning) (hstop : d.pool.shared.shouldRun = false) :
      MainStep d { d with main := if d.pool.broadcast then .left else .waiting }
  | starve (hmain : d.main = .reading) (hempty : d.fifo = []) :
      MainStep d { d with main := .waiting }
  | read (hmain : d.main = .reading) (hready : d.fifo ≠ []) :
      MainStep d { d with
        main := .looping
        buffers := d.buffers.fill (d.fifo.take (bufferSize - 1))
        fifo := d.fifo.drop (bufferSize - 1) }
  | finishLoop (hmain : d.main = .looping) (hfound : strchr d.buffers.readBuffer newline = none) :
      MainStep d { d with main := .saving }
  | overflow (hmain : d.main = .looping) {found : ℕ}
      (hfound : strchr d.buffers.readBuffer newline = some found)
      (happend : d.buffers.appendLine found = none) :
      MainStep d { d with main := .waiting, buffers := d.buffers.clearCache }
  | append (hmain : d.main = .looping) {found : ℕ}
      (hfound : strchr d.buffers.readBuffer newline = some found) {buffers : SocketWorker}
      (happend : d.buffers.appendLine found = some buffers) :
      MainStep d { d with main := .enqueueing found, buffers := buffers }
  | refuse {found : ℕ} (hmain : d.main = .enqueueing found) {pool : Pool workersCount}
      (hpool : d.pool.next (.enqueue d.buffers.cacheBuffer) = some pool) :
      MainStep d { d with pool := pool, main := .waiting, buffers := d.buffers.clearCache }
  | accept {found : ℕ} (hmain : d.main = .enqueueing found) {pool : Pool workersCount}
      (hpool : d.pool.next (.enqueue d.buffers.cacheBuffer) = some pool) :
      MainStep d { d with pool := pool, main := .restoring found }
  | restore {found : ℕ} (hmain : d.main = .restoring found) :
      MainStep d { d with main := .looping, buffers := d.buffers.restoreBuffers found }
  | save (hmain : d.main = .saving) :
      MainStep d { d with main := .waiting, buffers := d.buffers.saveTail }

theorem MainStep.of_mainStep (hstep : d.mainStep = some e) : d.MainStep e := by
  unfold mainStep at hstep
  -- one case for each place of the main thread, in the order of `MainThread`
  split at hstep
  case h_1 hmain =>
    split_ifs at hstep with hempty
    obtain rfl := Option.some.inj hstep
    exact .call hmain hempty
  case h_2 hmain =>
    obtain ⟨pool, hpool, rfl⟩ := Option.map_eq_some_iff.mp hstep
    exact .test hmain hpool
  case h_3 hmain =>
    split_ifs at hstep with hrun hbroadcast
    · obtain rfl := Option.some.inj hstep
      exact .goOn hmain hrun
    · obtain rfl := Option.some.inj hstep
      simpa [hbroadcast] using MainStep.stop hmain (by simpa using hrun)
    · obtain rfl := Option.some.inj hstep
      simpa [hbroadcast] using MainStep.stop hmain (by simpa using hrun)
  case h_4 hmain =>
    dsimp only at hstep
    split_ifs at hstep with hempty
    · obtain rfl := Option.some.inj hstep
      exact .starve hmain (by simpa [bufferSize] using hempty)
    · obtain rfl := Option.some.inj hstep
      exact .read hmain (by simpa [bufferSize] using hempty)
  case h_5 hmain =>
    split at hstep
    case h_1 hfound =>
      obtain rfl := Option.some.inj hstep
      exact .finishLoop hmain hfound
    case h_2 found hfound =>
      split at hstep
      case h_1 happend =>
        obtain rfl := Option.some.inj hstep
        exact .overflow hmain hfound happend
      case h_2 buffers happend =>
        obtain rfl := Option.some.inj hstep
        exact .append hmain hfound happend
  case h_6 found hmain =>
    obtain ⟨pool, hpool, rfl⟩ := Option.map_eq_some_iff.mp hstep
    split_ifs
    · exact .refuse hmain hpool
    · exact .accept hmain hpool
  case h_7 found hmain =>
    obtain rfl := Option.some.inj hstep
    exact .restore hmain
  case h_8 hmain =>
    obtain rfl := Option.some.inj hstep
    exact .save hmain
  case h_9 => cases hstep

/-- A step of a worker leaves the main thread, the FIFO and both flags alone. -/
theorem worker_cases {event : PoolEvent workersCount} (hstep : d.next (.worker event) = some e) :
    ∃ pool, event.Fits ∧ d.pool.next event = some pool ∧ e = { d with pool := pool } ∧
      pool.shared.shouldRun = d.pool.shared.shouldRun ∧ pool.broadcast = d.pool.broadcast := by
  simp only [next] at hstep
  split_ifs at hstep with hworker
  obtain ⟨pool, hpool, rfl⟩ := Option.map_eq_some_iff.mp hstep
  obtain ⟨hrun, hbroadcast⟩ := Pool.next_frame hpool
  refine ⟨pool, PoolEvent.fits_of_ofWorker hworker, hpool, rfl, hrun ?_, hbroadcast ?_⟩
  · rintro rfl
    cases hworker
  · rintro rfl
    cases hworker

/-! ### The daemon runs its pool -/

/-- A line about to be queued fits in a slot, and the main thread is out of the
event loop, or about to be, once shutdown was broadcast. -/
structure Ordered (d : Daemon workersCount) : Prop where
  fits : ∀ found, d.main = .enqueueing found → FitsSlot d.buffers.cacheBuffer
  broadcast : d.pool.broadcast = true →
    d.pool.shared.shouldRun = false ∧ (d.main = .returning ∨ d.main = .left)

/-- Away from the end of `should_socket_worker_run` nothing was broadcast. -/
theorem Ordered.not_broadcast (h : d.Ordered) (hreturning : d.main ≠ .returning)
    (hleft : d.main ≠ .left) : d.pool.broadcast = false := by
  by_contra hbroadcast
  rcases (h.broadcast (by simpa using hbroadcast)).2 with hmain | hmain
  · exact hreturning hmain
  · exact hleft hmain

theorem Ordered.of_mainStep (h : d.Ordered) (hstep : d.MainStep e) : e.Ordered := by
  cases hstep with
  | test hmain hpool =>
    -- the test broadcasts only after it found the flag cleared
    refine ⟨by simp, fun hbroadcast => ⟨?_, Or.inl rfl⟩⟩
    rw [Pool.broadcast_of_testRun hpool] at hbroadcast
    simpa using hbroadcast
  | goOn hmain hrun =>
    refine ⟨by simp, fun hbroadcast => ?_⟩
    rw [(h.broadcast hbroadcast).1] at hrun
    cases hrun
  | stop hmain hstop =>
    refine ⟨?_, fun hbroadcast => ⟨hstop, Or.inr ?_⟩⟩
    · split_ifs <;> simp
    · rw [if_pos hbroadcast]
  | append hmain hfound happend =>
    -- the length test has just passed
    have hquiet := h.not_broadcast (by simp [hmain]) (by simp [hmain])
    exact ⟨fun _ _ => SocketWorker.fitsSlot_of_appendLine hfound happend, by simp [hquiet]⟩
  | refuse hmain hpool | accept hmain hpool =>
    have hquiet := h.not_broadcast (by simp [hmain]) (by simp [hmain])
    have hkept := (Pool.next_frame hpool).2 (by simp)
    exact ⟨by simp, by simp [hkept, hquiet]⟩
  | call hmain | starve hmain | read hmain | finishLoop hmain | overflow hmain
  | restore hmain | save hmain =>
    have hquiet := h.not_broadcast (by simp [hmain]) (by simp [hmain])
    exact ⟨by simp, by simp [hquiet]⟩

/-- The flag is cleared, and the FIFO holds whatever it holds. -/
theorem Ordered.of_stopped (h : d.Ordered) (fifo : List UInt8) :
    Ordered { d with
      pool := { d.pool with shared := { d.pool.shared with shouldRun := false } }
      fifo := fifo } :=
  ⟨h.fits, fun hbroadcast => ⟨rfl, (h.broadcast hbroadcast).2⟩⟩

theorem Ordered.of_next (h : d.Ordered) {event : DaemonEvent workersCount}
    (hstep : d.next event = some e) : e.Ordered := by
  cases event with
  | main => exact h.of_mainStep (.of_mainStep hstep)
  | signal =>
    obtain rfl := Option.some.inj hstep
    exact h.of_stopped _
  | write bytes =>
    obtain rfl := Option.some.inj hstep
    exact ⟨h.fits, h.broadcast⟩
  | worker event =>
    obtain ⟨pool, -, -, rfl, hrun, hbroadcast⟩ := worker_cases hstep
    refine ⟨h.fits, fun hdone => ?_⟩
    rw [hrun]
    exact h.broadcast (hbroadcast ▸ hdone)

theorem ordered_fresh (pool : Pool workersCount) (hquiet : pool.broadcast = false) :
    (fresh pool).Ordered :=
  ⟨fun _ hmain => (by cases hmain), fun hbroadcast => absurd hbroadcast (by simp [fresh, hquiet])⟩

theorem ordered_of_reachable (hreach : (daemonSystem workersCount malloc capacity).Reachable d) :
    d.Ordered := by
  refine hreach.invariant ?_ ?_
  · rintro _ ⟨job, rfl⟩
    exact ordered_fresh _ rfl
  · intro d event e _ h hstep
    exact h.of_next hstep

/-- A step of the daemon is a step of its pool, or none of the pool's business. -/
theorem Ordered.pool_next (h : d.Ordered) {event : DaemonEvent workersCount}
    (hstep : d.next event = some e) :
    e.pool = d.pool ∨
      ∃ event' : PoolEvent workersCount, event'.Fits ∧ d.pool.next event' = some e.pool := by
  cases event with
  | main =>
    cases MainStep.of_mainStep hstep with
    | test hmain hpool => exact Or.inr ⟨.testRun, trivial, hpool⟩
    | refuse hmain hpool | accept hmain hpool =>
      exact Or.inr ⟨.enqueue _, h.fits _ hmain, hpool⟩
    -- every other step of the main thread is on its own buffers
    | _ => exact Or.inl rfl
  | signal =>
    obtain rfl := Option.some.inj hstep
    exact Or.inr ⟨.terminate, trivial, rfl⟩
  | write bytes =>
    obtain rfl := Option.some.inj hstep
    exact Or.inl rfl
  | worker event =>
    obtain ⟨pool, hfits, hpool, rfl, -, -⟩ := worker_cases hstep
    exact Or.inr ⟨event, hfits, hpool⟩

/-- The mutex sections of the daemon are a run of the pool. -/
theorem simulation_pool (workersCount : ℕ) (malloc : ℕ → Block) (capacity : ℕ) :
    (daemonSystem workersCount malloc capacity).Simulation
      (poolSystem workersCount malloc capacity) Daemon.pool where
  init := by
    rintro _ ⟨job, rfl⟩
    exact ⟨job, rfl⟩
  step := fun _ _ _ hreach hstep => (ordered_of_reachable hreach).pool_next hstep

theorem pool_of_daemon (hreach : (daemonSystem workersCount malloc capacity).Reachable d) :
    (poolSystem workersCount malloc capacity).Reachable d.pool :=
  (simulation_pool workersCount malloc capacity).reachable hreach

/-! ### When a request is kept -/

/-- A read made after `should_run` was cleared leaves bytes in the FIFO. -/
def ReadsInTime (d : Daemon workersCount) (event : DaemonEvent workersCount) : Prop :=
  event = .main → d.main = .reading → d.pool.shared.shouldRun = false →
    bufferSize - 1 < d.fifo.length

/-- With `should_run` cleared, shutdown was broadcast or the FIFO wakes the main
thread up once more. -/
def RequestKept (d : Daemon workersCount) : Prop :=
  d.pool.shared.shouldRun = false → d.pool.broadcast = true ∨ d.fifo ≠ []

theorem RequestKept.of_mainStep (h : d.RequestKept) (hstep : d.MainStep e)
    (htime : d.main = .reading → d.pool.shared.shouldRun = false →
      bufferSize - 1 < d.fifo.length) : e.RequestKept := by
  intro hstop
  cases hstep with
  | test hmain hpool => exact Or.inl (by rw [Pool.broadcast_of_testRun hpool, hstop]; rfl)
  -- the one step that takes bytes out of the FIFO
  | read hmain hready =>
    have hmore := htime hmain hstop
    refine Or.inr fun hempty => ?_
    have := List.drop_eq_nil_iff.mp hempty
    omega
  | refuse hmain hpool | accept hmain hpool =>
    obtain ⟨hrun, hbroadcast⟩ := Pool.next_frame hpool
    rw [hrun (by simp)] at hstop
    rw [hbroadcast (by simp)]
    exact h hstop
  | _ => exact h hstop

theorem RequestKept.next (h : d.RequestKept) {event : DaemonEvent workersCount}
    (htime : d.ReadsInTime event) (hstep : d.next event = some e) : e.RequestKept := by
  cases event with
  | main => exact h.of_mainStep (.of_mainStep hstep) (htime rfl)
  | signal =>
    -- `QUIT` is in the FIFO, unless shutdown was broadcast before
    obtain rfl := Option.some.inj hstep
    intro _
    cases hbroadcast : d.pool.broadcast with
    | true => exact Or.inl hbroadcast
    | false => exact Or.inr (by simp [signalHandler, hbroadcast, quitCommand, ascii])
  | write bytes =>
    obtain rfl := Option.some.inj hstep
    intro hstop
    exact (h hstop).imp_right fun hready => by simp [hready]
  | worker event =>
    obtain ⟨pool, -, -, rfl, hrun, hbroadcast⟩ := worker_cases hstep
    intro hstop
    rw [show pool.broadcast = _ from hbroadcast]
    exact h (hrun ▸ hstop)

theorem requestKept_of_reachable
    (hreach : ((daemonSystem workersCount malloc capacity).restrict ReadsInTime).Reachable d) :
    d.RequestKept := by
  refine hreach.invariant ?_ ?_
  · rintro _ ⟨job, rfl⟩ hstop
    cases hstop
  · rintro d event e - h ⟨hstep, htime⟩
    exact h.next htime hstep

/-! ### When a request is lost -/

/-- The main thread goes on alone. -/
def MainRun : Daemon workersCount → Daemon workersCount → Prop :=
  Relation.ReflTransGen fun d e => d.mainStep = some e

/-- A main thread in the loop comes back to the event loop by itself, with the
FIFO and both flags as they were. -/
theorem exists_mainRun_waiting (hmain : d.main = .looping) (hquiet : d.pool.broadcast = false) :
    ∃ e, d.MainRun e ∧ e.main = .waiting ∧ e.fifo = d.fifo ∧
      e.pool.shared.shouldRun = d.pool.shared.shouldRun ∧ e.pool.broadcast = false := by
  -- on the length of what is left in `read_buffer`, which every pass shortens
  induction hlength : strlen d.buffers.readBuffer using Nat.strongRecOn generalizing d with
  | ind length ih =>
    cases hfound : strchr d.buffers.readBuffer newline with
    | none =>
      refine ⟨{ d with main := .waiting, buffers := d.buffers.saveTail }, ?_, rfl, rfl, rfl, hquiet⟩
      have hdone : d.mainStep = some { d with main := .saving } := by simp [mainStep, hmain, hfound]
      exact .head hdone (.single rfl)
    | some found =>
      cases happend : d.buffers.appendLine found with
      | none =>
        -- a line that is too long ends the call
        refine ⟨{ d with main := .waiting, buffers := d.buffers.clearCache }, ?_, rfl, rfl, rfl,
          hquiet⟩
        exact .single (by simp [mainStep, hmain, hfound, happend])
      | some buffers =>
        have hline : d.mainStep =
            some { d with main := .enqueueing found, buffers := buffers } := by
          simp [mainStep, hmain, hfound, happend]
        obtain ⟨pool, hpool⟩ := Pool.exists_next_enqueue hquiet buffers.cacheBuffer
        obtain ⟨hrun, hbroadcast⟩ := Pool.next_frame hpool
        rw [hquiet] at hbroadcast
        by_cases hres : (enqueueLine d.pool.shared buffers.cacheBuffer).2 = -1
        · -- so does a full queue
          refine ⟨{ d with pool := pool, main := .waiting, buffers := buffers.clearCache }, ?_, rfl,
            rfl, hrun (by simp), hbroadcast (by simp)⟩
          exact .head hline (.single (by simp [mainStep, hpool, hres]))
        · -- the next pass has less left in `read_buffer`
          let f : Daemon workersCount :=
            { d with pool := pool, main := .looping, buffers := buffers.restoreBuffers found }
          have hshorter : strlen f.buffers.readBuffer < length := by
            have hread := SocketWorker.readBuffer_of_appendLine happend
            rw [← hlength, ← hread]
            exact SocketWorker.strlen_restoreBuffers_lt (hread ▸ hfound)
          obtain ⟨e, hrest, hwaits, hfifo, hstop, hstill⟩ :=
            ih _ hshorter (d := f) rfl (hbroadcast (by simp)) rfl
          have hqueue : ({ d with main := .enqueueing found, buffers := buffers } :
              Daemon workersCount).mainStep =
                some { d with pool := pool, main := .restoring found, buffers := buffers } := by
            simp [mainStep, hpool, hres]
          have hrestore : ({ d with pool := pool, main := .restoring found, buffers := buffers } :
              Daemon workersCount).mainStep = some f := rfl
          exact ⟨e, .head hline (.head hqueue (.head hrestore hrest)), hwaits, hfifo,
            hstop.trans (hrun (by simp)), hstill⟩

/-- A read that empties the FIFO after `should_run` was cleared loses the request:
the main thread comes back to the event loop with nothing to wake it. -/
theorem late_read_loses_request
    (hreach : (daemonSystem workersCount malloc capacity).Reachable d)
    (hmain : d.main = .reading) (hstop : d.pool.shared.shouldRun = false)
    (hlate : d.fifo.length ≤ bufferSize - 1) :
    ∃ e, d.MainRun e ∧ e.main = .waiting ∧ e.pool.shared.shouldRun = false ∧
      e.pool.broadcast = false ∧ e.fifo = [] := by
  have hquiet := (ordered_of_reachable hreach).not_broadcast (by simp [hmain]) (by simp [hmain])
  have hdrained : d.fifo.drop (bufferSize - 1) = [] := List.drop_eq_nil_iff.mpr hlate
  -- `QUIT` itself may be gone already, or this read takes it
  by_cases hempty : d.fifo = []
  · refine ⟨{ d with main := .waiting }, .single ?_, rfl, hstop, hquiet, hempty⟩
    simp [mainStep, hmain, hempty]
  · have hread : d.mainStep = some { d with
        main := .looping
        buffers := d.buffers.fill (d.fifo.take (bufferSize - 1))
        fifo := [] } := by
      have hsome : d.fifo.take (bufferSize - 1) ≠ [] := by simpa [bufferSize] using hempty
      simp only [mainStep, hmain, if_neg hsome, hdrained]
    obtain ⟨e, hrest, hwaits, hfifo, hrun, hstill⟩ :=
      exists_mainRun_waiting (d := { d with
        main := .looping
        buffers := d.buffers.fill (d.fifo.take (bufferSize - 1))
        fifo := [] }) rfl hquiet
    exact ⟨e, .head hread hrest, hwaits, hrun.trans hstop, hstill, hfifo⟩

end Daemon

/-- In a run whose reads after the request all leave bytes in the FIFO, a main
thread that waits for an event with `should_run` cleared has broadcast shutdown or
will be called again; and where the daemon can make another read, the main thread
alone takes it to a state in which the request is lost. -/
theorem termination_kept_iff_reads_in_time (workersCount : ℕ) (malloc : ℕ → Block)
    (capacity : ℕ) :
    (∀ d, ((daemonSystem workersCount malloc capacity).restrict Daemon.ReadsInTime).Reachable d →
      d.main = .waiting → d.pool.shared.shouldRun = false →
        d.pool.broadcast = true ∨ d.fifo ≠ []) ∧
      ∀ d event, (daemonSystem workersCount malloc capacity).Reachable d → ¬ d.ReadsInTime event →
        ∃ e, d.MainRun e ∧ e.main = .waiting ∧ e.pool.shared.shouldRun = false ∧
          ¬ (e.pool.broadcast = true ∨ e.fifo ≠ []) := by
  constructor
  · intro d hreach _ hstop
    exact Daemon.requestKept_of_reachable hreach hstop
  · intro d event hreach hlate
    simp only [Daemon.ReadsInTime, Classical.not_imp, not_lt] at hlate
    obtain ⟨-, hmain, hstop, hshort⟩ := hlate
    obtain ⟨e, hrun, hwaits, hstill, hquiet, hempty⟩ :=
      Daemon.late_read_loses_request hreach hmain hstop hshort
    exact ⟨e, hrun, hwaits, hstill, by simp [hquiet, hempty]⟩

/-- A signal between the test of `should_run` and `read`: the read takes `QUIT`
with the byte that woke the main thread, and the daemon waits on. -/
theorem termination_lost_between_test_and_read :
    let events : List (DaemonEvent 1) :=
      [.write [120], .main, .main, .main, .signal, .main, .main, .main]
    let start := Daemon.fresh (Pool.fresh 1 (fun _ => List.replicate bufferSize 0) queueCapacity
      fun _ => [0])
    ∃ d, events.foldlM Daemon.next start = some d ∧
      (daemonSystem 1 (fun _ => List.replicate bufferSize 0) queueCapacity).Reachable d ∧
      d.main = .waiting ∧ d.pool.shared.shouldRun = false ∧
      ¬ (d.pool.broadcast = true ∨ d.fifo ≠ []) := by
  intro events start
  refine ⟨_, rfl, ?_, rfl, rfl, by decide⟩
  have hstep : ∀ (d : Daemon 1) event e, True → d.next event = some e →
      (daemonSystem 1 (fun _ => List.replicate bufferSize 0) queueCapacity).step d event e :=
    fun _ _ _ _ htaken => htaken
  exact .of_foldlM hstep (.start ⟨fun _ => [0], rfl⟩) events (fun _ _ => trivial) rfl

end EasyForetell
