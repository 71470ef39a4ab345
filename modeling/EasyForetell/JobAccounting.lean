import EasyForetell.SocketCallback
import EasyForetell.Theory.Counting
import EasyForetell.Theory.Transition
import Mathlib.Tactic.Ring

/-!
# Job accounting (queral.c, worker_thread and the event loop)

The main thread queues lines and, once `should_run` is cleared, adds one to
`url_count` for every worker. A worker waits until `url_count` is positive, takes
a job or leaves, and subtracts one. Each section that holds the mutex is one step
here, and the steps of all threads interleave freely.

The two counters are kept in step by hand, so the invariant `Pool.Accounted` ties
`url_count` to the number of queued lines, of workers that left and of the
workers shutdown has counted.

## Main results

* `accounted_of_reachable`: the invariant holds in every reachable state
* `job_accounting`: the two counters, the jobs handed out and the waiting workers
-/

namespace EasyForetell

open Memory Theory

/-! ### The pool -/

/-- Where a worker is: still in its initialisation, ended there, about to lock
the mutex, in `pthread_cond_wait`, busy with a job, or out of its loop. -/
inductive WorkerStatus
  | starting
  | failed
  | contending
  | blocked
  | busy
  | exited
  deriving DecidableEq

/-- A worker and its `job` buffer. -/
structure WorkerThread where
  status : WorkerStatus
  job : Block

/-- `pthread_cond_broadcast`, seen by one worker. -/
def WorkerThread.wake (worker : WorkerThread) : WorkerThread :=
  if worker.status = .blocked then { worker with status := .contending } else worker

/-- What the mutex section of a worker leaves: the shared variables, its `job`
and where it goes on. -/
structure SectionResult where
  shared : Shared
  job : Block
  status : WorkerStatus

/-- The mutex section of `worker_thread`, from the test of `url_count` on. -/
def workerSection (s : Shared) (job : Block) : SectionResult :=
  if s.urlCount < 1 then ⟨s, job, .blocked⟩
  else if s.shouldRun then
    let result := fifoDequeue s.queue job
    ⟨{ s with queue := result.1, urlCount := s.urlCount - 1 }, result.2, .busy⟩
  else ⟨{ s with urlCount := s.urlCount - 1 }, job, .exited⟩

section Section

variable {s : Shared}

theorem workerSection_of_empty (hempty : s.urlCount < 1) (job : Block) :
    workerSection s job = ⟨s, job, .blocked⟩ := by
  rw [workerSection, if_pos hempty]

theorem workerSection_of_run (hpositive : ¬ s.urlCount < 1) (hrun : s.shouldRun = true)
    (job : Block) :
    workerSection s job =
      ⟨{ s with queue := (fifoDequeue s.queue job).1, urlCount := s.urlCount - 1 },
        (fifoDequeue s.queue job).2, .busy⟩ := by
  rw [workerSection, if_neg hpositive, if_pos hrun]

theorem workerSection_of_stop (hpositive : ¬ s.urlCount < 1) (hstop : s.shouldRun = false)
    (job : Block) :
    workerSection s job = ⟨{ s with urlCount := s.urlCount - 1 }, job, .exited⟩ := by
  rw [workerSection, if_neg hpositive, if_neg (by simp [hstop])]

end Section

/-- The daemon as its mutex sections see it. `broadcast` is set once shutdown was
signalled to the workers, and then the event loop is over. The histories record
the lines `fifo_enqueue` accepted and the strings the workers found in their
`job`, in the order of their sections. -/
structure Pool (workersCount : ℕ) where
  shared : Shared
  broadcast : Bool
  workers : Fin workersCount → WorkerThread
  accepted : List (List UInt8)
  handed : List (Fin workersCount × List UInt8)

/-- The state when the event loop starts, with the workers still initialising. -/
def Pool.fresh (workersCount : ℕ) (malloc : ℕ → Block) (capacity : ℕ)
    (job : Fin workersCount → Block) : Pool workersCount where
  shared := ⟨fifoInit malloc capacity, 0, true⟩
  broadcast := false
  workers i := ⟨.starting, job i⟩
  accepted := []
  handed := []

/-- What the threads do between two states: the main thread queues a line or runs
`should_socket_worker_run`, the handler clears `should_run`, a worker ends its
initialisation, enters its mutex section, wakes up without a broadcast, or ends
its job with anything left in its buffer. -/
inductive PoolEvent (workersCount : ℕ)
  | enqueue (line : Block)
  | testRun
  | terminate
  | initialise (worker : Fin workersCount) (connected : Bool)
  | enter (worker : Fin workersCount)
  | wakeUp (worker : Fin workersCount)
  | finish (worker : Fin workersCount) (job : Block)

/-- A queued line comes from `cache_buffer`. -/
def PoolEvent.Fits {workersCount : ℕ} : PoolEvent workersCount → Prop
  | .enqueue line => FitsSlot line
  | _ => True

instance {workersCount : ℕ} : DecidablePred (@PoolEvent.Fits workersCount) :=
  fun event => match event with
    | .enqueue line => inferInstanceAs (Decidable (FitsSlot line))
    | .testRun | .terminate | .initialise .. | .enter _ | .wakeUp _ | .finish .. => .isTrue trivial

namespace Pool

variable {workersCount : ℕ}

/-- `pthread_cond_broadcast`. -/
def wakeAll (workers : Fin workersCount → WorkerThread) : Fin workersCount → WorkerThread :=
  fun i => (workers i).wake

/-- One worker moves on to another status. -/
def setStatus (s : Pool workersCount) (worker : Fin workersCount) (status : WorkerStatus)
    (job : Block) : Pool workersCount :=
  { s with workers := Function.update s.workers worker ⟨status, job⟩ }

/-- The mutex section of a worker, with the string it found in `job` recorded
when it leaves the section with a job. -/
def enterSection (s : Pool workersCount) (worker : Fin workersCount) : Pool workersCount :=
  let result := workerSection s.shared (s.workers worker).job
  { s.setStatus worker result.status result.job with
    shared := result.shared
    handed := if result.status = .busy then s.handed ++ [(worker, cstr result.job)] else s.handed }

/-- One step of one thread; `none` when the thread is not at that step. -/
def next (s : Pool workersCount) : PoolEvent workersCount → Option (Pool workersCount)
  | .enqueue line =>
    if s.broadcast then none
    else
      let result := enqueueLine s.shared line
      if result.2 = -1 then some { s with shared := result.1 }
      else some { s with
        shared := result.1, workers := wakeAll s.workers, accepted := s.accepted ++ [cstr line] }
  | .testRun =>
    if s.broadcast then none
    else
      let result := shouldSocketWorkerRun workersCount s.shared
      if result.2 then some { s with shared := result.1 }
      else some { s with shared := result.1, broadcast := true, workers := wakeAll s.workers }
  | .terminate => some { s with shared := { s.shared with shouldRun := false } }
  | .initialise worker connected =>
    if (s.workers worker).status = .starting then
      some (s.setStatus worker (if connected then .contending else .failed) (s.workers worker).job)
    else none
  | .enter worker =>
    if (s.workers worker).status = .contending then some (s.enterSection worker) else none
  | .wakeUp worker =>
    if (s.workers worker).status = .blocked then
      some (s.setStatus worker .contending (s.workers worker).job)
    else none
  | .finish worker job =>
    if (s.workers worker).status = .busy then some (s.setStatus worker .contending job) else none

/-- The workers that left through the `should_run` test. -/
def exited (s : Pool workersCount) : ℕ := countWhere (fun w => w.status = .exited) s.workers

end Pool

/-- The workers that are not out of their loop. -/
def Pool.present {workersCount : ℕ} (s : Pool workersCount) : ℕ :=
  countWhere (fun w => ¬ w.status = .exited) s.workers

theorem Pool.exited_add_present {workersCount : ℕ} (s : Pool workersCount) :
    s.exited + s.present = workersCount :=
  (countWhere_add_not s.workers).trans (Fintype.card_fin workersCount)

/-- The interleavings of the threads. -/
def poolSystem (workersCount : ℕ) (malloc : ℕ → Block) (capacity : ℕ) :
    TransitionSystem (Pool workersCount) (PoolEvent workersCount) where
  init s := ∃ job, s = Pool.fresh workersCount malloc capacity job
  step s event t := event.Fits ∧ s.next event = some t

/-! ### The invariant -/

namespace Pool

variable {workersCount : ℕ} {s t : Pool workersCount} {worker : Fin workersCount}

/-- The two counters in step, the lines handed out and still queued, and what the
waiting, busy and departed workers say about them. -/
structure Accounted (s : Pool workersCount) : Prop where
  lines : ∃ items, s.shared.queue.Holds items ∧ s.accepted = s.handed.map Prod.snd ++ items
  count : s.shared.urlCount =
    s.shared.queue.occupied - s.exited + (if s.broadcast then (workersCount : ℤ) else 0)
  nonneg : 0 ≤ s.shared.urlCount
  blocked : ∀ i, (s.workers i).status = .blocked → s.shared.urlCount < 1
  running : s.shared.shouldRun = true → s.broadcast = false ∧ s.exited = 0
  busy : ∀ i, (s.workers i).status = .busy →
    (s.handed.filter fun job => job.1 = i).getLast? = some (i, cstr (s.workers i).job)

@[simp] theorem exited_fresh (malloc : ℕ → Block) (capacity : ℕ) (job : Fin workersCount → Block) :
    (fresh workersCount malloc capacity job).exited = 0 :=
  countWhere_eq_zero_iff.mpr fun _ => by simp [fresh]

theorem accounted_fresh {malloc : ℕ → Block} (hmalloc : ∀ i, (malloc i).length = bufferSize)
    {capacity : ℕ} (hcapacity : 1 ≤ capacity) (job : Fin workersCount → Block) :
    (fresh workersCount malloc capacity job).Accounted where
  lines := ⟨[], fifoInit_holds hmalloc hcapacity, rfl⟩
  count := by
    rw [exited_fresh]
    rfl
  nonneg := Int.le_refl 0
  blocked i hblocked := by simp [fresh] at hblocked
  running _ := ⟨rfl, exited_fresh malloc capacity job⟩
  busy i hbusy := by simp [fresh] at hbusy

/-! ### Broadcasts -/

theorem status_wakeAll_ne (workers : Fin workersCount → WorkerThread) (i : Fin workersCount) :
    (wakeAll workers i).status ≠ .blocked := by
  unfold wakeAll WorkerThread.wake
  split_ifs with hblocked
  · simp
  · exact hblocked

/-- A broadcast changes the status of the waiting workers only. -/
theorem status_wakeAll_iff (workers : Fin workersCount → WorkerThread) (i : Fin workersCount)
    {status : WorkerStatus} (hblocked : status ≠ .blocked) (hcontending : status ≠ .contending) :
    (wakeAll workers i).status = status ↔ (workers i).status = status := by
  unfold wakeAll WorkerThread.wake
  split_ifs with hwaits
  · rw [hwaits]
    exact iff_of_false (Ne.symm hcontending) (Ne.symm hblocked)
  · rfl

theorem job_wakeAll (workers : Fin workersCount → WorkerThread) (i : Fin workersCount) :
    (wakeAll workers i).job = (workers i).job := by
  unfold wakeAll WorkerThread.wake
  split_ifs <;> rfl

theorem exited_wakeAll (workers : Fin workersCount → WorkerThread) :
    countWhere (fun w => w.status = .exited) (wakeAll workers) =
      countWhere (fun w => w.status = .exited) workers :=
  countWhere_congr fun i => status_wakeAll_iff workers i (by decide) (by decide)

theorem Accounted.busy_wakeAll (h : s.Accounted) (i : Fin workersCount)
    (hbusy : (wakeAll s.workers i).status = .busy) :
    (s.handed.filter fun job => job.1 = i).getLast? = some (i, cstr (wakeAll s.workers i).job) := by
  rw [status_wakeAll_iff _ _ (by decide) (by decide)] at hbusy
  rw [job_wakeAll]
  exact h.busy i hbusy

/-! ### The sections of the main thread -/

/-- Queuing a line adds one to both counters and to the accepted lines. -/
theorem Accounted.enqueue (h : s.Accounted) {line : Block} (hfits : FitsSlot line)
    (hstep : s.next (.enqueue line) = some t) : t.Accounted := by
  simp only [next] at hstep
  split_ifs at hstep with hbroadcast hres
  · -- the queue is full: nothing changes
    have hfull : ¬ s.shared.queue.occupied < s.shared.queue.capacity := by
      intro hroom
      rw [enqueueLine_of_room hroom] at hres
      simp at hres
    rw [enqueueLine_of_full hfull] at hstep
    obtain rfl := Option.some.inj hstep
    exact h
  · -- both counters grow by one, and the broadcast leaves nobody waiting
    have hroom : s.shared.queue.occupied < s.shared.queue.capacity := by
      by_contra hfull
      rw [enqueueLine_of_full hfull] at hres
      exact hres rfl
    obtain ⟨items, hholds, haccepted⟩ := h.lines
    have hoccupied := occupied_enqueueLine hroom line
    rw [enqueueLine_of_room hroom] at hstep hoccupied
    obtain rfl := Option.some.inj hstep
    have hcount := h.count
    have hnonneg := h.nonneg
    refine ⟨⟨items ++ [cstr line], hholds.fifoEnqueue hroom hfits, ?_⟩, ?_, ?_, ?_, ?_, ?_⟩
    · rw [haccepted, List.append_assoc]
    · simp only [exited, exited_wakeAll] at hoccupied hcount ⊢
      rw [hoccupied, hcount]
      push_cast
      ring
    · exact Int.add_nonneg hnonneg (by decide)
    · intro i hblocked
      exact absurd hblocked (status_wakeAll_ne _ _)
    · intro hrun
      obtain ⟨-, hexited⟩ := h.running hrun
      exact ⟨by simpa using hbroadcast, by rw [← hexited]; exact exited_wakeAll _⟩
    · exact h.busy_wakeAll

/-- `should_socket_worker_run` counts every worker once, when it finds
`should_run` cleared. -/
theorem Accounted.testRun (h : s.Accounted) (hstep : s.next .testRun = some t) : t.Accounted := by
  simp only [next] at hstep
  split_ifs at hstep with hbroadcast hrun
  · -- nothing is written while `should_run` is set
    obtain rfl := Option.some.inj hstep
    rw [shouldSocketWorkerRun_snd] at hrun
    rw [shouldSocketWorkerRun_of_run hrun]
    exact h
  · -- the whole pool is counted, whoever has left by now
    obtain rfl := Option.some.inj hstep
    rw [shouldSocketWorkerRun_snd] at hrun
    rw [shouldSocketWorkerRun_of_stop (by simpa using hrun)]
    have hcount := h.count
    rw [if_neg hbroadcast] at hcount
    refine ⟨h.lines, ?_, ?_, ?_, ?_, h.busy_wakeAll⟩
    · simp only [exited, exited_wakeAll, if_true] at hcount ⊢
      omega
    · exact Int.add_nonneg h.nonneg (Int.natCast_nonneg workersCount)
    · intro i hblocked
      exact absurd hblocked (status_wakeAll_ne _ _)
    · intro htrue
      exact absurd htrue hrun

theorem Accounted.terminate (h : s.Accounted) (hstep : s.next .terminate = some t) :
    t.Accounted := by
  obtain rfl := Option.some.inj hstep
  exact ⟨h.lines, h.count, h.nonneg, h.blocked, fun hrun => absurd hrun (by simp), h.busy⟩

/-! ### The sections of a worker -/

@[simp] theorem workers_setStatus_self (s : Pool workersCount) (worker : Fin workersCount)
    (status : WorkerStatus) (job : Block) :
    (s.setStatus worker status job).workers worker = ⟨status, job⟩ :=
  Function.update_self _ _ _

theorem workers_setStatus_of_ne (s : Pool workersCount) {worker i : Fin workersCount}
    (hother : i ≠ worker) (status : WorkerStatus) (job : Block) :
    (s.setStatus worker status job).workers i = s.workers i :=
  Function.update_of_ne hother _ _

/-- One worker moves and takes no count with it: the other workers keep what the
invariant says of them. -/
theorem Accounted.ofOthers (h : s.Accounted) (hothers : ∀ i, i ≠ worker → t.workers i = s.workers i)
    (hhanded : ∀ i, i ≠ worker →
      t.handed.filter (fun job => job.1 = i) = s.handed.filter fun job => job.1 = i)
    (hless : t.shared.urlCount ≤ s.shared.urlCount)
    (hlines : ∃ items, t.shared.queue.Holds items ∧ t.accepted = t.handed.map Prod.snd ++ items)
    (hcount : t.shared.urlCount =
      t.shared.queue.occupied - t.exited + (if t.broadcast then (workersCount : ℤ) else 0))
    (hnonneg : 0 ≤ t.shared.urlCount)
    (hblocked : (t.workers worker).status = .blocked → t.shared.urlCount < 1)
    (hrunning : t.shared.shouldRun = true → t.broadcast = false ∧ t.exited = 0)
    (hbusy : (t.workers worker).status = .busy →
      (t.handed.filter fun job => job.1 = worker).getLast? =
        some (worker, cstr (t.workers worker).job)) : t.Accounted := by
  refine ⟨hlines, hcount, hnonneg, ?_, hrunning, ?_⟩
  · -- the count does not grow, so whoever waits still has to
    intro i hi
    rcases eq_or_ne i worker with rfl | hother
    · exact hblocked hi
    · rw [hothers i hother] at hi
      exact lt_of_le_of_lt hless (h.blocked i hi)
  · -- a busy worker still holds the last job handed to it
    intro i hi
    rcases eq_or_ne i worker with rfl | hother
    · exact hbusy hi
    · rw [hothers i hother] at hi ⊢
      rw [hhanded i hother]
      exact h.busy i hi

/-- A worker that is not out of its loop moves on without a job and without
touching the shared variables. -/
theorem Accounted.setStatus (h : s.Accounted) {status : WorkerStatus} {job : Block}
    (hstays : (s.workers worker).status ≠ .exited) (hexited : status ≠ .exited)
    (hblocked : status = .blocked → s.shared.urlCount < 1) (hbusy : status ≠ .busy) :
    (s.setStatus worker status job).Accounted := by
  have hsame : (s.setStatus worker status job).exited = s.exited :=
    countWhere_update_of_iff (iff_of_false hexited hstays)
  apply h.ofOthers (fun i hother => workers_setStatus_of_ne s hother status job) (fun _ _ => rfl)
    le_rfl h.lines
  · rw [hsame]
    exact h.count
  · exact h.nonneg
  · rw [workers_setStatus_self]
    exact hblocked
  · rw [hsame]
    exact h.running
  · rw [workers_setStatus_self]
    exact fun hi => absurd hi hbusy

/-- While `should_run` is set, `url_count` is the number of queued lines. -/
theorem Accounted.urlCount_eq (h : s.Accounted) (hrun : s.shared.shouldRun = true) :
    s.shared.urlCount = s.shared.queue.occupied := by
  have hcount := h.count
  obtain ⟨hbroadcast, hexited⟩ := h.running hrun
  rw [hbroadcast, hexited] at hcount
  simpa using hcount

theorem workers_enterSection_self (s : Pool workersCount) (worker : Fin workersCount) :
    (s.enterSection worker).workers worker =
      ⟨(workerSection s.shared (s.workers worker).job).status,
        (workerSection s.shared (s.workers worker).job).job⟩ :=
  workers_setStatus_self _ _ _ _

theorem workers_enterSection_of_ne (s : Pool workersCount) {worker i : Fin workersCount}
    (hother : i ≠ worker) : (s.enterSection worker).workers i = s.workers i :=
  workers_setStatus_of_ne s hother _ _

theorem handed_enterSection_of_ne (s : Pool workersCount) {worker i : Fin workersCount}
    (hother : i ≠ worker) :
    (s.enterSection worker).handed.filter (fun job => job.1 = i) =
      s.handed.filter fun job => job.1 = i := by
  unfold enterSection
  dsimp only
  split_ifs
  · rw [List.filter_append, List.filter_singleton]
    simp [Ne.symm hother]
  · rfl

/-- A worker that finds `url_count` positive and `should_run` cleared leaves, and
takes its count with it. -/
theorem Accounted.leave (h : s.Accounted) (hcontending : (s.workers worker).status = .contending)
    (hpositive : ¬ s.shared.urlCount < 1) (hstop : s.shared.shouldRun = false) :
    (s.enterSection worker).Accounted := by
  have hsection := workerSection_of_stop hpositive hstop (s.workers worker).job
  have hself := workers_enterSection_self s worker
  rw [hsection] at hself
  have hshared : (s.enterSection worker).shared =
      { s.shared with urlCount := s.shared.urlCount - 1 } := congrArg SectionResult.shared hsection
  have hhanded : (s.enterSection worker).handed = s.handed :=
    if_neg (by simp [hsection])
  have hmore : (s.enterSection worker).exited = s.exited + 1 :=
    countWhere_update (by simp [hcontending]) (by simp [hsection])
  have hcount := h.count
  refine h.ofOthers (fun _ => workers_enterSection_of_ne s) (fun _ => handed_enterSection_of_ne s)
    ?_ ?_ ?_ ?_ ?_ ?_ ?_
  · rw [hshared]
    exact sub_le_self _ (by decide)
  · rw [hshared, hhanded]
    exact h.lines
  · -- one count less, and one worker more that left
    rw [hshared, hmore]
    change s.shared.urlCount - 1 =
      s.shared.queue.occupied - _ + (if s.broadcast then (workersCount : ℤ) else 0)
    rw [hcount]
    push_cast
    ring
  · -- there was one count to take
    rw [hshared]
    dsimp only
    omega
  · rw [hself]
    exact fun hblocked => absurd hblocked (by simp)
  · rw [hshared]
    exact fun hrun => absurd hrun (by simp [hstop])
  · rw [hself]
    exact fun hbusy => absurd hbusy (by simp)

/-- A worker that finds `url_count` positive and `should_run` set gets the oldest
line of a queue that is not empty. -/
theorem Accounted.take (h : s.Accounted) (hcontending : (s.workers worker).status = .contending)
    (hpositive : ¬ s.shared.urlCount < 1) (hrun : s.shared.shouldRun = true) :
    (s.enterSection worker).Accounted := by
  have hsection := workerSection_of_run hpositive hrun (s.workers worker).job
  have hself := workers_enterSection_self s worker
  have hqueued := h.urlCount_eq hrun
  obtain ⟨hbroadcast, hexited⟩ := h.running hrun
  obtain ⟨items, hholds, haccepted⟩ := h.lines
  have hoccupied := hholds.occupied_eq
  cases items with
  | nil =>
    -- `url_count` is positive, so the queue is not empty
    rw [List.length_nil] at hoccupied
    omega
  | cons line items =>
    obtain ⟨hrest, hjob⟩ := hholds.fifoDequeue (s.workers worker).job
    have hless := hrest.occupied_eq
    rw [List.length_cons] at hoccupied
    have hline : cstr (fifoDequeue s.shared.queue (s.workers worker).job).2 = line := by
      rw [hjob, cstr_store_zero (by simp)]
      exact cstr_append_nul (hholds.nulFree (by simp))
    have hshared := congrArg SectionResult.shared hsection
    have hhanded : (s.enterSection worker).handed = s.handed ++ [(worker, line)] := by
      rw [← hline]
      exact (if_pos (by rw [hsection])).trans (by rw [hsection])
    have hsame : (s.enterSection worker).exited = s.exited :=
      countWhere_update_of_iff (by simp [hcontending, hsection])
    rw [hsection] at hself
    change (s.enterSection worker).shared = _ at hshared
    refine h.ofOthers (fun _ => workers_enterSection_of_ne s) (fun _ => handed_enterSection_of_ne s)
      ?_ ?_ ?_ ?_ ?_ ?_ ?_
    · rw [hshared]
      exact sub_le_self _ (by decide)
    · refine ⟨items, hshared ▸ hrest, ?_⟩
      rw [hhanded, List.map_append, List.append_assoc]
      exact haccepted
    · -- one count less, and one line less in the queue
      rw [hshared, hsame, hexited]
      change s.shared.urlCount - 1 =
        (fifoDequeue s.shared.queue (s.workers worker).job).1.occupied - _ +
          (if s.broadcast then (workersCount : ℤ) else 0)
      rw [hqueued, hoccupied, hless, hbroadcast]
      simp
    · rw [hshared]
      dsimp only
      omega
    · rw [hself]
      exact fun hblocked => absurd hblocked (by simp)
    · exact fun _ => ⟨hbroadcast, hsame.trans hexited⟩
    · rw [hself, hhanded, hline]
      simp

/-- The mutex section of a worker that locked the mutex. -/
theorem Accounted.enterSection (h : s.Accounted)
    (hcontending : (s.workers worker).status = .contending) :
    (s.enterSection worker).Accounted := by
  by_cases hempty : s.shared.urlCount < 1
  · -- nothing to do: the worker waits, and the shared variables stay
    have hsame : s.enterSection worker = s.setStatus worker .blocked (s.workers worker).job := by
      rw [Pool.enterSection, workerSection_of_empty hempty]
      rfl
    rw [hsame]
    exact h.setStatus (by simp [hcontending]) (by simp) (fun _ => hempty) (by simp)
  · cases hrun : s.shared.shouldRun with
    | true => exact h.take hcontending hempty hrun
    | false => exact h.leave hcontending hempty hrun

/-! ### What a step leaves alone -/

theorem shouldRun_enterSection (s : Pool workersCount) (worker : Fin workersCount) :
    (s.enterSection worker).shared.shouldRun = s.shared.shouldRun := by
  change (workerSection s.shared (s.workers worker).job).shared.shouldRun = _
  unfold workerSection
  split_ifs <;> rfl

/-- Only the handler writes `should_run`, and only the test of it broadcasts. -/
theorem next_frame {event : PoolEvent workersCount} (hstep : s.next event = some t) :
    (event ≠ .terminate → t.shared.shouldRun = s.shared.shouldRun) ∧
      (event ≠ .testRun → t.broadcast = s.broadcast) := by
  cases event with
  | enqueue line =>
    simp only [next] at hstep
    split_ifs at hstep
    all_goals
      obtain rfl := Option.some.inj hstep
      exact ⟨fun _ => shouldRun_enqueueLine _ _, fun _ => rfl⟩
  | testRun =>
    refine ⟨fun _ => ?_, fun hother => absurd rfl hother⟩
    simp only [next] at hstep
    split_ifs at hstep
    all_goals
      obtain rfl := Option.some.inj hstep
      exact shouldRun_shouldSocketWorkerRun _ _
  | terminate =>
    obtain rfl := Option.some.inj hstep
    exact ⟨fun hother => absurd rfl hother, fun _ => rfl⟩
  | enter worker =>
    simp only [next, Option.ite_none_right_eq_some, Option.some.injEq] at hstep
    obtain ⟨-, rfl⟩ := hstep
    exact ⟨fun _ => shouldRun_enterSection s worker, fun _ => rfl⟩
  | initialise worker connected | wakeUp worker | finish worker job =>
    simp only [next, Option.ite_none_right_eq_some, Option.some.injEq] at hstep
    obtain ⟨-, rfl⟩ := hstep
    exact ⟨fun _ => rfl, fun _ => rfl⟩

/-- Until the broadcast the main thread can run the section that queues a line. -/
theorem exists_next_enqueue (hquiet : s.broadcast = false) (line : Block) :
    ∃ t, s.next (.enqueue line) = some t := by
  simp only [next, hquiet, Bool.false_eq_true, if_false]
  split_ifs
  · exact ⟨_, rfl⟩
  · exact ⟨_, rfl⟩

/-- After the test shutdown is broadcast if `should_run` is cleared. -/
theorem broadcast_of_testRun (hstep : s.next .testRun = some t) :
    t.broadcast = !t.shared.shouldRun := by
  have hkept := (next_frame hstep).1 (by simp)
  simp only [next] at hstep
  rw [shouldSocketWorkerRun_snd] at hstep
  -- the section ran, so nothing was broadcast before it
  split_ifs at hstep with hbroadcast hrun
  · obtain rfl := Option.some.inj hstep
    rw [hkept, hrun]
    simpa using hbroadcast
  · obtain rfl := Option.some.inj hstep
    rw [hkept]
    simpa using hrun

/-- Every step of every thread keeps the accounts. -/
theorem Accounted.next (h : s.Accounted) {event : PoolEvent workersCount} (hfits : event.Fits)
    (hstep : s.next event = some t) : t.Accounted := by
  cases event with
  | enqueue line => exact h.enqueue hfits hstep
  | testRun => exact h.testRun hstep
  | terminate => exact h.terminate hstep
  | initialise worker connected =>
    simp only [Pool.next, Option.ite_none_right_eq_some, Option.some.injEq] at hstep
    obtain ⟨hstarting, rfl⟩ := hstep
    apply h.setStatus
    · simp [hstarting]
    · cases connected <;> simp
    · cases connected <;> simp
    · cases connected <;> simp
  | enter worker =>
    simp only [Pool.next, Option.ite_none_right_eq_some, Option.some.injEq] at hstep
    obtain ⟨hcontending, rfl⟩ := hstep
    exact h.enterSection hcontending
  | wakeUp worker =>
    simp only [Pool.next, Option.ite_none_right_eq_some, Option.some.injEq] at hstep
    obtain ⟨hblocked, rfl⟩ := hstep
    exact h.setStatus (by simp [hblocked]) (by simp) (by simp) (by simp)
  | finish worker job =>
    simp only [Pool.next, Option.ite_none_right_eq_some, Option.some.injEq] at hstep
    obtain ⟨hbusy, rfl⟩ := hstep
    exact h.setStatus (by simp [hbusy]) (by simp) (by simp) (by simp)

end Pool

/-! ### Runs -/

section Runs

variable {workersCount : ℕ} {malloc : ℕ → Block} {capacity : ℕ} {s : Pool workersCount}

theorem accounted_of_reachable (hmalloc : ∀ i, (malloc i).length = bufferSize)
    (hcapacity : 1 ≤ capacity) (hreach : (poolSystem workersCount malloc capacity).Reachable s) :
    s.Accounted := by
  refine hreach.invariant ?_ ?_
  · rintro _ ⟨job, rfl⟩
    exact Pool.accounted_fresh hmalloc hcapacity job
  · rintro s event t - hs ⟨hfits, hstep⟩
    exact hs.next hfits hstep

/-- Once shutdown was broadcast there is a count for every worker that has not
left, so none waits, and one that locks the mutex leaves. -/
theorem Pool.Accounted.after_broadcast (h : s.Accounted) (hbroadcast : s.broadcast = true) :
    (s.present : ℤ) ≤ s.shared.urlCount ∧ ∀ worker, (s.workers worker).status ≠ .exited →
      (s.workers worker).status ≠ .blocked ∧
        (workerSection s.shared (s.workers worker).job).status = .exited := by
  have hcount := h.count
  have htotal := s.exited_add_present
  have hcovered : (s.present : ℤ) ≤ s.shared.urlCount := by
    rw [hcount, if_pos hbroadcast]
    omega
  have hstop : s.shared.shouldRun = false := by
    cases hrun : s.shared.shouldRun with
    | false => rfl
    | true => simp [(h.running hrun).1] at hbroadcast
  -- a worker that has not left finds a count left for it
  refine ⟨hcovered, fun worker hpresent => ?_⟩
  have hone : 0 < s.present := countWhere_pos_iff.mpr ⟨worker, hpresent⟩
  refine ⟨fun hblocked => ?_, ?_⟩
  · have := h.blocked worker hblocked
    omega
  · rw [workerSection_of_stop (by omega) hstop]

end Runs

/-- A worker that takes a job changes the shared variables as the schedule of the
callback says. -/
theorem shared_workerSection_eq_takeJob {s : Shared} (hrun : s.shouldRun = true)
    (hpositive : ¬ s.urlCount < 1) (hqueued : s.queue.occupied ≠ 0) (job : Block) :
    (workerSection s job).shared = takeJob s := by
  rw [workerSection_of_run hpositive hrun, takeJob, if_neg hqueued]
  have hpos : 0 < s.queue.occupied := Nat.pos_of_ne_zero hqueued
  simp only [fifoDequeue, if_pos hpos]

/-- In every reachable state of every interleaving: `url_count` is the queued
lines less the workers that left, plus the whole pool after the broadcast, and is
not negative; a worker that takes a job finds one; what the workers were handed,
in order, is what was accepted up to the queued rest, and a busy worker holds the
last job handed to it; after the broadcast `url_count` covers every worker that
has not left, and none of those waits or will wait. -/
theorem job_accounting (workersCount : ℕ) (malloc : ℕ → Block)
    (hmalloc : ∀ i, (malloc i).length = bufferSize) (capacity : ℕ) (hcapacity : 1 ≤ capacity)
    (s : Pool workersCount) (hreach : (poolSystem workersCount malloc capacity).Reachable s) :
    s.shared.urlCount =
        s.shared.queue.occupied - s.exited + (if s.broadcast then (workersCount : ℤ) else 0) ∧
      0 ≤ s.shared.urlCount ∧
      (∀ worker, (s.workers worker).status = .contending →
        (workerSection s.shared (s.workers worker).job).status = .busy →
          0 < s.shared.queue.occupied) ∧
      (∃ items, s.shared.queue.Holds items ∧ s.accepted = s.handed.map Prod.snd ++ items) ∧
      s.handed.map Prod.snd <+: s.accepted ∧
      (∀ worker, (s.workers worker).status = .busy →
        (s.handed.filter fun job => job.1 = worker).getLast? =
          some (worker, cstr (s.workers worker).job)) ∧
      (s.broadcast = true →
        (s.present : ℤ) ≤ s.shared.urlCount ∧ ∀ worker, (s.workers worker).status ≠ .exited →
          (s.workers worker).status ≠ .blocked ∧
            (workerSection s.shared (s.workers worker).job).status = .exited) := by
  have h := accounted_of_reachable hmalloc hcapacity hreach
  refine ⟨h.count, h.nonneg, ?_, h.lines, ?_, h.busy, h.after_broadcast⟩
  · -- only the branch that dequeues leaves a worker busy
    intro worker _ htakes
    by_cases hpositive : s.shared.urlCount < 1
    · rw [workerSection_of_empty hpositive] at htakes
      cases htakes
    · cases hrun : s.shared.shouldRun with
      | true =>
        have := h.urlCount_eq hrun
        omega
      | false =>
        rw [workerSection_of_stop hpositive hrun] at htakes
        cases htakes
  · obtain ⟨items, -, haccepted⟩ := h.lines
    exact ⟨items, haccepted.symm⟩

/-- One worker gets the queued line, is interrupted by shutdown while busy, and
leaves. -/
theorem job_accounting_shutdown :
    let events : List (PoolEvent 1) := [.initialise 0 true, .enqueue (ascii "FETCH a" ++ [0]),
      .enter 0, .terminate, .testRun, .finish 0 [0], .enter 0]
    let start := Pool.fresh 1 (fun _ => List.replicate bufferSize 0) 1 fun _ => [0]
    ∃ t, events.foldlM Pool.next start = some t ∧ t.handed = [(0, ascii "FETCH a")] ∧
      t.exited = 1 ∧ t.handed.map Prod.snd <+: t.accepted := by
  intro events start
  refine ⟨_, rfl, by decide, by decide, ?_⟩
  refine (job_accounting 1 (fun _ => List.replicate bufferSize 0) (fun _ => List.length_replicate)
    1 (Nat.le_refl 1) _ ?_).2.2.2.2.1
  exact .of_foldlM (fun _ _ _ hfit hstep => And.intro hfit hstep)
    (.start ⟨fun _ => [0], rfl⟩) events (by decide) rfl

end EasyForetell
