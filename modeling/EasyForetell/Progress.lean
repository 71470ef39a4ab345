import EasyForetell.Shutdown
import Mathlib.Algebra.Order.BigOperators.Group.Finset

/-!
# Progress of the workers (queral.c, worker_thread)

A worker that is ready makes a step, and most steps bring it nearer to its next wait. Two
steps for a queued line and at most two for a worker pay for everything the workers do
until the next line, wakeup or broadcast; so the workers come to rest by themselves, and
at rest nothing is left that they could have done.

## Main results

* `Pool.next_potential`: what every step costs
* `queued_lines_handed_out`: the workers come to rest, with the queue empty
* `shutdown_completes`: after the broadcast all workers leave if their jobs end, and no line is
  handed out
-/

namespace EasyForetell

open Memory Theory

/-- The steps a worker makes at most until it waits or is gone. -/
def WorkerStatus.rank : WorkerStatus → ℕ
  | .starting | .busy => 2
  | .contending => 1
  | .failed | .blocked | .exited => 0

/-- A step of a worker that no spurious wakeup causes. -/
def PoolEvent.works {workersCount : ℕ} : PoolEvent workersCount → Bool
  | .initialise .. | .enter _ | .finish .. => true
  | .enqueue _ | .testRun | .terminate | .wakeUp _ => false

/-- A wakeup without a broadcast. -/
def PoolEvent.wakes {workersCount : ℕ} : PoolEvent workersCount → Bool
  | .wakeUp _ => true
  | _ => false

/-- What an event takes from the steps that are pending. -/
def PoolEvent.cost {workersCount : ℕ} : PoolEvent workersCount → ℤ
  | .initialise .. | .enter _ | .finish .. => 1
  | .wakeUp _ => -1
  | .enqueue _ | .testRun | .terminate => 0

/-- Over a run the steps of the workers cost what the spurious wakeups do not bring in. -/
theorem PoolEvent.sum_cost {workersCount : ℕ} (events : List (PoolEvent workersCount)) :
    (events.map cost).sum = (events.countP works : ℤ) - events.countP wakes := by
  induction events with
  | nil => rfl
  | cons event events ih =>
    rw [List.map_cons, List.sum_cons, ih, List.countP_cons, List.countP_cons]
    cases event <;> simp [cost, works, wakes] <;> omega

namespace Pool

variable {workersCount : ℕ} {malloc : ℕ → Block} {capacity : ℕ} {s t : Pool workersCount}
  {worker : Fin workersCount}

/-- The steps the workers themselves still have before them. -/
def ranks (s : Pool workersCount) : ℕ := ∑ i, (s.workers i).status.rank

/-- The steps that are pending: the workers' own, two for every queued line, and one for
every worker that the broadcast is still to wake. -/
def pending (s : Pool workersCount) : ℕ :=
  s.ranks + 2 * s.shared.queue.occupied + if s.broadcast then 0 else workersCount

/-- No worker can go on. -/
def AtRest (s : Pool workersCount) : Prop := ∀ event, event.works = true → s.next event = none

/-! ### What a step costs -/

/-- One worker moves on to another status. -/
theorem ranks_setStatus (s : Pool workersCount) (worker : Fin workersCount)
    (status : WorkerStatus) (job : Block) :
    (s.setStatus worker status job).ranks + (s.workers worker).status.rank =
      s.ranks + status.rank :=
  sum_update_add (fun w : WorkerThread => w.status.rank) s.workers worker ⟨status, job⟩

/-- A broadcast gives every worker at most one step more. -/
theorem sum_rank_wakeAll_le (workers : Fin workersCount → WorkerThread) :
    ∑ i, (wakeAll workers i).status.rank ≤ ∑ i, (workers i).status.rank + workersCount := by
  have hone : ∀ i, (wakeAll workers i).status.rank ≤ (workers i).status.rank + 1 := by
    intro i
    unfold wakeAll WorkerThread.wake
    split_ifs with hblocked
    · simp [hblocked, WorkerStatus.rank]
    · exact Nat.le_succ _
  calc ∑ i, (wakeAll workers i).status.rank
      ≤ ∑ i, ((workers i).status.rank + 1) := Finset.sum_le_sum fun i _ => hone i
    _ = ∑ i, (workers i).status.rank + workersCount := by simp [Finset.sum_add_distrib]

/-- The section that queues a line costs the two steps of the line, and wakes everybody. -/
theorem pending_enqueue {line : Block} (hstep : s.next (.enqueue line) = some t) :
    ∃ lines ≤ 1, t.accepted.length = s.accepted.length + lines ∧
      t.pending ≤ s.pending + (workersCount + 2) * lines := by
  simp only [next] at hstep
  split_ifs at hstep with hbroadcast hres
  · -- the queue is full: nothing changes
    have hfull : ¬ s.shared.queue.occupied < s.shared.queue.capacity := by
      intro hroom
      rw [enqueueLine_of_room hroom] at hres
      simp at hres
    rw [enqueueLine_of_full hfull] at hstep
    obtain rfl := Option.some.inj hstep
    exact ⟨0, Nat.zero_le 1, rfl, le_rfl⟩
  · have hroom : s.shared.queue.occupied < s.shared.queue.capacity := by
      by_contra hfull
      rw [enqueueLine_of_full hfull] at hres
      exact hres rfl
    have hoccupied := occupied_enqueueLine hroom line
    have hwoken := sum_rank_wakeAll_le s.workers
    obtain rfl := Option.some.inj hstep
    refine ⟨1, le_rfl, List.length_append, ?_⟩
    simp only [pending, ranks, hoccupied] at hwoken ⊢
    omega

/-- The broadcast is paid for before it is made. -/
theorem pending_testRun (hstep : s.next .testRun = some t) : t.pending ≤ s.pending := by
  simp only [next] at hstep
  rw [shouldSocketWorkerRun_snd] at hstep
  split_ifs at hstep with hbroadcast hrun
  · obtain rfl := Option.some.inj hstep
    rw [shouldSocketWorkerRun_of_run hrun]
  · have hwoken := sum_rank_wakeAll_le s.workers
    obtain rfl := Option.some.inj hstep
    rw [shouldSocketWorkerRun_of_stop (by simpa using hrun)]
    simp only [pending, ranks, if_neg hbroadcast, if_true] at hwoken ⊢
    omega

/-- A section that finds nothing to do leaves its worker waiting, one that finds a line
takes the line along, and one that finds `should_run` cleared is the last of its worker. -/
theorem pending_enterSection (h : s.Accounted)
    (hcontending : (s.workers worker).status = .contending) :
    (s.enterSection worker).pending < s.pending := by
  have hranks := s.ranks_setStatus worker (workerSection s.shared (s.workers worker).job).status
    (workerSection s.shared (s.workers worker).job).job
  have hsame : (s.enterSection worker).pending =
      (s.setStatus worker (workerSection s.shared (s.workers worker).job).status
          (workerSection s.shared (s.workers worker).job).job).ranks +
        2 * (workerSection s.shared (s.workers worker).job).shared.queue.occupied +
        if s.broadcast then 0 else workersCount := rfl
  rw [hcontending] at hranks
  rw [hsame, pending]
  by_cases hempty : s.shared.urlCount < 1
  · rw [workerSection_of_empty hempty] at hranks ⊢
    simp only [WorkerStatus.rank] at hranks
    dsimp only
    omega
  · cases hrun : s.shared.shouldRun with
    | true =>
      -- there is a line to take
      have hqueued := h.urlCount_eq hrun
      have hoccupied : (fifoDequeue s.shared.queue (s.workers worker).job).1.occupied + 1 =
          s.shared.queue.occupied := by
        rw [fifoDequeue, if_pos (by omega)]
        dsimp only
        omega
      rw [workerSection_of_run hempty hrun] at hranks ⊢
      simp only [WorkerStatus.rank] at hranks
      dsimp only
      omega
    | false =>
      rw [workerSection_of_stop hempty hrun] at hranks ⊢
      simp only [WorkerStatus.rank] at hranks
      dsimp only
      omega

/-- What a worker does in one step, unless it enters its section. -/
theorem pending_setStatus (status : WorkerStatus) (job : Block) {before : WorkerStatus}
    (hbefore : (s.workers worker).status = before) :
    (s.setStatus worker status job).pending + before.rank = s.pending + status.rank := by
  have hranks := s.ranks_setStatus worker status job
  have hsame : (s.setStatus worker status job).pending =
      (s.setStatus worker status job).ranks + 2 * s.shared.queue.occupied +
        if s.broadcast then 0 else workersCount := rfl
  rw [hbefore] at hranks
  rw [hsame, pending]
  omega

/-- Every step of every thread is paid for: a line brings the steps of the workers it wakes
and its own, a spurious wakeup brings one, and a step of a worker takes one. -/
theorem next_potential (h : s.Accounted) {event : PoolEvent workersCount}
    (hstep : s.next event = some t) :
    (t.pending : ℤ) - (workersCount + 2) * t.accepted.length + event.cost ≤
      s.pending - (workersCount + 2) * s.accepted.length := by
  cases event with
  | enqueue line =>
    -- a line pays for waking every worker, and for the two steps of its own
    obtain ⟨lines, -, hlength, hpending⟩ := pending_enqueue hstep
    have hpaid : (t.pending : ℤ) ≤ s.pending + (workersCount + 2) * lines := by
      exact_mod_cast hpending
    have hcost : ((workersCount : ℤ) + 2) * (s.accepted.length + lines) =
        (workersCount + 2) * s.accepted.length + (workersCount + 2) * lines := mul_add _ _ _
    rw [PoolEvent.cost, hlength, Nat.cast_add, hcost]
    omega
  | testRun =>
    have hpending := pending_testRun hstep
    have hsame : t.accepted = s.accepted := by
      simp only [next] at hstep
      split_ifs at hstep
      all_goals
        obtain rfl := Option.some.inj hstep
        rfl
    rw [PoolEvent.cost, hsame]
    omega
  | terminate =>
    obtain rfl := Option.some.inj hstep
    exact (add_zero _).le
  | initialise worker connected =>
    simp only [next, Option.ite_none_right_eq_some, Option.some.injEq] at hstep
    obtain ⟨hstarting, rfl⟩ := hstep
    have hpending := pending_setStatus (if connected then .contending else .failed)
      (s.workers worker).job hstarting
    have hless : (if connected then WorkerStatus.contending else .failed).rank <
        WorkerStatus.starting.rank := by cases connected <;> decide
    rw [PoolEvent.cost, setStatus]
    dsimp only [setStatus] at hpending ⊢
    omega
  | enter worker =>
    simp only [next, Option.ite_none_right_eq_some, Option.some.injEq] at hstep
    obtain ⟨hcontending, rfl⟩ := hstep
    have hpending := pending_enterSection h hcontending
    have hsame : (s.enterSection worker).accepted = s.accepted := rfl
    rw [PoolEvent.cost, hsame]
    omega
  | wakeUp worker =>
    simp only [next, Option.ite_none_right_eq_some, Option.some.injEq] at hstep
    obtain ⟨hblocked, rfl⟩ := hstep
    have hpending := pending_setStatus .contending (s.workers worker).job hblocked
    rw [PoolEvent.cost]
    simp only [WorkerStatus.rank, setStatus] at hpending ⊢
    omega
  | finish worker job =>
    simp only [next, Option.ite_none_right_eq_some, Option.some.injEq] at hstep
    obtain ⟨hbusy, rfl⟩ := hstep
    have hpending := pending_setStatus .contending job hbusy
    rw [PoolEvent.cost]
    simp only [WorkerStatus.rank, setStatus] at hpending ⊢
    omega

/-! ### Rest -/

theorem fits_of_works {event : PoolEvent workersCount} (hworks : event.works = true) :
    event.Fits := by
  cases event with
  | enqueue line => cases hworks
  | _ => exact trivial

theorem ofWorker_of_works {event : PoolEvent workersCount} (hworks : event.works = true) :
    event.ofWorker = true := by
  cases event with
  | initialise worker connected | enter worker | finish worker job => rfl
  | enqueue line | testRun | terminate | wakeUp worker => cases hworks

/-- The workers accept no lines. -/
theorem accepted_of_worker {event : PoolEvent workersCount} (hworker : event.ofWorker = true)
    (hstep : s.next event = some t) : t.accepted = s.accepted := by
  cases event with
  | initialise worker connected | enter worker | wakeUp worker | finish worker job =>
    simp only [next, Option.ite_none_right_eq_some, Option.some.injEq] at hstep
    obtain ⟨-, rfl⟩ := hstep
    rfl
  | enqueue line | testRun | terminate => cases hworker

/-- A worker pays for its steps itself, unless nothing but chance wakes it up. -/
theorem pending_of_worker (h : s.Accounted) {event : PoolEvent workersCount}
    (hworker : event.ofWorker = true) (hstep : s.next event = some t) :
    t.pending + (if event.works then 1 else 0) ≤ s.pending + if event.wakes then 1 else 0 := by
  have hpaid := next_potential h hstep
  rw [accepted_of_worker hworker hstep] at hpaid
  cases event with
  | initialise worker connected | enter worker | wakeUp worker | finish worker job =>
    simp only [PoolEvent.cost, PoolEvent.works, PoolEvent.wakes] at hpaid ⊢
    simp only [if_true, Bool.false_eq_true, if_false]
    omega
  | enqueue line | testRun | terminate => cases hworker

theorem atRest_iff : s.AtRest ↔ ∀ worker, (s.workers worker).status.rank = 0 := by
  constructor
  · intro hrest worker
    cases hstatus : (s.workers worker).status with
    | starting =>
      have := hrest (.initialise worker true) rfl
      simp [next, hstatus] at this
    | contending =>
      have := hrest (.enter worker) rfl
      simp [next, hstatus] at this
    | busy =>
      have := hrest (.finish worker (s.workers worker).job) rfl
      simp [next, hstatus] at this
    | failed | blocked | exited => rfl
  · intro hidle event hworks
    cases event with
    | initialise worker connected | enter worker | finish worker job =>
      simp only [next, ite_eq_right_iff]
      intro hstatus
      have := hidle worker
      simp [hstatus, WorkerStatus.rank] at this
    | enqueue line | testRun | terminate | wakeUp worker => cases hworks

/-- At rest, with `should_run` set and a worker in its loop, the queue is empty. -/
theorem Accounted.handed_of_atRest (h : s.Accounted) (hrest : s.AtRest)
    (hrun : s.shared.shouldRun = true) (halive : (s.workers worker).status ≠ .failed) :
    s.handed.map Prod.snd = s.accepted := by
  obtain ⟨-, hexited⟩ := h.running hrun
  have hidle := atRest_iff.mp hrest worker
  have hempty : s.shared.urlCount < 1 := by
    cases hstatus : (s.workers worker).status with
    | blocked => exact h.blocked worker hstatus
    | failed => exact absurd hstatus halive
    | exited => exact absurd hstatus (countWhere_eq_zero_iff.mp hexited worker)
    | starting | contending | busy => simp [hstatus, WorkerStatus.rank] at hidle
  obtain ⟨items, hholds, haccepted⟩ := h.lines
  have hlength := hholds.occupied_eq
  rw [h.urlCount_eq hrun] at hempty
  obtain rfl : items = [] := List.eq_nil_of_length_eq_zero (by omega)
  rw [haccepted, List.append_nil]

/-- The workers alone come to rest. -/
theorem exists_atRest (hmalloc : ∀ i, (malloc i).length = bufferSize) (hcapacity : 1 ≤ capacity)
    (hreach : (poolSystem workersCount malloc capacity).Reachable s) :
    ∃ events t, (poolSystem workersCount malloc capacity).Run s events t ∧
      (∀ event ∈ events, PoolEvent.works event = true) ∧ t.AtRest := by
  have hstep : ∀ u event v, (poolSystem workersCount malloc capacity).Reachable u →
      event.works = true → (poolSystem workersCount malloc capacity).step u event v →
      (poolSystem workersCount malloc capacity).Reachable v ∧ v.pending < u.pending := by
    intro u event v hu hworks htaken
    have hpaid := pending_of_worker (accounted_of_reachable hmalloc hcapacity hu)
      (ofWorker_of_works hworks) htaken.2
    have hquiet : event.wakes = false := by
      cases event with
      | initialise worker connected | enter worker | finish worker job => rfl
      | enqueue line | testRun | terminate | wakeUp worker => cases hworks
    refine ⟨hu.next htaken, ?_⟩
    rw [if_pos hworks, hquiet] at hpaid
    exact hpaid
  obtain ⟨events, t, hrun, hworks, -, hend⟩ :=
    TransitionSystem.Run.exists_terminal pending hstep hreach
  refine ⟨events, t, hrun, hworks, fun event hevent => ?_⟩
  cases hnext : t.next event with
  | none => rfl
  | some u => exact absurd ⟨fits_of_works hevent, hnext⟩ (hend event u hevent)

/-! ### After shutdown -/

/-- With `should_run` cleared nothing is handed out, and it stays cleared. -/
theorem handed_of_stop (hstop : s.shared.shouldRun = false) {event : PoolEvent workersCount}
    (hstep : s.next event = some t) : t.handed = s.handed ∧ t.shared.shouldRun = false := by
  have hframe := next_frame hstep
  cases event with
  | enter worker =>
    refine ⟨?_, hframe.1 (by simp) ▸ hstop⟩
    simp only [next, Option.ite_none_right_eq_some, Option.some.injEq] at hstep
    obtain ⟨-, rfl⟩ := hstep
    refine if_neg fun hbusy => ?_
    by_cases hempty : s.shared.urlCount < 1
    · simp [workerSection_of_empty hempty] at hbusy
    · simp [workerSection_of_stop hempty hstop] at hbusy
  | terminate =>
    obtain rfl := Option.some.inj hstep
    exact ⟨rfl, rfl⟩
  | enqueue line | testRun =>
    refine ⟨?_, hframe.1 (by simp) ▸ hstop⟩
    simp only [next] at hstep
    split_ifs at hstep
    all_goals
      obtain rfl := Option.some.inj hstep
      rfl
  | initialise worker connected | wakeUp worker | finish worker job =>
    refine ⟨?_, hframe.1 (by simp) ▸ hstop⟩
    simp only [next, Option.ite_none_right_eq_some, Option.some.injEq] at hstep
    obtain ⟨-, rfl⟩ := hstep
    rfl

/-- After the broadcast a step of a worker brings it nearer to its end, and moves no other. -/
theorem rank_of_broadcast (h : s.Accounted) (hbroadcast : s.broadcast = true)
    {event : PoolEvent workersCount} (hstep : s.next event = some t) (i : Fin workersCount) :
    (t.workers i).status.rank + (if event.worker? = some i then 1 else 0) ≤
      (s.workers i).status.rank := by
  have hother : event.ofWorker = true → event.worker? ≠ some i →
      (t.workers i).status.rank + (if event.worker? = some i then 1 else 0) ≤
        (s.workers i).status.rank := by
    intro hworker hnot
    rw [if_neg hnot, status_of_other hworker hstep hnot, Nat.add_zero]
  cases event with
  | enqueue line | testRun => simp [next, hbroadcast] at hstep
  | terminate =>
    obtain rfl := Option.some.inj hstep
    exact le_rfl
  | initialise worker connected =>
    rcases eq_or_ne worker i with rfl | hne
    · simp only [next, Option.ite_none_right_eq_some, Option.some.injEq] at hstep
      obtain ⟨hstarting, rfl⟩ := hstep
      rw [workers_setStatus_self, hstarting]
      cases connected <;> simp [PoolEvent.worker?, WorkerStatus.rank]
    · exact hother rfl (by simpa [PoolEvent.worker?] using hne)
  | enter worker =>
    rcases eq_or_ne worker i with rfl | hne
    · simp only [next, Option.ite_none_right_eq_some, Option.some.injEq] at hstep
      obtain ⟨hcontending, rfl⟩ := hstep
      -- after the broadcast a section ends in leaving
      have hleaves := ((h.after_broadcast hbroadcast).2 worker (by simp [hcontending])).2
      rw [workers_enterSection_self, hleaves, hcontending]
      simp [PoolEvent.worker?, WorkerStatus.rank]
    · exact hother rfl (by simpa [PoolEvent.worker?] using hne)
  | wakeUp worker =>
    simp only [next, Option.ite_none_right_eq_some, Option.some.injEq] at hstep
    -- no worker blocks after the broadcast
    obtain ⟨hblocked, -⟩ := hstep
    exact absurd hblocked ((h.after_broadcast hbroadcast).2 worker (by simp [hblocked])).1
  | finish worker job =>
    rcases eq_or_ne worker i with rfl | hne
    · simp only [next, Option.ite_none_right_eq_some, Option.some.injEq] at hstep
      obtain ⟨hbusy, rfl⟩ := hstep
      rw [workers_setStatus_self, hbusy]
      simp [PoolEvent.worker?, WorkerStatus.rank]
    · exact hother rfl (by simpa [PoolEvent.worker?] using hne)

/-- What was broadcast stays so. -/
theorem broadcast_of_broadcast (hbroadcast : s.broadcast = true) {event : PoolEvent workersCount}
    (hstep : s.next event = some t) : t.broadcast = true := by
  by_cases htest : event = .testRun
  · subst htest
    simp [next, hbroadcast] at hstep
  · exact ((next_frame hstep).2 htest).trans hbroadcast

theorem rank_le (s : Pool workersCount) (i : Fin workersCount) : (s.workers i).status.rank ≤ 2 := by
  cases (s.workers i).status <;> decide

/-- At rest after the broadcast nobody is left in the loop. -/
theorem Accounted.gone_of_atRest (h : s.Accounted) (hrest : s.AtRest)
    (hbroadcast : s.broadcast = true) (worker : Fin workersCount) :
    (s.workers worker).status = .failed ∨ (s.workers worker).status = .exited := by
  have hidle := atRest_iff.mp hrest worker
  cases hstatus : (s.workers worker).status with
  | failed => exact Or.inl rfl
  | exited => exact Or.inr rfl
  | blocked =>
    exact absurd hstatus ((h.after_broadcast hbroadcast).2 worker (by simp [hstatus])).1
  | starting | contending | busy => simp [hstatus, WorkerStatus.rank] at hidle

end Pool

/-! ### Runs -/

/-- In every run the steps of the workers are paid for by those pending when it starts, the
spurious wakeups and the lines accepted meanwhile; from every reachable state the workers
alone come to rest; and at rest, with `should_run` set and one worker whose initialisation
did not fail, every line accepted so far was handed out. -/
theorem queued_lines_handed_out (workersCount : ℕ) (malloc : ℕ → Block)
    (hmalloc : ∀ i, (malloc i).length = bufferSize) (capacity : ℕ) (hcapacity : 1 ≤ capacity)
    (s : Pool workersCount) (hreach : (poolSystem workersCount malloc capacity).Reachable s) :
    (∀ events t, (poolSystem workersCount malloc capacity).Run s events t →
      (t.pending : ℤ) + events.countP PoolEvent.works ≤ s.pending + events.countP PoolEvent.wakes +
        (workersCount + 2) * (t.accepted.length - s.accepted.length)) ∧
      (∃ events t, (poolSystem workersCount malloc capacity).Run s events t ∧
        (∀ event ∈ events, PoolEvent.works event = true) ∧ t.AtRest) ∧
      (s.AtRest → s.shared.shouldRun = true →
        (∃ worker, (s.workers worker).status ≠ .failed) →
          s.handed.map Prod.snd = s.accepted) := by
  refine ⟨fun events t hrun => ?_, Pool.exists_atRest hmalloc hcapacity hreach, ?_⟩
  · have hpaid := hrun.potential
      (fun u => (u.pending : ℤ) - (workersCount + 2) * u.accepted.length) PoolEvent.cost
      (fun _ _ _ hu htaken => TransitionSystem.Reachable.next hu htaken)
      (fun _ _ _ hu htaken =>
        Pool.next_potential (accounted_of_reachable hmalloc hcapacity hu) htaken.2) hreach
    rw [PoolEvent.sum_cost] at hpaid
    rw [mul_sub]
    omega
  · rintro hrest hrun ⟨worker, halive⟩
    exact (accounted_of_reachable hmalloc hcapacity hreach).handed_of_atRest hrest hrun halive

/-- One line, handed out to the one worker, which then rests. -/
theorem queued_lines_handed_out_one_line :
    let events : List (PoolEvent 1) := [.initialise 0 true, .enqueue (ascii "FETCH a" ++ [0]),
      .enter 0, .finish 0 [0], .enter 0]
    let start := Pool.fresh 1 (fun _ => List.replicate bufferSize 0) 1 fun _ => [0]
    ∃ t, events.foldlM Pool.next start = some t ∧ t.accepted = [ascii "FETCH a"] ∧
      t.handed.map Prod.snd = t.accepted := by
  intro events start
  refine ⟨_, rfl, by decide, ?_⟩
  refine (queued_lines_handed_out 1 (fun _ => List.replicate bufferSize 0)
    (fun _ => List.length_replicate) 1 (Nat.le_refl 1) _ ?_).2.2 ?_ rfl ⟨0, by decide⟩
  · exact .of_foldlM (fun _ _ _ hfit hstep => And.intro hfit hstep)
      (.start ⟨fun _ => [0], rfl⟩) events (by decide) rfl
  · exact Pool.atRest_iff.mpr (by decide)

/-- With `should_run` cleared nothing more is handed out in any run. Once shutdown was
broadcast, each worker makes at most two steps in any run; a run of steps of the workers
alone gets to the point where none of them can go on, and wherever none can, all of them
have left. The end of a job is a step of its worker here: every job is taken to end, also
one that writes to the FIFO, which nobody reads any more. -/
theorem shutdown_completes (workersCount : ℕ) (malloc : ℕ → Block)
    (hmalloc : ∀ i, (malloc i).length = bufferSize) (capacity : ℕ) (hcapacity : 1 ≤ capacity)
    (s : Pool workersCount) (hreach : (poolSystem workersCount malloc capacity).Reachable s)
    (hstop : s.shared.shouldRun = false) :
    (∀ events t, (poolSystem workersCount malloc capacity).Run s events t →
      t.handed = s.handed) ∧
      (s.broadcast = true →
        (∀ events t, (poolSystem workersCount malloc capacity).Run s events t →
          (∀ worker, events.countP (fun event => event.worker? = some worker) ≤ 2) ∧
            (t.AtRest → ∀ worker,
              (t.workers worker).status = .failed ∨ (t.workers worker).status = .exited)) ∧
          ∃ events t, (poolSystem workersCount malloc capacity).Run s events t ∧
            (∀ event ∈ events, PoolEvent.works event = true) ∧ t.AtRest) := by
  have haccounted : ∀ {u : Pool workersCount},
      (poolSystem workersCount malloc capacity).Reachable u → u.Accounted :=
    fun hu => accounted_of_reachable hmalloc hcapacity hu
  refine ⟨fun events t hrun => ?_, fun hbroadcast => ⟨fun events t hrun => ?_,
    Pool.exists_atRest hmalloc hcapacity hreach⟩⟩
  · have hkept := hrun.invariant
      (fun u => u.handed = s.handed ∧ u.shared.shouldRun = false)
      (fun u event v hu htaken => ?_) ⟨rfl, hstop⟩
    · exact hkept.1
    · obtain ⟨hhanded, hstill⟩ := Pool.handed_of_stop hu.2 htaken.2
      exact ⟨hhanded.trans hu.1, hstill⟩
  · have hstep : ∀ u event v,
        (poolSystem workersCount malloc capacity).Reachable u ∧ u.broadcast = true →
        (poolSystem workersCount malloc capacity).step u event v →
        (poolSystem workersCount malloc capacity).Reachable v ∧ v.broadcast = true :=
      fun u event v hu htaken =>
        ⟨hu.1.next htaken, Pool.broadcast_of_broadcast hu.2 htaken.2⟩
    refine ⟨fun worker => ?_, fun hrest worker => ?_⟩
    · have hfalls : ∀ u event v,
          (poolSystem workersCount malloc capacity).Reachable u ∧ u.broadcast = true →
          (poolSystem workersCount malloc capacity).step u event v →
          (v.workers worker).status.rank +
            (if decide (event.worker? = some worker) = true then 1 else 0) ≤
              (u.workers worker).status.rank + 0 := by
        intro u event v hu htaken
        simpa using Pool.rank_of_broadcast (haccounted hu.1) hu.2 htaken.2 worker
      -- no step brings anything in, so all are paid for by the rank at the start
      have hcount : (t.workers worker).status.rank +
          events.countP (fun event => event.worker? = some worker) ≤
            (s.workers worker).status.rank + (events.map fun _ => 0).sum :=
        hrun.paid hstep hfalls ⟨hreach, hbroadcast⟩
      have hnothing : (events.map fun _ => 0).sum = 0 := by simp
      have hbound := s.rank_le worker
      omega
    · have hstill := hrun.invariant _ hstep ⟨hreach, hbroadcast⟩
      exact (haccounted hstill.1).gone_of_atRest hrest hstill.2 worker

/-- Shutdown finds the one worker busy, which then leaves without the line that is queued. -/
theorem shutdown_completes_busy_worker :
    let events : List (PoolEvent 1) := [.initialise 0 true, .enqueue (ascii "FETCH a" ++ [0]),
      .enqueue (ascii "FETCH b" ++ [0]), .enter 0, .terminate, .testRun]
    let start := Pool.fresh 1 (fun _ => List.replicate bufferSize 0) 2 fun _ => [0]
    ∃ s t, events.foldlM Pool.next start = some s ∧
      [.finish 0 [0], .enter 0].foldlM Pool.next s = some t ∧ t.exited = 1 ∧
      t.handed = s.handed ∧ s.handed = [(0, ascii "FETCH a")] := by
  intro events start
  refine ⟨_, _, rfl, rfl, by decide, ?_, by decide⟩
  refine (shutdown_completes 1 (fun _ => List.replicate bufferSize 0)
    (fun _ => List.length_replicate) 2 (by decide) _ ?_ rfl).1 [.finish 0 [0], .enter 0] _ ?_
  · exact .of_foldlM (fun _ _ _ hfit hstep => And.intro hfit hstep)
      (.start ⟨fun _ => [0], rfl⟩) events (by decide) rfl
  · exact .cons ⟨trivial, rfl⟩ (.cons ⟨trivial, rfl⟩ (.nil _))

end EasyForetell
