import EasyForetell.Shutdown

/-!
# The mutex and the signal handler (queral.c, main, socket_cb and signal_handler)

`Process` refines the daemon down to the calls of `pthread_mutex_lock` and
`pthread_mutex_unlock`. The main thread locks the mutex in `should_socket_worker_run` and for
every line it queues, a worker for every turn of its loop. The handler locks it too, and it runs
in the main thread, which goes on only when the handler has returned. The workers block all
signals, and the handler itself runs with all signals blocked; the sections of the main thread
do not.

The mutex is not recursive, so a handler that interrupts one of these sections waits for the
thread it runs in.

## Main results

* `held_of_reachable`: who holds the mutex
* `pool_of_process`: the sections are a run of the pool
* `exists_next_of_waiting`: a handler that waits for a worker is let in
* `deadlock_iff_signal_in_section`: which signals deadlock the daemon
-/

namespace EasyForetell

open Memory Theory

/-- Who can hold the mutex. The handler holds it as the main thread. -/
inductive LockOwner (workersCount : ℕ)
  | main
  | worker (worker : Fin workersCount)
  deriving DecidableEq

/-- Where the main thread is, apart from the handler: out of its mutex sections, between
`pthread_mutex_lock` and the section, or between the section and `pthread_mutex_unlock`. -/
inductive LockPhase
  | outside
  | entered
  | leaving
  deriving DecidableEq

/-- Where `signal_handler` is: before `pthread_mutex_lock`, behind it, or before
`pthread_mutex_unlock`. -/
inductive HandlerPlace
  | locking
  | locked
  | unlocking
  deriving DecidableEq

/-- The process from the moment its handlers are installed. The watcher is active when `main`
has started it, and the handler is in no place while it does not run. -/
structure Process (workersCount : ℕ) where
  daemon : Daemon workersCount
  active : Bool
  mutex : Option (LockOwner workersCount)
  phase : LockPhase
  handler : Option HandlerPlace

/-- What happens next: the main thread goes on, a signal is delivered to it, its handler goes
on, another process writes to the FIFO, a worker locks the mutex, or it goes on. -/
inductive ProcessEvent (workersCount : ℕ)
  | main
  | signal
  | handler
  | write (bytes : List UInt8)
  | lock (worker : Fin workersCount)
  | worker (event : PoolEvent workersCount)

/-- The places at which the main thread locks the mutex. -/
def MainThread.locks : MainThread → Bool
  | .testing | .enqueueing _ => true
  | _ => false

/-- The worker that needs the mutex for an event. -/
def PoolEvent.lockedBy {workersCount : ℕ} : PoolEvent workersCount → Option (Fin workersCount)
  | .enter worker => some worker
  | _ => none

/-- The section of `signal_handler`. Nothing is written before the watcher is active. -/
def Daemon.handlerSection {workersCount : ℕ} (d : Daemon workersCount) (active : Bool) :
    Daemon workersCount :=
  if active then d.signalHandler
  else { d with pool := { d.pool with shared := { d.pool.shared with shouldRun := false } } }

namespace Process

variable {workersCount : ℕ}

/-- The state when the handlers are installed. -/
def fresh (d : Daemon workersCount) : Process workersCount := ⟨d, false, none, .outside, none⟩

/-- One step of the main thread, out of the handler. -/
def mainStep (p : Process workersCount) : Option (Process workersCount) :=
  if p.handler.isSome then none
  -- `main` up to `ev_io_start` locks nothing
  else if !p.active then some { p with active := true }
  else
    match p.phase with
    | .outside =>
      if p.daemon.main.locks then
        if p.mutex = none then some { p with mutex := some .main, phase := .entered } else none
      else p.daemon.mainStep.map fun d => { p with daemon := d }
    | .entered => p.daemon.mainStep.map fun d => { p with daemon := d, phase := .leaving }
    | .leaving => some { p with mutex := none, phase := .outside }

/-- One step of `signal_handler`. -/
def handlerStep (p : Process workersCount) : Option (Process workersCount) :=
  match p.handler with
  | none => none
  | some .locking =>
    -- the mutex is not recursive: whoever holds it, the handler waits
    if p.mutex = none then some { p with mutex := some .main, handler := some .locked } else none
  | some .locked =>
    some { p with daemon := p.daemon.handlerSection p.active, handler := some .unlocking }
  | some .unlocking => some { p with mutex := none, handler := none }

/-- One step of a worker. It leaves its section with `pthread_mutex_unlock`, or in
`pthread_cond_wait`. -/
def workerStep (p : Process workersCount) (event : PoolEvent workersCount) :
    Option (Process workersCount) :=
  match event.lockedBy with
  | some worker =>
    if p.mutex = some (.worker worker) then
      (p.daemon.next (.worker event)).map fun d => { p with daemon := d, mutex := none }
    else none
  | none => (p.daemon.next (.worker event)).map fun d => { p with daemon := d }

/-- One step of the process. -/
def next (p : Process workersCount) : ProcessEvent workersCount → Option (Process workersCount)
  | .main => p.mainStep
  -- `sa_mask` keeps further signals pending while the handler runs
  | .signal => if p.handler.isSome then none else some { p with handler := some .locking }
  | .handler => p.handlerStep
  | .write bytes => (p.daemon.next (.write bytes)).map fun d => { p with daemon := d }
  | .lock worker =>
    if p.mutex = none ∧ (p.daemon.pool.workers worker).status = .contending then
      some { p with mutex := some (.worker worker) }
    else none
  | .worker event => p.workerStep event

end Process

/-- The interleavings of the main thread, its handler, the writers and the workers. -/
def processSystem (workersCount : ℕ) (malloc : ℕ → Block) (capacity : ℕ) :
    TransitionSystem (Process workersCount) (ProcessEvent workersCount) where
  init p := ∃ job, p = .fresh (.fresh (.fresh workersCount malloc capacity job))
  step p event q := p.next event = some q

namespace Process

variable {workersCount : ℕ} {malloc : ℕ → Block} {capacity : ℕ} {p q : Process workersCount}
  {event : ProcessEvent workersCount}

/-! ### What a step can do -/

/-- The steps of the process, branch by branch. -/
inductive Step (p : Process workersCount) : ProcessEvent workersCount → Process workersCount → Prop
  | start (hidle : p.handler = none) (hactive : p.active = false) :
      Step p .main { p with active := true }
  | lock (hidle : p.handler = none) (hphase : p.phase = .outside) (hfree : p.mutex = none) :
      Step p .main { p with mutex := some .main, phase := .entered }
  | own (hidle : p.handler = none) (hphase : p.phase = .outside)
      (hlocks : p.daemon.main.locks = false) {d : Daemon workersCount}
      (hdaemon : p.daemon.next .main = some d) : Step p .main { p with daemon := d }
  | work (hidle : p.handler = none) (hphase : p.phase = .entered) {d : Daemon workersCount}
      (hdaemon : p.daemon.next .main = some d) :
      Step p .main { p with daemon := d, phase := .leaving }
  | unlock (hidle : p.handler = none) (hphase : p.phase = .leaving) :
      Step p .main { p with mutex := none, phase := .outside }
  | interrupt (hidle : p.handler = none) : Step p .signal { p with handler := some .locking }
  | handlerLock (hplace : p.handler = some .locking) (hfree : p.mutex = none) :
      Step p .handler { p with mutex := some .main, handler := some .locked }
  | handlerWork (hplace : p.handler = some .locked) :
      Step p .handler { p with
        daemon := p.daemon.handlerSection p.active, handler := some .unlocking }
  | handlerUnlock (hplace : p.handler = some .unlocking) :
      Step p .handler { p with mutex := none, handler := none }
  | write {bytes : List UInt8} {d : Daemon workersCount}
      (hdaemon : p.daemon.next (.write bytes) = some d) :
      Step p (.write bytes) { p with daemon := d }
  | workerLock {worker : Fin workersCount} (hfree : p.mutex = none)
      (hstatus : (p.daemon.pool.workers worker).status = .contending) :
      Step p (.lock worker) { p with mutex := some (.worker worker) }
  | workerWork {worker : Fin workersCount} (hholds : p.mutex = some (.worker worker))
      {d : Daemon workersCount} (hdaemon : p.daemon.next (.worker (.enter worker)) = some d) :
      Step p (.worker (.enter worker)) { p with daemon := d, mutex := none }
  | workerOwn {event : PoolEvent workersCount} (hlocked : event.lockedBy = none)
      {d : Daemon workersCount} (hdaemon : p.daemon.next (.worker event) = some d) :
      Step p (.worker event) { p with daemon := d }

theorem Step.of_mainStep (hstep : p.mainStep = some q) : p.Step .main q := by
  unfold mainStep at hstep
  by_cases hbusy : p.handler.isSome = true
  · rw [if_pos hbusy] at hstep
    cases hstep
  have hidle : p.handler = none := by simpa using hbusy
  rw [if_neg hbusy] at hstep
  by_cases hactive : (!p.active) = true
  · rw [if_pos hactive] at hstep
    obtain rfl := Option.some.inj hstep
    exact .start hidle (by simpa using hactive)
  rw [if_neg hactive] at hstep
  cases hphase : p.phase with
  | outside =>
    -- it takes the mutex if its step needs it, and else goes on
    rw [hphase] at hstep
    dsimp only at hstep
    split_ifs at hstep with hlocks hfree
    · obtain rfl := Option.some.inj hstep
      exact .lock hidle hphase hfree
    · obtain ⟨d, hdaemon, rfl⟩ := Option.map_eq_some_iff.mp hstep
      exact hphase ▸ .own hidle hphase (by simpa using hlocks) hdaemon
  | entered =>
    rw [hphase] at hstep
    obtain ⟨d, hdaemon, rfl⟩ := Option.map_eq_some_iff.mp hstep
    exact .work hidle hphase hdaemon
  | leaving =>
    rw [hphase] at hstep
    obtain rfl := Option.some.inj hstep
    exact .unlock hidle hphase

theorem Step.of_next (hstep : p.next event = some q) : p.Step event q := by
  cases event with
  | main => exact .of_mainStep hstep
  | signal =>
    simp only [next] at hstep
    split_ifs at hstep with hbusy
    obtain rfl := Option.some.inj hstep
    exact .interrupt (by simpa using hbusy)
  | handler =>
    simp only [next, handlerStep] at hstep
    split at hstep
    case h_1 => cases hstep
    case h_2 hplace =>
      split_ifs at hstep with hfree
      obtain rfl := Option.some.inj hstep
      exact .handlerLock hplace hfree
    case h_3 hplace =>
      obtain rfl := Option.some.inj hstep
      exact .handlerWork hplace
    case h_4 hplace =>
      obtain rfl := Option.some.inj hstep
      exact .handlerUnlock hplace
  | write bytes =>
    simp only [next] at hstep
    obtain ⟨d, hdaemon, rfl⟩ := Option.map_eq_some_iff.mp hstep
    exact .write hdaemon
  | lock worker =>
    simp only [next] at hstep
    split_ifs at hstep with hready
    obtain rfl := Option.some.inj hstep
    exact .workerLock hready.1 hready.2
  | worker event =>
    simp only [next, workerStep] at hstep
    cases event with
    | enter worker =>
      simp only [PoolEvent.lockedBy] at hstep
      split_ifs at hstep with hholds
      obtain ⟨d, hdaemon, rfl⟩ := Option.map_eq_some_iff.mp hstep
      exact .workerWork hholds hdaemon
    | _ =>
      obtain ⟨d, hdaemon, rfl⟩ := Option.map_eq_some_iff.mp hstep
      exact .workerOwn rfl hdaemon

/-! ### Who holds the mutex -/

/-- The handler is between `pthread_mutex_lock` and `pthread_mutex_unlock`. -/
def HandlerHolds (p : Process workersCount) : Prop :=
  p.handler = some .locked ∨ p.handler = some .unlocking

/-- The main thread holds the mutex in its sections and in those of its handler, which are
apart; a worker holds it in front of its section. -/
structure Held (p : Process workersCount) : Prop where
  main : p.mutex = some .main ↔ p.phase ≠ .outside ∨ p.HandlerHolds
  apart : p.HandlerHolds → p.phase = .outside
  worker : ∀ worker, p.mutex = some (.worker worker) →
    (p.daemon.pool.workers worker).status = .contending
  ordered : p.daemon.Ordered

/-- Out of its sections the main thread does not touch what the mutex protects. -/
theorem pool_of_own {d e : Daemon workersCount} (hlocks : d.main.locks = false)
    (hdaemon : d.next .main = some e) : e.pool = d.pool := by
  cases Daemon.MainStep.of_mainStep hdaemon with
  | test hmain | refuse hmain | accept hmain =>
    rw [hmain] at hlocks
    cases hlocks
  | _ => rfl

/-- A worker that contends for the mutex goes on only in its own section. -/
theorem contending_of_next {s t : Pool workersCount} {event : PoolEvent workersCount}
    (hstep : s.next event = some t) {worker : Fin workersCount} (hother : event ≠ .enter worker)
    (hstatus : (s.workers worker).status = .contending) :
    (t.workers worker).status = .contending := by
  have hwoken : (Pool.wakeAll s.workers worker).status = .contending := by
    simp [Pool.wakeAll, WorkerThread.wake, hstatus]
  cases event with
  | enqueue line | testRun =>
    simp only [Pool.next] at hstep
    split_ifs at hstep
    all_goals obtain rfl := Option.some.inj hstep
    · exact hstatus
    · exact hwoken
  | terminate =>
    obtain rfl := Option.some.inj hstep
    exact hstatus
  | enter entered =>
    simp only [Pool.next, Option.ite_none_right_eq_some, Option.some.injEq] at hstep
    obtain ⟨-, rfl⟩ := hstep
    have hne : worker ≠ entered := by
      rintro rfl
      exact hother rfl
    rw [Pool.workers_enterSection_of_ne s hne]
    exact hstatus
  | initialise moved connected | wakeUp moved | finish moved job =>
    simp only [Pool.next, Option.ite_none_right_eq_some, Option.some.injEq] at hstep
    obtain ⟨hmoved, rfl⟩ := hstep
    -- the worker that moves is not the one that contends
    have hne : worker ≠ moved := by
      rintro rfl
      rw [hmoved] at hstatus
      cases hstatus
    rw [Pool.workers_setStatus_of_ne s hne]
    exact hstatus

/-- Nobody holds the mutex when the handlers are installed. -/
theorem held_fresh (job : Fin workersCount → Block) :
    (fresh (.fresh (.fresh workersCount malloc capacity job))).Held where
  main := by simp [fresh, HandlerHolds]
  apart := by simp [fresh]
  worker := by simp [fresh]
  ordered := Daemon.ordered_fresh _ rfl

theorem ordered_handlerSection {d : Daemon workersCount} (h : d.Ordered) (active : Bool) :
    (d.handlerSection active).Ordered := by
  cases active with
  | true => exact h.of_stopped _
  | false => exact h.of_stopped d.fifo

/-- A step keeps the mutex in order, wherever a signal arrives. -/
theorem Held.of_step (h : p.Held) (hstep : p.Step event q) : q.Held := by
  obtain ⟨hmain, hapart, hworker, hordered⟩ := h
  cases hstep with
  | start => exact ⟨hmain, hapart, hworker, hordered⟩
  | lock hidle hphase hfree =>
    exact ⟨by simp, by simp [HandlerHolds, hidle], by simp, hordered⟩
  | own hidle hphase hlocks hdaemon =>
    exact ⟨hmain, hapart, by simpa only [pool_of_own hlocks hdaemon] using hworker,
      hordered.of_next hdaemon⟩
  | work hidle hphase hdaemon =>
    have hholds : p.mutex = some .main := hmain.mpr (Or.inl (by simp [hphase]))
    exact ⟨by simp [hholds], by simp [HandlerHolds, hidle], by simp [hholds],
      hordered.of_next hdaemon⟩
  | unlock hidle hphase =>
    exact ⟨by simp [HandlerHolds, hidle], by simp, by simp, hordered⟩
  | interrupt hidle =>
    have hnot : ¬ p.HandlerHolds := by simp [HandlerHolds, hidle]
    rw [or_iff_left hnot] at hmain
    exact ⟨by simpa [HandlerHolds] using hmain, by simp [HandlerHolds], hworker, hordered⟩
  | handlerLock hplace hfree =>
    -- the mutex was free, so the main thread is out of its sections
    have hphase : p.phase = .outside := by
      by_contra hinside
      rw [hmain.mpr (Or.inl hinside)] at hfree
      cases hfree
    exact ⟨by simp [HandlerHolds], fun _ => hphase, by simp, hordered⟩
  | handlerWork hplace =>
    have hholds : p.mutex = some .main := hmain.mpr (Or.inr (Or.inl hplace))
    exact ⟨by simp [HandlerHolds, hholds], fun _ => hapart (Or.inl hplace), by simp [hholds],
      ordered_handlerSection hordered _⟩
  | handlerUnlock hplace =>
    have hphase := hapart (Or.inr hplace)
    exact ⟨by simp [HandlerHolds, hphase], fun _ => hphase, by simp, hordered⟩
  | write hdaemon =>
    refine ⟨hmain, hapart, ?_, hordered.of_next hdaemon⟩
    obtain rfl := Option.some.inj hdaemon
    exact hworker
  | workerLock hfree hstatus =>
    rw [hfree] at hmain
    refine ⟨by simpa [HandlerHolds] using hmain, hapart, ?_, hordered⟩
    rintro worker heq
    obtain rfl := LockOwner.worker.inj (Option.some.inj heq)
    exact hstatus
  | workerWork hholds hdaemon =>
    rw [hholds] at hmain
    exact ⟨by simpa [HandlerHolds] using hmain, hapart, by simp, hordered.of_next hdaemon⟩
  | workerOwn hlocked hdaemon =>
    refine ⟨hmain, hapart, fun worker hholds => ?_, hordered.of_next hdaemon⟩
    obtain ⟨pool, -, hpool, rfl, -, -⟩ := Daemon.worker_cases hdaemon
    refine contending_of_next hpool ?_ (hworker worker hholds)
    rintro rfl
    cases hlocked

theorem held_of_reachable (hreach : (processSystem workersCount malloc capacity).Reachable p) :
    p.Held := by
  refine hreach.invariant ?_ ?_
  · rintro _ ⟨job, rfl⟩
    exact held_fresh job
  · intro p event q _ h hstep
    exact h.of_step (.of_next hstep)

/-- The sections of the process are a run of the pool, so what holds in every reachable state of
the pool holds of the process, wherever the signals arrive. -/
theorem simulation_pool (workersCount : ℕ) (malloc : ℕ → Block) (capacity : ℕ) :
    (processSystem workersCount malloc capacity).Simulation
      (poolSystem workersCount malloc capacity) fun p => p.daemon.pool where
  init := by
    rintro _ ⟨job, rfl⟩
    exact ⟨job, rfl⟩
  step := by
    intro p event q hreach hstep
    have hordered := (held_of_reachable hreach).ordered
    cases Step.of_next hstep with
    | own _ _ _ hdaemon | work _ _ hdaemon | write hdaemon | workerWork _ hdaemon
    | workerOwn _ hdaemon => exact hordered.pool_next hdaemon
    | handlerWork hplace =>
      refine Or.inr ⟨.terminate, trivial, ?_⟩
      cases p.active <;> rfl
    | _ => exact Or.inl rfl

/-! ### When the handler deadlocks -/

/-- The handler waits for the mutex that the main thread holds. It has not locked the mutex
itself, so the code it interrupted has. -/
def Deadlocked (p : Process workersCount) : Prop :=
  p.handler = some .locking ∧ p.mutex = some .main

/-- A signal arrives while the main thread is out of its mutex sections. -/
def SignalsOutside (p : Process workersCount) (event : ProcessEvent workersCount) : Prop :=
  event = .signal → p.phase = .outside

/-- A handler that waits, but not for the thread it runs in, is let in: the mutex is free, or
the worker that holds it can leave its section. -/
theorem exists_next_of_waiting
    (hreach : (processSystem workersCount malloc capacity).Reachable p)
    (hplace : p.handler = some .locking) (hlive : ¬ p.Deadlocked) :
    (∃ q, p.next .handler = some q) ∨
      ∃ worker q, p.next (.worker (.enter worker)) = some q ∧ q.mutex = none := by
  cases hmutex : p.mutex with
  | none => exact Or.inl ⟨_, by simp only [next, handlerStep, hplace, hmutex, if_true]; rfl⟩
  | some owner =>
    cases owner with
    | main => exact absurd ⟨hplace, hmutex⟩ hlive
    | worker worker =>
      have hstatus := (held_of_reachable hreach).worker worker hmutex
      refine Or.inr ⟨worker, { p with
        daemon := { p.daemon with pool := p.daemon.pool.enterSection worker }, mutex := none }, ?_,
        rfl⟩
      simp [next, workerStep, PoolEvent.lockedBy, hmutex, Daemon.next, PoolEvent.ofWorker,
        Pool.next, hstatus]

/-- The handler has interrupted the main thread out of its mutex sections. -/
def HandledOutside (p : Process workersCount) : Prop :=
  p.handler ≠ none → p.phase = .outside

theorem handledOutside_of_reachable
    (hreach : ((processSystem workersCount malloc capacity).restrict SignalsOutside).Reachable p) :
    p.HandledOutside := by
  refine hreach.invariant ?_ ?_
  · rintro _ ⟨job, rfl⟩ hrunning
    exact absurd rfl hrunning
  · intro p event q _ h ⟨hstep, hallowed⟩ hrunning
    cases Step.of_next hstep with
    | start hidle | lock hidle | own hidle | work hidle | unlock hidle =>
      exact absurd hidle hrunning
    | interrupt => exact hallowed rfl
    | handlerLock hplace | handlerWork hplace | handlerUnlock hplace => exact h (by simp [hplace])
    | write | workerLock | workerWork | workerOwn => exact h hrunning

theorem not_deadlocked
    (hreach : ((processSystem workersCount malloc capacity).restrict SignalsOutside).Reachable p) :
    ¬ p.Deadlocked := by
  rintro ⟨hplace, hholds⟩
  have hphase := handledOutside_of_reachable hreach (by simp [hplace])
  rcases (held_of_reachable hreach.of_restrict).main.mp hholds with hinside | hlocked | hunlocking
  · exact hinside hphase
  · rw [hplace] at hlocked
    cases hlocked
  · rw [hplace] at hunlocking
    cases hunlocking

/-- A deadlocked process stays deadlocked, with the main thread where it is. -/
theorem Deadlocked.of_step (h : p.Deadlocked) (hstep : p.Step event q) :
    q.Deadlocked ∧ q.daemon.main = p.daemon.main := by
  obtain ⟨hplace, hholds⟩ := h
  cases hstep with
  -- the main thread is in its handler
  | start hidle | lock hidle | own hidle | work hidle | unlock hidle | interrupt hidle =>
    rw [hplace] at hidle
    cases hidle
  -- the mutex is not free, and no worker holds it
  | handlerLock _ hfree | workerLock hfree =>
    rw [hholds] at hfree
    cases hfree
  | handlerWork hother | handlerUnlock hother =>
    rw [hplace] at hother
    cases hother
  | workerWork hother =>
    rw [hholds] at hother
    cases hother
  | write hdaemon =>
    obtain rfl := Option.some.inj hdaemon
    exact ⟨⟨hplace, hholds⟩, rfl⟩
  | workerOwn hlocked hdaemon =>
    obtain ⟨pool, -, -, rfl, -, -⟩ := Daemon.worker_cases hdaemon
    exact ⟨⟨hplace, hholds⟩, rfl⟩

/-- A signal in a section of the main thread deadlocks the process for good. -/
theorem deadlocked_of_signal
    (hreach : (processSystem workersCount malloc capacity).Reachable p)
    (hinside : p.phase ≠ .outside) (hstep : p.next .signal = some q) {r : Process workersCount}
    (hrun : (processSystem workersCount malloc capacity).LeadsTo q r) :
    r.Deadlocked ∧ r.daemon.main = p.daemon.main := by
  have hholds := (held_of_reachable hreach).main.mpr (Or.inl hinside)
  refine hrun.stays (fun r => r.Deadlocked ∧ r.daemon.main = p.daemon.main) ?_ ?_
  · intro s event t ⟨hdead, hmain⟩ htaken
    obtain ⟨hstays, hkept⟩ := hdead.of_step (.of_next htaken)
    exact ⟨hstays, hkept.trans hmain⟩
  · cases Step.of_next hstep with
    | interrupt => exact ⟨⟨rfl, hholds⟩, rfl⟩

end Process

/-- In a run in which every signal arrives while the main thread is out of its mutex sections
the handler never waits for the thread it interrupted; and every other signal that is delivered
makes it wait for ever. -/
theorem deadlock_iff_signal_in_section (workersCount : ℕ) (malloc : ℕ → Block) (capacity : ℕ) :
    (∀ p, ((processSystem workersCount malloc capacity).restrict
        Process.SignalsOutside).Reachable p → ¬ p.Deadlocked) ∧
      ∀ p q, (processSystem workersCount malloc capacity).Reachable p → p.phase ≠ .outside →
        p.next .signal = some q →
        ∀ r, (processSystem workersCount malloc capacity).LeadsTo q r →
          r.Deadlocked ∧ r.daemon.main = p.daemon.main :=
  ⟨fun _ hreach => Process.not_deadlocked hreach, fun _ _ hreach hinside hstep _ hrun =>
    Process.deadlocked_of_signal hreach hinside hstep hrun⟩

/-- A signal between `pthread_mutex_lock` and the test of `should_run`, in the call that a byte
in the FIFO brings about. -/
theorem signal_deadlocks_in_section :
    let events : List (ProcessEvent 1) := [.main, .write [120], .main, .main, .signal]
    let start := Process.fresh (Daemon.fresh (Pool.fresh 1 (fun _ => List.replicate bufferSize 0)
      queueCapacity fun _ => [0]))
    ∃ p, events.foldlM Process.next start = some p ∧
      (processSystem 1 (fun _ => List.replicate bufferSize 0) queueCapacity).Reachable p ∧
      p.Deadlocked := by
  intro events start
  refine ⟨_, rfl, ?_, rfl, rfl⟩
  have hstep : ∀ (p : Process 1) event q, True → p.next event = some q →
      (processSystem 1 (fun _ => List.replicate bufferSize 0) queueCapacity).step p event q :=
    fun _ _ _ _ htaken => htaken
  exact .of_foldlM hstep (.start ⟨fun _ => [0], rfl⟩) events (fun _ _ => trivial) rfl

end EasyForetell
