import EasyForetell.SignalDeadlock

/-!
# What lives how long (queral.c, main)

`Program` is the process together with where `main` is, from the moment its handlers are
installed to its return. `main` creates the workers before it has initialised the queue
they take their jobs from, and frees everything the threads share after it has joined them;
the workers are kept off the queue by `url_count`, which stays zero until the event loop
runs. The signal handler is held back by nothing, though its mutex comes after it and goes
before it.

## Main results

* `ordered_of_reachable`: what holds at which place of `main`
* `lifetimes_respected`: the threads use what they share only while it is there
-/

namespace EasyForetell

open Memory Theory

/-- Where `main` is: before `malloc` of the pool, before `pthread_mutex_init`, before
`pthread_cond_init`, before the thread of a worker is created, before `fifo_init`, before
the watcher is started, in the event loop, before a worker is joined, before the pool is
freed, before `fifo_destroy`, before `pthread_cond_destroy`, before `pthread_mutex_destroy`,
before the tables of the configuration are freed, or behind that. -/
inductive MainPlace
  | installed
  | allocated
  | locking
  | creating (worker : ℕ)
  | queueing
  | watching
  | running
  | joining (worker : ℕ)
  | freeing
  | unqueueing
  | unwaiting
  | unlocking
  | clearing
  | returned
  deriving DecidableEq

namespace MainPlace

/-- The pool of `worker_t`. -/
def poolLive : MainPlace → Bool
  | installed | unqueueing | unwaiting | unlocking | clearing | returned => false
  | _ => true

def mutexLive : MainPlace → Bool
  | installed | allocated | clearing | returned => false
  | _ => true

def condLive : MainPlace → Bool
  | installed | allocated | locking | unlocking | clearing | returned => false
  | _ => true

def queueLive : MainPlace → Bool
  | watching | running | joining _ | freeing | unqueueing => true
  | _ => false

/-- `actions`, `memcached_servers` and the configuration. -/
def tablesLive : MainPlace → Bool
  | returned => false
  | _ => true

/-- `socket_worker.fifo_filename`, which nobody frees. -/
def filenameLive : MainPlace → Bool
  | installed | allocated | locking | creating _ | queueing | watching => false
  | _ => true

/-- The workers whose threads `main` has tried to create. -/
def Past : MainPlace → ℕ → Prop
  | installed, _ | allocated, _ | locking, _ => False
  | creating worker, i => i < worker
  | _, _ => True

/-- The workers that `main` has joined. -/
def Joined : MainPlace → ℕ → Prop
  | joining worker, i => i < worker
  | freeing, _ | unqueueing, _ | unwaiting, _ | unlocking, _ | clearing, _ | returned, _ => True
  | _, _ => False

/-- The event loop was started. -/
def Started : MainPlace → Prop
  | installed | allocated | locking | creating _ | queueing | watching => False
  | _ => True

/-- The event loop is over. -/
def Over : MainPlace → Prop
  | joining _ | freeing | unqueueing | unwaiting | unlocking | clearing | returned => True
  | _ => False

end MainPlace

/-- The process, where `main` is, and the workers that `pthread_create` made threads for. -/
structure Program (workersCount : ℕ) where
  process : Process workersCount
  place : MainPlace
  threads : Fin workersCount → Bool

/-- What happens next: the main thread goes on, with the outcome of `pthread_create` where it
calls that, or somebody else does. -/
inductive ProgramEvent (workersCount : ℕ)
  | main (created : Bool)
  | other (event : ProcessEvent workersCount)

namespace Program

variable {workersCount : ℕ}

/-- The state when the handlers are installed. -/
def fresh (process : Process workersCount) : Program workersCount :=
  ⟨process, .installed, fun _ => false⟩

/-- A worker that is in its loop or on the way there. -/
def Present (p : Program workersCount) (worker : Fin workersCount) : Prop :=
  p.threads worker = true ∧ (p.process.daemon.pool.workers worker).status ≠ .failed ∧
    (p.process.daemon.pool.workers worker).status ≠ .exited

instance (p : Program workersCount) (worker : Fin workersCount) : Decidable (p.Present worker) :=
  inferInstanceAs (Decidable (_ ∧ _))

/-- One step of the main thread, out of the handler. -/
def mainStep (p : Program workersCount) (created : Bool) : Option (Program workersCount) :=
  match p.place with
  | .installed => some { p with place := .allocated }
  | .allocated => some { p with place := .locking }
  | .locking => some { p with place := .creating 0 }
  | .creating i =>
    if h : i < workersCount then
      some { p with place := .creating (i + 1), threads := Function.update p.threads ⟨i, h⟩ created }
    else some { p with place := .queueing }
  | .queueing => some { p with place := .watching }
  | .watching => p.process.mainStep.map fun process => { p with process, place := .running }
  | .running =>
    if p.process.daemon.main = .left then some { p with place := .joining 0 }
    else p.process.mainStep.map fun process => { p with process }
  | .joining i =>
    if h : i < workersCount then
      if p.Present ⟨i, h⟩ then none else some { p with place := .joining (i + 1) }
    else some { p with place := .freeing }
  | .freeing => some { p with place := .unqueueing }
  | .unqueueing => some { p with place := .unwaiting }
  | .unwaiting => some { p with place := .unlocking }
  | .unlocking => some { p with place := .clearing }
  | .clearing => some { p with place := .returned }
  | .returned => none

/-- Which steps of the others there can be: those of the workers that have a thread, and any of
the handler and of other processes. -/
def allows (p : Program workersCount) : ProcessEvent workersCount → Bool
  | .main => false
  | .lock worker => p.threads worker
  | .worker event => event.worker?.all p.threads
  | .signal | .handler | .write _ => true

/-- One step of the program. -/
def next (p : Program workersCount) : ProgramEvent workersCount → Option (Program workersCount)
  | .main created => if p.process.handler.isSome then none else p.mainStep created
  | .other event =>
    if p.allows event then (p.process.next event).map fun process => { p with process } else none

/-- A step that reads or writes the queue: the main thread queues a line, or a worker takes
one. -/
def UsesQueue (p : Program workersCount) : ProgramEvent workersCount → Prop
  | .main _ => p.place = .running ∧ p.process.phase = .entered ∧
    ∃ found, p.process.daemon.main = .enqueueing found
  | .other (.worker (.enter _)) => 1 ≤ p.process.daemon.pool.shared.urlCount ∧
    p.process.daemon.pool.shared.shouldRun = true
  | .other _ => False

end Program

/-- The interleavings of `main`, its handler, the writers and the workers. -/
def programSystem (workersCount : ℕ) (malloc : ℕ → Block) (capacity : ℕ) :
    TransitionSystem (Program workersCount) (ProgramEvent workersCount) where
  init p := ∃ job, p = .fresh (.fresh (.fresh (.fresh workersCount malloc capacity job)))
  step p event q := p.next event = some q

namespace Program

variable {workersCount : ℕ} {malloc : ℕ → Block} {capacity : ℕ} {p q : Program workersCount}
  {event : ProgramEvent workersCount} {worker : Fin workersCount}

/-! ### What holds at which place -/

/-- The threads are those `main` has created; until then their workers have not moved. The
watcher is started at its place, and before it nothing was counted for the workers and none
has a job. The event loop is over when `main` has left it, and a worker that was joined is gone. -/
structure Ordered (p : Program workersCount) : Prop where
  created : ∀ i, p.threads i = true → p.place.Past i
  unborn : ∀ i, p.threads i = false → (p.process.daemon.pool.workers i).status = .starting
  active : p.process.active = true ↔ p.place.Started
  uncounted : ¬ p.place.Started → p.process.daemon.pool.shared.urlCount = 0 ∧
    ∀ i, (p.process.daemon.pool.workers i).status ≠ .busy
  loopLeft : p.place.Over → p.process.daemon.main = .left
  joined : ∀ i : Fin workersCount, p.place.Joined i → ¬ p.Present i

/-- What the others can do to the process: the handler clears `should_run`, a worker makes its
step, and the rest leaves the pool alone. -/
theorem other_cases {s t : Process workersCount} {event : ProcessEvent workersCount}
    (hother : event ≠ .main) (hstep : s.next event = some t) :
    (t.active = s.active ∧ t.daemon.main = s.daemon.main) ∧
      (t.daemon.pool = s.daemon.pool ∨
        t.daemon.pool = { s.daemon.pool with
          shared := { s.daemon.pool.shared with shouldRun := false } } ∨
        ∃ step : PoolEvent workersCount, event = .worker step ∧ step.ofWorker = true ∧
          s.daemon.pool.next step = some t.daemon.pool) := by
  have hworker : ∀ {step : PoolEvent workersCount} {d : Daemon workersCount},
      s.daemon.next (.worker step) = some d →
        d.main = s.daemon.main ∧ step.ofWorker = true ∧ s.daemon.pool.next step = some d.pool := by
    intro step d hdaemon
    simp only [Daemon.next] at hdaemon
    split_ifs at hdaemon with hof
    obtain ⟨pool, hpool, rfl⟩ := Option.map_eq_some_iff.mp hdaemon
    exact ⟨rfl, hof, hpool⟩
  cases Process.Step.of_next hstep with
  -- only steps of the main thread move it
  | start | lock | own | work | unlock => exact absurd rfl hother
  | interrupt | handlerLock | handlerUnlock | workerLock => exact ⟨⟨rfl, rfl⟩, Or.inl rfl⟩
  | handlerWork hplace =>
    cases hactive : s.active with
    | true => exact ⟨⟨rfl, rfl⟩, Or.inr (Or.inl rfl)⟩
    | false => exact ⟨⟨rfl, rfl⟩, Or.inr (Or.inl rfl)⟩
  | write hdaemon =>
    obtain rfl := Option.some.inj hdaemon
    exact ⟨⟨rfl, rfl⟩, Or.inl rfl⟩
  | workerWork hholds hdaemon =>
    obtain ⟨hmain, hof, hpool⟩ := hworker hdaemon
    exact ⟨⟨rfl, hmain⟩, Or.inr (Or.inr ⟨_, rfl, hof, hpool⟩)⟩
  | workerOwn hlocked hdaemon =>
    obtain ⟨hmain, hof, hpool⟩ := hworker hdaemon
    exact ⟨⟨rfl, hmain⟩, Or.inr (Or.inr ⟨_, rfl, hof, hpool⟩)⟩

end Program

namespace Pool

variable {workersCount : ℕ} {s t : Pool workersCount} {event : PoolEvent workersCount}

/-- A worker that is gone makes no step. -/
theorem present_of_step (hstep : s.next event = some t) {i : Fin workersCount}
    (hworker : event.worker? = some i) :
    (s.workers i).status ≠ .failed ∧ (s.workers i).status ≠ .exited := by
  cases event with
  | initialise worker connected | enter worker | wakeUp worker | finish worker job =>
    obtain rfl := Option.some.inj hworker
    simp only [next, Option.ite_none_right_eq_some] at hstep
    simp [hstep.1]
  | enqueue line | testRun | terminate => cases hworker

/-- With nothing counted for them the workers leave the shared variables alone. -/
theorem shared_of_uncounted (hzero : s.shared.urlCount = 0) (hworker : event.ofWorker = true)
    (hstep : s.next event = some t) : t.shared = s.shared := by
  cases event with
  | initialise worker connected | wakeUp worker | finish worker job =>
    simp only [next, Option.ite_none_right_eq_some, Option.some.injEq] at hstep
    obtain ⟨-, rfl⟩ := hstep
    rfl
  | enter worker =>
    simp only [next, Option.ite_none_right_eq_some, Option.some.injEq] at hstep
    obtain ⟨-, rfl⟩ := hstep
    change (workerSection s.shared (s.workers worker).job).shared = s.shared
    rw [workerSection_of_empty (by omega)]
  | enqueue line | testRun | terminate => cases hworker

/-- And none of them gets a job. -/
theorem idle_of_uncounted (hzero : s.shared.urlCount = 0)
    (hidle : ∀ i, (s.workers i).status ≠ .busy) (hworker : event.ofWorker = true)
    (hstep : s.next event = some t) (i : Fin workersCount) : (t.workers i).status ≠ .busy := by
  by_cases hmoves : event.worker? = some i
  · cases event with
    | initialise worker connected | wakeUp worker | finish worker job =>
      obtain rfl := Option.some.inj hmoves
      simp only [next, Option.ite_none_right_eq_some, Option.some.injEq] at hstep
      obtain ⟨-, rfl⟩ := hstep
      rw [workers_setStatus_self]
      first | (cases connected <;> simp) | simp
    | enter worker =>
      obtain rfl := Option.some.inj hmoves
      simp only [next, Option.ite_none_right_eq_some, Option.some.injEq] at hstep
      obtain ⟨-, rfl⟩ := hstep
      rw [workers_enterSection_self]
      dsimp only
      rw [workerSection_of_empty (by omega)]
      simp
    | enqueue line | testRun | terminate => cases hworker
  · rw [status_of_other hworker hstep hmoves]
    exact hidle i

end Pool

namespace Program

variable {workersCount : ℕ} {malloc : ℕ → Block} {capacity : ℕ} {p q : Program workersCount}
  {event : ProgramEvent workersCount} {worker : Fin workersCount}

theorem ordered_fresh (job : Fin workersCount → Block) :
    (fresh (.fresh (.fresh (.fresh workersCount malloc capacity job)))).Ordered := by
  constructor
  case created => simp [fresh]
  case unborn => exact fun _ _ => rfl
  case active => simp [fresh, Process.fresh, MainPlace.Started]
  case uncounted =>
    refine fun _ => ⟨rfl, fun i hbusy => ?_⟩
    cases hbusy
  case loopLeft => simp [fresh, MainPlace.Over]
  case joined => simp [fresh, MainPlace.Joined]

theorem Ordered.of_other (h : p.Ordered) {event : ProcessEvent workersCount}
    (hallowed : p.allows event = true) {process : Process workersCount}
    (hstep : p.process.next event = some process) : Ordered { p with process } := by
  have hother : event ≠ .main := by
    rintro rfl
    cases hallowed
  obtain ⟨⟨hactive, hmain⟩, hpool⟩ := other_cases hother hstep
  -- a worker that moves has a thread
  have hthread : ∀ {step : PoolEvent workersCount} {i}, event = .worker step →
      step.worker? = some i → p.threads i = true := by
    rintro step i rfl hworker
    simpa [allows, hworker] using hallowed
  constructor
  case created => exact h.created
  case unborn =>
    intro i hi
    have hbefore := h.unborn i hi
    rcases hpool with hsame | hflag | ⟨step, rfl, hof, hnext⟩
    · rw [← hbefore, hsame]
    · rw [← hbefore, hflag]
    · rw [Pool.status_of_other hof hnext]
      · exact hbefore
      · intro hworker
        have := hthread rfl hworker
        rw [this] at hi
        cases hi
  case active => exact (iff_of_eq (congrArg (· = true) hactive)).trans h.active
  case uncounted =>
    intro hbefore
    obtain ⟨hzero, hidle⟩ := h.uncounted hbefore
    rcases hpool with hsame | hflag | ⟨step, rfl, hof, hnext⟩
    · rw [hsame]
      exact ⟨hzero, hidle⟩
    · rw [hflag]
      exact ⟨hzero, hidle⟩
    · rw [Pool.shared_of_uncounted hzero hof hnext]
      exact ⟨hzero, Pool.idle_of_uncounted hzero hidle hof hnext⟩
  case loopLeft => exact fun hover => hmain.trans (h.loopLeft hover)
  case joined =>
    rintro i hjoined ⟨hi, hnotFailed, hnotExited⟩
    refine h.joined i hjoined ⟨hi, ?_⟩
    rcases hpool with hsame | hflag | ⟨step, rfl, hof, hnext⟩
    · rw [hsame] at hnotFailed hnotExited
      exact ⟨hnotFailed, hnotExited⟩
    · rw [hflag] at hnotFailed hnotExited
      exact ⟨hnotFailed, hnotExited⟩
    · by_cases hworker : step.worker? = some i
      · exact Pool.present_of_step hnext hworker
      · rw [Pool.status_of_other hof hnext hworker] at hnotFailed hnotExited
        exact ⟨hnotFailed, hnotExited⟩

/-- `main` goes on to a place where it is no earlier with anything. -/
theorem Ordered.move (h : p.Ordered) {place : MainPlace}
    (hpast : ∀ i, p.place.Past i → place.Past i) (hstarted : place.Started ↔ p.place.Started)
    (hover : place.Over → p.process.daemon.main = .left)
    (hjoined : ∀ i : Fin workersCount, place.Joined i → ¬ p.Present i) :
    Ordered { p with place } where
  created i hi := hpast i (h.created i hi)
  unborn := h.unborn
  active := h.active.trans hstarted.symm
  uncounted hbefore := h.uncounted fun hbegun => hbefore (hstarted.mpr hbegun)
  loopLeft := hover
  joined := hjoined

/-- The main thread moves no worker that has not started yet. -/
theorem starting_of_mainStep {d e : Daemon workersCount} (hstep : d.MainStep e)
    (i : Fin workersCount) : (e.pool.workers i).status = .starting ↔
      (d.pool.workers i).status = .starting := by
  have hwoken := Pool.status_wakeAll_iff d.pool.workers i
    (show WorkerStatus.starting ≠ .blocked by decide) (by decide)
  cases hstep with
  | test hmain hpool | refuse hmain hpool | accept hmain hpool =>
    simp only [Pool.next] at hpool
    split_ifs at hpool
    all_goals obtain rfl := Option.some.inj hpool
    · exact Iff.rfl
    · exact hwoken
  | _ => exact Iff.rfl

/-- A step of the event loop starts no thread, and keeps the watcher. -/
theorem main_cases {s t : Process workersCount} (hstep : s.mainStep = some t) :
    (s.active = true → t.active = true) ∧
      (s.active = false → t = { s with active := true }) ∧
      ∀ i, (t.daemon.pool.workers i).status = .starting ↔
        (s.daemon.pool.workers i).status = .starting := by
  refine ⟨?_, fun hactive => ?_, fun i => ?_⟩
  · cases Process.Step.of_mainStep hstep with
    | start => exact fun _ => rfl
    | lock | own | work | unlock => exact id
  · simp only [Process.mainStep, hactive, Bool.not_false, if_true] at hstep
    split_ifs at hstep
    exact (Option.some.inj hstep).symm
  · cases Process.Step.of_mainStep hstep with
    | own _ _ _ hdaemon | work _ _ hdaemon => exact starting_of_mainStep (.of_mainStep hdaemon) i
    | start | lock | unlock => exact Iff.rfl

/-- `pthread_create` is called for the next worker. -/
theorem Ordered.create (h : p.Ordered) {i : ℕ} (hplace : p.place = .creating i)
    (hi : i < workersCount) (created : Bool) :
    Ordered { p with
      place := .creating (i + 1)
      threads := Function.update p.threads ⟨i, hi⟩ created } := by
  constructor
  case created =>
    intro j hj
    rcases eq_or_ne j ⟨i, hi⟩ with rfl | hne
    · exact Nat.lt_succ_self i
    · have hbefore := h.created j ((Function.update_of_ne hne _ _).symm.trans hj)
      rw [hplace] at hbefore
      exact Nat.lt_succ_of_lt hbefore
  case unborn =>
    intro j hj
    refine h.unborn j ?_
    rcases eq_or_ne j ⟨i, hi⟩ with rfl | hne
    · by_contra hthread
      have hbefore := h.created ⟨i, hi⟩ (by simpa using hthread)
      rw [hplace] at hbefore
      exact absurd hbefore (lt_irrefl i)
    · exact (Function.update_of_ne hne _ _).symm.trans hj
  case active =>
    rw [h.active, hplace]
    exact Iff.rfl
  case uncounted => exact fun _ => h.uncounted (by rw [hplace]; exact id)
  case loopLeft => nofun
  case joined => nofun

theorem Ordered.of_main (h : p.Ordered) {created : Bool} (hstep : p.mainStep created = some q) :
    q.Ordered := by
  unfold mainStep at hstep
  -- one case for each place, in their order
  split at hstep
  case h_1 hplace | h_2 hplace | h_3 hplace =>
    obtain rfl := Option.some.inj hstep
    refine h.move ?_ ?_ nofun nofun
    · simp [hplace, MainPlace.Past]
    · simp [hplace, MainPlace.Started]
  case h_4 i hplace =>
    split_ifs at hstep with hmore
    · obtain rfl := Option.some.inj hstep
      exact h.create hplace hmore created
    · obtain rfl := Option.some.inj hstep
      exact h.move (fun _ _ => trivial) (by simp [hplace, MainPlace.Started]) nofun nofun
  case h_5 hplace =>
    obtain rfl := Option.some.inj hstep
    exact h.move (fun _ _ => trivial) (by simp [hplace, MainPlace.Started]) nofun nofun
  case h_6 hplace =>
    obtain ⟨process, hprocess, rfl⟩ := Option.map_eq_some_iff.mp hstep
    have hoff : p.process.active = false := by
      rw [Bool.eq_false_iff, Ne, h.active, hplace]
      exact id
    obtain rfl := (main_cases hprocess).2.1 hoff
    exact ⟨fun _ _ => trivial, h.unborn, iff_of_true rfl trivial, fun hbefore =>
      absurd trivial hbefore, nofun, nofun⟩
  case h_7 hplace =>
    split_ifs at hstep with hleft
    · obtain rfl := Option.some.inj hstep
      exact h.move (fun _ _ => trivial) (by simp [hplace, MainPlace.Started]) (fun _ => hleft)
        nofun
    · obtain ⟨process, hprocess, rfl⟩ := Option.map_eq_some_iff.mp hstep
      obtain ⟨hkept, -, hstarting⟩ := main_cases hprocess
      have hon : p.process.active = true := by
        rw [h.active, hplace]
        trivial
      refine ⟨?_, fun i hi => (hstarting i).mpr (h.unborn i hi), ?_, ?_, ?_, ?_⟩
      · simp [hplace, MainPlace.Past]
      · simp [hplace, MainPlace.Started, hkept hon]
      · simp [hplace, MainPlace.Started]
      · simp [hplace, MainPlace.Over]
      · simp [hplace, MainPlace.Joined]
  case h_8 i hplace =>
    have hover := h.loopLeft (by rw [hplace]; trivial)
    have hbefore : ∀ j : Fin workersCount, j < i → ¬ p.Present j := by
      intro j hj
      exact h.joined j (by rw [hplace]; exact hj)
    split_ifs at hstep with hmore hpresent
    · obtain rfl := Option.some.inj hstep
      refine h.move (fun _ _ => trivial) (by simp [hplace, MainPlace.Started]) (fun _ => hover) ?_
      intro j hj
      rcases Nat.lt_succ_iff_lt_or_eq.mp hj with hless | rfl
      · exact hbefore j hless
      · exact hpresent
    · obtain rfl := Option.some.inj hstep
      exact h.move (fun _ _ => trivial) (by simp [hplace, MainPlace.Started]) (fun _ => hover)
        fun j _ => hbefore j (by omega)
  case h_9 hplace | h_10 hplace | h_11 hplace | h_12 hplace | h_13 hplace =>
    obtain rfl := Option.some.inj hstep
    refine h.move (fun _ _ => trivial) ?_ (fun _ => h.loopLeft ?_) fun j _ => h.joined j ?_
    · simp [hplace, MainPlace.Started]
    · rw [hplace]
      trivial
    · rw [hplace]
      trivial
  case h_14 hplace => cases hstep

theorem ordered_of_reachable (hreach : (programSystem workersCount malloc capacity).Reachable p) :
    p.Ordered := by
  refine hreach.invariant ?_ ?_
  · rintro _ ⟨job, rfl⟩
    exact ordered_fresh job
  · intro p event q _ h hstep
    cases event with
    | main created =>
      simp only [programSystem, next] at hstep
      split_ifs at hstep
      exact h.of_main hstep
    | other event =>
      simp only [programSystem, next, Option.ite_none_right_eq_some] at hstep
      obtain ⟨hallowed, hnext⟩ := hstep
      obtain ⟨process, hprocess, rfl⟩ := Option.map_eq_some_iff.mp hnext
      exact h.of_other hallowed hprocess

/-- The program runs its process, so what holds of the process in every reachable state holds of
the program. -/
theorem simulation_process (workersCount : ℕ) (malloc : ℕ → Block) (capacity : ℕ) :
    (programSystem workersCount malloc capacity).Simulation
      (processSystem workersCount malloc capacity) process where
  init := by
    rintro _ ⟨job, rfl⟩
    exact ⟨job, rfl⟩
  step := by
    intro p event q _ hstep
    cases event with
    | main created =>
      simp only [programSystem, next] at hstep
      split_ifs at hstep
      unfold mainStep at hstep
      split at hstep
      -- the first step of the event loop, and every later one
      case h_6 =>
        obtain ⟨process, hprocess, rfl⟩ := Option.map_eq_some_iff.mp hstep
        exact Or.inr ⟨.main, hprocess⟩
      case h_7 =>
        split_ifs at hstep
        · obtain rfl := Option.some.inj hstep
          exact Or.inl rfl
        · obtain ⟨process, hprocess, rfl⟩ := Option.map_eq_some_iff.mp hstep
          exact Or.inr ⟨.main, hprocess⟩
      -- the two loops over the threads do not touch the process
      case h_4 | h_8 =>
        split_ifs at hstep
        all_goals
          obtain rfl := Option.some.inj hstep
          exact Or.inl rfl
      case h_14 => cases hstep
      all_goals
        obtain rfl := Option.some.inj hstep
        exact Or.inl rfl
    | other event =>
      simp only [programSystem, next, Option.ite_none_right_eq_some] at hstep
      obtain ⟨-, hnext⟩ := hstep
      obtain ⟨process, hprocess, rfl⟩ := Option.map_eq_some_iff.mp hnext
      exact Or.inr ⟨event, hprocess⟩

/-! ### The threads and what they share -/

/-- Everything a worker uses outside its jobs is there as long as the worker is. -/
theorem Ordered.live_of_present (h : p.Ordered) (hpresent : p.Present worker) :
    p.place.poolLive = true ∧ p.place.mutexLive = true ∧ p.place.condLive = true ∧
      p.place.tablesLive = true := by
  have hpast := h.created worker hpresent.1
  have hnotJoined : ¬ p.place.Joined worker := fun hjoined => h.joined worker hjoined hpresent
  cases hplace : p.place with
  | installed | allocated | locking =>
    rw [hplace] at hpast
    exact hpast.elim
  | creating i | queueing | watching | running | joining i => exact ⟨rfl, rfl, rfl, rfl⟩
  | freeing | unqueueing | unwaiting | unlocking | clearing | returned =>
    rw [hplace] at hnotJoined
    exact absurd trivial hnotJoined

/-- A worker runs beside the event loop or the joins, once the loop was started. -/
theorem Ordered.live_of_started (h : p.Ordered) (hpresent : p.Present worker)
    (hstarted : p.place.Started) : p.place.queueLive = true ∧ p.place.filenameLive = true := by
  have hnotJoined : ¬ p.place.Joined worker := fun hjoined => h.joined worker hjoined hpresent
  cases hplace : p.place with
  | installed | allocated | locking | creating i | queueing | watching =>
    rw [hplace] at hstarted
    exact hstarted.elim
  | running | joining i => exact ⟨rfl, rfl⟩
  | freeing | unqueueing | unwaiting | unlocking | clearing | returned =>
    rw [hplace] at hnotJoined
    exact absurd trivial hnotJoined

/-- Signals arrive only while there is a mutex. -/
def SignalsInTime (p : Program workersCount) (event : ProgramEvent workersCount) : Prop :=
  event = .other .signal → p.place.mutexLive = true

/-- `main` does not go on while its handler runs, and starts none. -/
theorem handler_of_main {created : Bool} (hstep : p.next (.main created) = some q) :
    q.process.handler = none := by
  simp only [next] at hstep
  split_ifs at hstep with hbusy
  have hidle : p.process.handler = none := by simpa using hbusy
  -- the main thread takes no step below a handler, and starts none
  have hloop : ∀ {t : Process workersCount}, p.process.mainStep = some t → t.handler = none := by
    intro t htaken
    cases Process.Step.of_mainStep htaken with
    | start hnone | lock hnone | own hnone | work hnone | unlock hnone => exact hnone
  unfold mainStep at hstep
  split at hstep
  -- in the event loop the step is one of the process
  case h_6 =>
    obtain ⟨process, hprocess, rfl⟩ := Option.map_eq_some_iff.mp hstep
    exact hloop hprocess
  case h_7 =>
    split_ifs at hstep
    · obtain rfl := Option.some.inj hstep
      exact hidle
    · obtain ⟨process, hprocess, rfl⟩ := Option.map_eq_some_iff.mp hstep
      exact hloop hprocess
  case h_4 | h_8 =>
    split_ifs at hstep
    all_goals
      obtain rfl := Option.some.inj hstep
      exact hidle
  case h_14 => cases hstep
  all_goals
    obtain rfl := Option.some.inj hstep
    exact hidle

/-- A handler that interrupted `main` where there is a mutex returns before `main` goes on. -/
theorem mutexLive_of_handler
    (hreach : ((programSystem workersCount malloc capacity).restrict SignalsInTime).Reachable p)
    (hhandler : p.process.handler ≠ none) : p.place.mutexLive = true := by
  induction hreach with
  | start hstart =>
    obtain ⟨job, rfl⟩ := hstart
    exact absurd rfl hhandler
  | @next p q event _ htaken ih =>
    obtain ⟨hstep, htime⟩ := htaken
    cases event with
    | main created => exact absurd (handler_of_main hstep) hhandler
    | other event =>
      simp only [programSystem, next, Option.ite_none_right_eq_some] at hstep
      obtain ⟨hallowed, hnext⟩ := hstep
      obtain ⟨process, hprocess, rfl⟩ := Option.map_eq_some_iff.mp hnext
      cases Process.Step.of_next hprocess with
      | interrupt => exact htime rfl
      | handlerLock hplace | handlerWork hplace => exact ih (by simp [hplace])
      | handlerUnlock => exact absurd rfl hhandler
      | write | workerLock | workerWork | workerOwn => exact ih hhandler
      | start | lock | own | work | unlock => cases hallowed

end Program

/-- In every reachable state a worker that has a thread and is not gone has the pool, the mutex,
the condition and the tables of the configuration; whoever makes a step that uses the queue
has the queue, between `fifo_init` and `fifo_destroy`, and a busy worker the name of the
FIFO. The handler has its mutex in every run whose signals arrive while there is one, and
a signal that arrives at another place makes it lock what is not there. -/
theorem lifetimes_respected (workersCount : ℕ) (malloc : ℕ → Block) (capacity : ℕ) :
    (∀ p, (programSystem workersCount malloc capacity).Reachable p →
      (∀ worker, p.Present worker → p.place.poolLive = true ∧ p.place.mutexLive = true ∧
        p.place.condLive = true ∧ p.place.tablesLive = true) ∧
      (∀ event q, p.next event = some q → p.UsesQueue event → p.place.queueLive = true) ∧
      (∀ worker, p.Present worker → (p.process.daemon.pool.workers worker).status = .busy →
        p.place.filenameLive = true)) ∧
    (∀ p, ((programSystem workersCount malloc capacity).restrict
        Program.SignalsInTime).Reachable p →
      p.process.handler ≠ none → p.place.mutexLive = true) ∧
    (∀ p q : Program workersCount, ¬ p.SignalsInTime (.other .signal) →
      p.next (.other .signal) = some q →
        q.process.handler = some .locking ∧ q.place.mutexLive = false) := by
  refine ⟨fun p hreach => ?_, fun p hreach => Program.mutexLive_of_handler hreach,
    fun p q hlate hstep => ?_⟩
  · have h := Program.ordered_of_reachable hreach
    refine ⟨fun worker => h.live_of_present, fun event q hstep huses => ?_,
      fun worker hpresent hbusy => ?_⟩
    · cases event with
      | main created =>
        rw [huses.1]
        rfl
      | other event =>
        simp only [Program.next, Option.ite_none_right_eq_some] at hstep
        obtain ⟨hallowed, hnext⟩ := hstep
        obtain ⟨process, hprocess, rfl⟩ := Option.map_eq_some_iff.mp hnext
        cases Process.Step.of_next hprocess with
        | workerWork hholds hdaemon =>
          rename_i worker d
          obtain ⟨pool, -, hpool, -⟩ := Daemon.worker_cases hdaemon
          have hpresent : p.Present worker :=
            ⟨by simpa [Program.allows, PoolEvent.worker?] using hallowed,
              Pool.present_of_step hpool rfl⟩
          refine (h.live_of_started hpresent ?_).1
          by_contra hbefore
          have := (h.uncounted hbefore).1
          have := huses.1
          omega
        | @workerOwn step hlocked =>
          -- only `enter` uses the queue, and it needs the mutex
          cases step with
          | enter worker => cases hlocked
          | _ => cases huses
        | _ => cases huses
    · refine (h.live_of_started hpresent ?_).2
      by_contra hbefore
      exact (h.uncounted hbefore).2 worker hbusy
  · simp only [Program.SignalsInTime, Classical.not_imp, Bool.not_eq_true] at hlate
    simp only [Program.next, Program.allows, if_true] at hstep
    obtain ⟨process, hprocess, rfl⟩ := Option.map_eq_some_iff.mp hstep
    cases Process.Step.of_next hprocess with
    | interrupt => exact ⟨rfl, hlate.2⟩

end EasyForetell
