import EasyForetell.JobEffects
import EasyForetell.Shutdown

/-!
# The daemon at work (queral.c)

`Service` adds to the daemon what its workers do outside their mutex sections: each has a
plan, the operations of its job, and makes them one by one between the steps of the other
threads. A command that it writes goes to the FIFO, from where the main thread reads it, and
a call of libmemcached goes to the cache, which all workers, other clients and memcached
itself write to.

The history keeps every change of the cache with the number of the unit it belongs to: the
job of a worker, or a change from outside.

## Main results

* `simulation_daemon`: the service is a run of the daemon
* `recorded_of_reachable`: the history holds of each job what its line does to the cache
-/

namespace EasyForetell

open Memory Theory

/-- The records of memcached, by their keys. -/
abbrev Cache := List UInt8 → Option (List UInt8)

/-- A change of the cache. -/
abbrev CacheOp := StoreOp (List UInt8) (List UInt8)

/-- What the cache is changed by: a job, with its line and the responses it meets, or
something that is not the daemon, such as the end of a record's time. -/
inductive CacheUnit
  | job (line : List UInt8) (responses : Responses) (carried : Carried)
  | other (op : CacheOp)

/-- What a unit does to the cache, by itself. -/
def CacheUnit.ops (settings : Settings) : CacheUnit → List CacheOp
  | .job line responses carried => lineOps settings line responses carried
  | .other op => [op]

/-- The line of a job. -/
def CacheUnit.line? : CacheUnit → Option (List UInt8)
  | .job line _ _ => some line
  | .other _ => none

/-- What a worker still has to do for its job, and the number of the job. -/
structure Plan where
  job : ℕ
  carried : Carried
  rest : List Operation

/-- The daemon, what its workers have in their buffers and before them, and the cache. -/
structure Service (workersCount : ℕ) where
  daemon : Daemon workersCount
  locals : Fin workersCount → Worker
  plans : Fin workersCount → Plan
  units : List CacheUnit
  cache : Cache
  history : List (ℕ × CacheOp)

/-- What happens next: a step of the daemon, the section of a worker with the responses
that a job it gets there will meet, the next operation of a worker, the end of its job, or
a change of the cache from outside. -/
inductive ServiceEvent (workersCount : ℕ)
  | main
  | signal
  | write (bytes : List UInt8)
  | initialise (worker : Fin workersCount) (connected : Bool)
  | wakeUp (worker : Fin workersCount)
  | enter (worker : Fin workersCount) (responses : Responses) (carried : Carried)
  | operate (worker : Fin workersCount)
  | finish (worker : Fin workersCount)
  | other (op : CacheOp)

/-- libcurl passes chunks of sizes far below the range of `size_t`. -/
def ServiceEvent.InRange {workersCount : ℕ} : ServiceEvent workersCount → Prop
  | .enter _ responses _ => responses.transfer.InRange
  | _ => True

namespace Service

variable {workersCount : ℕ}

/-- The service when the event loop starts. -/
def fresh (daemon : Daemon workersCount) (locals : Fin workersCount → Worker) (cache : Cache) :
    Service workersCount where
  daemon := daemon
  locals := locals
  plans _ := ⟨0, ⟨false, false⟩, []⟩
  units := []
  cache := cache
  history := []

/-- The oldest line of the queue, where the queue keeps it. -/
def oldest (s : Service workersCount) : Block :=
  s.daemon.pool.shared.queue.slot s.daemon.pool.shared.queue.endIdx

/-- A worker left its section with the oldest line: its plan is what `worker_thread` does
for it. -/
def start (settings : Settings) (s : Service workersCount) (worker : Fin workersCount)
    (responses : Responses) (carried : Carried) (daemon : Daemon workersCount) :
    Service workersCount :=
  let result := handleJob settings responses
    { s.locals worker with job := (s.daemon.pool.workers worker).job } s.oldest
  { s with
    daemon
    locals := Function.update s.locals worker result.worker
    plans := Function.update s.plans worker ⟨s.units.length, carried, result.operations⟩
    units := s.units ++ [.job (cstr s.oldest) responses carried] }

/-- A worker makes the next operation of its plan. -/
def perform (s : Service workersCount) (worker : Fin workersCount) (operation : Operation)
    (rest : List Operation) : Service workersCount :=
  let plan := s.plans worker
  let change := (operation.storeOp plan.carried).toList
  { s with
    daemon := match operation with
      | .write bytes => { s.daemon with fifo := s.daemon.fifo ++ bytes }
      | _ => s.daemon
    plans := Function.update s.plans worker { plan with rest }
    cache := StoreOp.runOps s.cache change
    history := s.history ++ change.map (plan.job, ·) }

/-- A step of the daemon alone. -/
def advance (s : Service workersCount) (event : DaemonEvent workersCount) :
    Option (Service workersCount) :=
  (s.daemon.next event).map fun daemon => { s with daemon }

/-- One step of the service. -/
def next (settings : Settings) (s : Service workersCount) :
    ServiceEvent workersCount → Option (Service workersCount)
  | .main => s.advance .main
  | .signal => s.advance .signal
  | .write bytes => s.advance (.write bytes)
  | .initialise worker connected => s.advance (.worker (.initialise worker connected))
  | .wakeUp worker => s.advance (.worker (.wakeUp worker))
  | .enter worker responses carried =>
    (s.daemon.next (.worker (.enter worker))).map fun daemon =>
      if (daemon.pool.workers worker).status = .busy then
        s.start settings worker responses carried daemon
      else { s with daemon }
  | .operate worker =>
    match (s.plans worker).rest with
    | [] => none
    | operation :: rest => some (s.perform worker operation rest)
  | .finish worker =>
    if (s.plans worker).rest = [] then
      s.advance (.worker (.finish worker (s.locals worker).job))
    else none
  | .other op => some { s with
      units := s.units ++ [.other op]
      cache := op.apply s.cache
      history := s.history ++ [(s.units.length, op)] }

end Service

/-- The interleavings of the main thread, the workers, the signals, the other writers and
the other clients of memcached. -/
def serviceSystem (settings : Settings) (workersCount : ℕ) (malloc : ℕ → Block) (capacity : ℕ)
    (cache : Cache) : TransitionSystem (Service workersCount) (ServiceEvent workersCount) where
  init s := ∃ job locals,
    s = .fresh (.fresh (.fresh workersCount malloc capacity job)) locals cache
  step s event t := event.InRange ∧ s.next settings event = some t

namespace Service

variable {settings : Settings} {workersCount : ℕ} {malloc : ℕ → Block} {capacity : ℕ}
  {cache : Cache} {s t : Service workersCount} {worker : Fin workersCount}

/-! ### The service runs its daemon -/

/-- The operations of the workers are for the daemon bytes that somebody writes to its
FIFO, or nothing. -/
theorem simulation_daemon (settings : Settings) (workersCount : ℕ) (malloc : ℕ → Block)
    (capacity : ℕ) (cache : Cache) :
    (serviceSystem settings workersCount malloc capacity cache).Simulation
      (daemonSystem workersCount malloc capacity) daemon where
  init := by
    rintro _ ⟨job, locals, rfl⟩
    exact ⟨job, rfl⟩
  step := by
    rintro s event t - ⟨-, hstep⟩
    have hadvance : ∀ {e : DaemonEvent workersCount}, s.advance e = some t →
        s.daemon.next e = some t.daemon := by
      intro e he
      obtain ⟨daemon, hnext, rfl⟩ := Option.map_eq_some_iff.mp he
      exact hnext
    cases event with
    | main | signal | write bytes | initialise worker connected | wakeUp worker =>
      exact Or.inr ⟨_, hadvance hstep⟩
    | enter worker responses carried =>
      obtain ⟨daemon, hnext, rfl⟩ := Option.map_eq_some_iff.mp hstep
      refine Or.inr ⟨.worker (.enter worker), ?_⟩
      split_ifs <;> exact hnext
    | operate worker =>
      simp only [next] at hstep
      split at hstep
      case h_1 => cases hstep
      case h_2 operation rest hplan =>
        obtain rfl := Option.some.inj hstep
        cases operation with
        | write bytes => exact Or.inr ⟨.write bytes, rfl⟩
        | fetch url | memcached request | log message => exact Or.inl rfl
    | finish worker =>
      simp only [next, Option.ite_none_right_eq_some] at hstep
      exact Or.inr ⟨_, hadvance hstep.2⟩
    | other op =>
      obtain rfl := Option.some.inj hstep
      exact Or.inl rfl

theorem daemon_of_service
    (hreach : (serviceSystem settings workersCount malloc capacity cache).Reachable s) :
    (daemonSystem workersCount malloc capacity).Reachable s.daemon :=
  (simulation_daemon settings workersCount malloc capacity cache).reachable hreach

end Service

/-! ### Steps that hand out nothing -/

namespace Pool

variable {workersCount : ℕ} {s t : Pool workersCount} {worker : Fin workersCount}

/-- No job begins and none ends. -/
structure KeepsJobs (s t : Pool workersCount) : Prop where
  handed : t.handed = s.handed
  busy : ∀ i, (t.workers i).status = .busy ↔ (s.workers i).status = .busy

theorem KeepsJobs.refl (s : Pool workersCount) : s.KeepsJobs s := ⟨rfl, fun _ => Iff.rfl⟩

/-- A worker that had no job still has none. -/
theorem KeepsJobs.of_setStatus {status : WorkerStatus} {job : Block}
    (hbefore : (s.workers worker).status ≠ .busy) (hafter : status ≠ .busy) :
    s.KeepsJobs (s.setStatus worker status job) where
  handed := rfl
  busy i := by
    rcases eq_or_ne i worker with rfl | hother
    · rw [workers_setStatus_self]
      exact iff_of_false hafter hbefore
    · rw [workers_setStatus_of_ne s hother]

theorem busy_wakeAll_iff (s : Pool workersCount) (i : Fin workersCount) :
    (wakeAll s.workers i).status = .busy ↔ (s.workers i).status = .busy :=
  status_wakeAll_iff s.workers i (by decide) (by decide)

/-- Jobs begin in the section of a worker, and end when it is through with them. -/
theorem keepsJobs_of_next {event : PoolEvent workersCount} (henter : ∀ i, event ≠ .enter i)
    (hfinish : ∀ i job, event ≠ .finish i job) (hstep : s.next event = some t) :
    s.KeepsJobs t := by
  cases event with
  | enqueue line | testRun =>
    simp only [next] at hstep
    split_ifs at hstep
    all_goals obtain rfl := Option.some.inj hstep
    · exact ⟨rfl, fun _ => Iff.rfl⟩
    · exact ⟨rfl, busy_wakeAll_iff s⟩
  | terminate =>
    obtain rfl := Option.some.inj hstep
    exact ⟨rfl, fun _ => Iff.rfl⟩
  | initialise worker connected =>
    simp only [next, Option.ite_none_right_eq_some, Option.some.injEq] at hstep
    obtain ⟨hstarting, rfl⟩ := hstep
    exact .of_setStatus (by simp [hstarting]) (by cases connected <;> simp)
  | wakeUp worker =>
    simp only [next, Option.ite_none_right_eq_some, Option.some.injEq] at hstep
    obtain ⟨hblocked, rfl⟩ := hstep
    exact .of_setStatus (by simp [hblocked]) (by simp)
  | enter worker => exact absurd rfl (henter worker)
  | finish worker job => exact absurd rfl (hfinish worker job)

/-- A section that the worker leaves without a job. -/
theorem keepsJobs_enterSection (hbefore : (s.workers worker).status ≠ .busy)
    (hafter : ((s.enterSection worker).workers worker).status ≠ .busy) :
    s.KeepsJobs (s.enterSection worker) where
  handed := by
    rw [workers_enterSection_self] at hafter
    exact if_neg hafter
  busy i := by
    rcases eq_or_ne i worker with rfl | hother
    · exact iff_of_false hafter hbefore
    · rw [workers_enterSection_of_ne s hother]

end Pool

/-- A worker that gets a job gets the string in the oldest slot. -/
theorem Pool.Accounted.oldest_of_takes {workersCount : ℕ} {s : Pool workersCount}
    {worker : Fin workersCount} (h : s.Accounted)
    (htakes : ((s.enterSection worker).workers worker).status = .busy) :
    (0 : UInt8) ∈ s.shared.queue.slot s.shared.queue.endIdx ∧
      (s.enterSection worker).handed =
        s.handed ++ [(worker, cstr (s.shared.queue.slot s.shared.queue.endIdx))] := by
  rw [workers_enterSection_self] at htakes
  dsimp only at htakes
  have hpositive : ¬ s.shared.urlCount < 1 := by
    intro hempty
    simp [workerSection_of_empty hempty] at htakes
  have hrun : s.shared.shouldRun = true := by
    cases hrun : s.shared.shouldRun with
    | true => rfl
    | false => simp [workerSection_of_stop hpositive hrun] at htakes
  have hqueued := h.urlCount_eq hrun
  obtain ⟨items, hholds, -⟩ := h.lines
  have hoccupied := hholds.occupied_eq
  have hsome : 0 < items.length := by omega
  have hslot := hholds.terminated_slot hsome
  have hend : (s.shared.queue.endIdx + 0) % s.shared.queue.capacity = s.shared.queue.endIdx :=
    Nat.mod_eq_of_lt hholds.ring.drain_lt
  rw [hend] at hslot
  obtain ⟨hnul, -⟩ := terminated_eq_some_iff.mp hslot
  refine ⟨hnul, (if_pos htakes).trans ?_⟩
  rw [workerSection_of_run hpositive hrun, fifoDequeue, if_pos (by omega)]
  dsimp only
  rw [cstr_memcpy_strlen hnul]

/-- The main thread begins no job and ends none. -/
theorem Daemon.keepsJobs_of_mainStep {workersCount : ℕ} {d e : Daemon workersCount}
    (hstep : d.MainStep e) : d.pool.KeepsJobs e.pool := by
  cases hstep with
  | test hmain hpool | refuse hmain hpool | accept hmain hpool =>
    exact Pool.keepsJobs_of_next (by simp) (by simp) hpool
  | _ => exact .refl _

namespace Service

variable {settings : Settings} {workersCount : ℕ} {malloc : ℕ → Block} {capacity : ℕ}
  {cache : Cache} {s t : Service workersCount} {worker : Fin workersCount}

/-! ### The history -/

/-- A worker has a job. -/
def Busy (s : Service workersCount) (worker : Fin workersCount) : Prop :=
  (s.daemon.pool.workers worker).status = .busy

/-- The cache is what the history made of it. Every unit has done what it does by itself,
or a busy worker still has the rest of it in its plan; and the jobs are those of the lines
handed out, in order. -/
structure Recorded (settings : Settings) (cache : Cache) (s : Service workersCount) : Prop where
  cache_eq : s.cache = StoreOp.runOps cache (s.history.map Prod.snd)
  lines : s.units.filterMap CacheUnit.line? = s.daemon.pool.handed.map Prod.snd
  numbered : ∀ entry ∈ s.history, entry.1 < s.units.length
  idle : ∀ i, ¬ s.Busy i → (s.plans i).rest = []
  busy : ∀ i, s.Busy i → ∃ unit, s.units[(s.plans i).job]? = some unit ∧
    StoreOp.programOf (s.plans i).job s.history ++
      storeOps (s.plans i).carried (s.plans i).rest = unit.ops settings
  apart : ∀ i j, s.Busy i → s.Busy j → (s.plans i).job = (s.plans j).job → i = j
  done : ∀ n unit, s.units[n]? = some unit → (∀ i, s.Busy i → (s.plans i).job ≠ n) →
    StoreOp.programOf n s.history = unit.ops settings

theorem recorded_fresh (settings : Settings) (cache : Cache) (job : Fin workersCount → Block)
    (locals : Fin workersCount → Worker) :
    (fresh (.fresh (.fresh workersCount malloc capacity job)) locals cache).Recorded settings
      cache := by
  have hidle : ∀ i, ¬ (fresh (.fresh (.fresh workersCount malloc capacity job)) locals
      cache).Busy i := fun i hbusy => by cases hbusy
  constructor
  case cache_eq => rfl
  case lines => rfl
  case numbered => simp [fresh]
  case idle => exact fun i _ => rfl
  case busy => exact fun i hbusy => absurd hbusy (hidle i)
  case apart => exact fun i j hbusy => absurd hbusy (hidle i)
  case done => simp [fresh]

/-- A step that hands out nothing changes nothing of this. -/
theorem Recorded.of_keepsJobs (h : s.Recorded settings cache) {daemon : Daemon workersCount}
    (hkeeps : s.daemon.pool.KeepsJobs daemon.pool) :
    Recorded settings cache { s with daemon } := by
  have hbusy : ∀ i, Busy { s with daemon } i ↔ s.Busy i := hkeeps.busy
  constructor
  case cache_eq => exact h.cache_eq
  case lines => exact h.lines.trans (congrArg _ hkeeps.handed.symm)
  case numbered => exact h.numbered
  case idle => exact fun i hi => h.idle i fun h' => hi ((hbusy i).mpr h')
  case busy => exact fun i hi => h.busy i ((hbusy i).mp hi)
  case apart => exact fun i j hi hj => h.apart i j ((hbusy i).mp hi) ((hbusy j).mp hj)
  case done => exact fun n unit hunit hn => h.done n unit hunit fun i hi => hn i ((hbusy i).mpr hi)

/-- The number of a job is that of a unit. -/
theorem Recorded.job_lt (h : s.Recorded settings cache) {i : Fin workersCount} (hi : s.Busy i) :
    (s.plans i).job < s.units.length := by
  obtain ⟨unit, hunit, -⟩ := h.busy i hi
  exact (List.getElem?_eq_some_iff.mp hunit).1

/-- A unit that is not there yet has changed nothing. -/
theorem Recorded.programOf_length (h : s.Recorded settings cache) :
    StoreOp.programOf s.units.length s.history = [] := by
  apply StoreOp.programOf_eq_nil
  intro hmem
  obtain ⟨entry, hentry, hnumber⟩ := List.mem_map.mp hmem
  have := h.numbered entry hentry
  omega

/-- A worker that comes out of its section with a job has the oldest line of the queue. -/
theorem Recorded.start (h : s.Recorded settings cache) (hpool : s.daemon.pool.Accounted)
    {daemon : Daemon workersCount} {responses : Responses} {carried : Carried}
    (hrange : responses.transfer.InRange)
    (hstep : s.daemon.next (.worker (.enter worker)) = some daemon)
    (htakes : (daemon.pool.workers worker).status = .busy) :
    (s.start settings worker responses carried daemon).Recorded settings cache := by
  obtain ⟨pool, -, hpoolStep, rfl, -⟩ := Daemon.worker_cases hstep
  simp only [Pool.next, Option.ite_none_right_eq_some, Option.some.injEq] at hpoolStep
  obtain ⟨hcontending, rfl⟩ := hpoolStep
  obtain ⟨hnul, hline⟩ := hpool.oldest_of_takes htakes
  set e := s.start settings worker responses carried
    { s.daemon with pool := s.daemon.pool.enterSection worker } with he
  have hself : e.plans worker = ⟨s.units.length, carried,
      (handleJob settings responses
        { s.locals worker with job := (s.daemon.pool.workers worker).job } s.oldest).operations⟩ :=
    Function.update_self _ _ _
  have hother : ∀ i, i ≠ worker → e.plans i = s.plans i := fun i hi => Function.update_of_ne hi _ _
  have hbefore : ¬ s.Busy worker := by simp [Busy, hcontending]
  have hsame : ∀ i, i ≠ worker → (e.Busy i ↔ s.Busy i) := by
    intro i hi
    rw [Busy, Busy]
    exact iff_of_eq (congrArg (·.status = .busy) (Pool.workers_enterSection_of_ne s.daemon.pool hi))
  have hunits : e.units = s.units ++ [.job (cstr s.oldest) responses carried] := rfl
  constructor
  case cache_eq => exact h.cache_eq
  case lines =>
    rw [hunits, List.filterMap_append, h.lines]
    change _ = (s.daemon.pool.enterSection worker).handed.map Prod.snd
    rw [hline, List.map_append]
    rfl
  case numbered =>
    intro entry hentry
    rw [hunits, List.length_append]
    exact Nat.lt_succ_of_lt (h.numbered entry hentry)
  case idle =>
    intro i hi
    have hne : i ≠ worker := fun hi' => hi (hi' ▸ htakes)
    rw [hother i hne]
    exact h.idle i fun hi' => hi ((hsame i hne).mpr hi')
  case busy =>
    intro i hi
    rcases eq_or_ne i worker with rfl | hne
    · -- nothing of the new job is done yet
      refine ⟨.job (cstr s.oldest) responses carried, ?_, ?_⟩
      · rw [hself, hunits]
        exact List.getElem?_concat_length
      · rw [hself]
        have hops := storeOps_handleJob settings hrange hnul
          { s.locals i with job := (s.daemon.pool.workers i).job } carried
        exact (congrArg (· ++ _) h.programOf_length).trans hops
    · obtain ⟨unit, hunit, hops⟩ := h.busy i ((hsame i hne).mp hi)
      rw [hother i hne, hunits, List.getElem?_append_left (h.job_lt ((hsame i hne).mp hi))]
      exact ⟨unit, hunit, hops⟩
  case apart =>
    -- the number of the new job is larger than those of the others
    have hless : ∀ i, i ≠ worker → e.Busy i → (e.plans i).job < s.units.length := by
      intro i hi hbusy
      rw [hother i hi]
      exact h.job_lt ((hsame i hi).mp hbusy)
    have hnew : (e.plans worker).job = s.units.length := by rw [hself]
    intro i j hi hj hboth
    rcases eq_or_ne i worker with rfl | hne
    · rcases eq_or_ne j i with rfl | hne'
      · rfl
      · have := hless j hne' hj
        omega
    · have := hless i hne hi
      rcases eq_or_ne j worker with rfl | hne'
      · omega
      · rw [hother i hne, hother j hne'] at hboth
        exact h.apart i j ((hsame i hne).mp hi) ((hsame j hne').mp hj) hboth
  case done =>
    intro n unit hunit hn
    have hlast : n ≠ s.units.length := by
      have := hn worker htakes
      rw [hself] at this
      exact Ne.symm this
    have hinside : n < s.units.length := by
      have hlength := (List.getElem?_eq_some_iff.mp hunit).1
      rw [hunits, List.length_append, List.length_singleton] at hlength
      omega
    rw [hunits, List.getElem?_append_left hinside] at hunit
    refine h.done n unit hunit fun i hi => ?_
    have hne : i ≠ worker := fun hi' => hbefore (hi' ▸ hi)
    have := hn i ((hsame i hne).mpr hi)
    rwa [hother i hne] at this

/-- A worker makes the first operation of what is left of its plan. -/
theorem Recorded.perform (h : s.Recorded settings cache) {operation : Operation}
    {rest : List Operation} (hplan : (s.plans worker).rest = operation :: rest) :
    (s.perform worker operation rest).Recorded settings cache := by
  have hbusy : s.Busy worker := by
    by_contra hidle
    rw [h.idle worker hidle] at hplan
    cases hplan
  have hdaemon : (s.perform worker operation rest).daemon.pool = s.daemon.pool := by
    cases operation <;> rfl
  have hsame : ∀ i, (s.perform worker operation rest).Busy i ↔ s.Busy i := by
    intro i
    rw [Busy, hdaemon, Busy]
  have hself : (s.perform worker operation rest).plans worker =
      { s.plans worker with rest } := Function.update_self _ _ _
  have hother : ∀ i, i ≠ worker → (s.perform worker operation rest).plans i = s.plans i :=
    fun i hi => Function.update_of_ne hi _ _
  have hhistory : (s.perform worker operation rest).history = s.history ++
      ((operation.storeOp (s.plans worker).carried).toList.map ((s.plans worker).job, ·)) := rfl
  -- what the other units did is what they had done before
  have hprogram : ∀ n, n ≠ (s.plans worker).job →
      StoreOp.programOf n (s.perform worker operation rest).history =
        StoreOp.programOf n s.history := by
    intro n hn
    rw [hhistory, StoreOp.programOf_append, StoreOp.programOf_map_of_ne (Ne.symm hn),
      List.append_nil]
  have hrest : storeOps (s.plans worker).carried (operation :: rest) =
      (operation.storeOp (s.plans worker).carried).toList ++
        storeOps (s.plans worker).carried rest := by
    rw [storeOps, List.filterMap_cons]
    cases operation.storeOp (s.plans worker).carried <;> rfl
  constructor
  case cache_eq =>
    rw [hhistory, List.map_append, StoreOp.runOps_append, ← h.cache_eq, List.map_map]
    exact congrArg _ (List.map_id _).symm
  case lines =>
    rw [hdaemon]
    exact h.lines
  case numbered =>
    rw [hhistory]
    intro entry hentry
    rcases List.mem_append.mp hentry with hbefore | hnew
    · exact h.numbered entry hbefore
    · obtain ⟨op, -, rfl⟩ := List.mem_map.mp hnew
      exact h.job_lt hbusy
  case idle =>
    intro i hi
    rw [hsame] at hi
    rw [hother i fun hi' => hi (hi' ▸ hbusy)]
    exact h.idle i hi
  case busy =>
    intro i hi
    rw [hsame] at hi
    obtain ⟨unit, hunit, hops⟩ := h.busy i hi
    refine ⟨unit, ?_⟩
    rcases eq_or_ne i worker with rfl | hne
    · rw [hself]
      refine ⟨hunit, ?_⟩
      rw [hhistory, StoreOp.programOf_append, StoreOp.programOf_map_self, List.append_assoc,
        ← hrest, ← hplan]
      exact hops
    · rw [hother i hne, hprogram _ fun hjob => hne (h.apart i worker hi hbusy hjob)]
      exact ⟨hunit, hops⟩
  case apart =>
    have hjob : ∀ i, ((s.perform worker operation rest).plans i).job = (s.plans i).job := by
      intro i
      rcases eq_or_ne i worker with rfl | hne
      · rw [hself]
      · rw [hother i hne]
    intro i j hi hj hboth
    rw [hjob, hjob] at hboth
    exact h.apart i j ((hsame i).mp hi) ((hsame j).mp hj) hboth
  case done =>
    intro n unit hunit hn
    have hothers : ∀ i, s.Busy i → (s.plans i).job ≠ n := by
      intro i hi
      have hi' := hn i ((hsame i).mpr hi)
      rcases eq_or_ne i worker with rfl | hne
      · rwa [hself] at hi'
      · rwa [hother i hne] at hi'
    rw [hprogram n (Ne.symm (hothers worker hbusy))]
    exact h.done n unit hunit hothers

/-- A worker ends its job when its plan is empty. -/
theorem Recorded.finish (h : s.Recorded settings cache) (hplan : (s.plans worker).rest = [])
    {daemon : Daemon workersCount} {job : Block}
    (hstep : s.daemon.next (.worker (.finish worker job)) = some daemon) :
    Recorded settings cache { s with daemon } := by
  obtain ⟨pool, -, hpool, rfl, -⟩ := Daemon.worker_cases hstep
  simp only [Pool.next, Option.ite_none_right_eq_some, Option.some.injEq] at hpool
  obtain ⟨hbusy, rfl⟩ := hpool
  -- nobody but the worker changes its state
  have hends : ¬ Busy { s with daemon := { s.daemon with
      pool := s.daemon.pool.setStatus worker .contending job } } worker := by
    simp [Busy, Pool.setStatus]
  have hsame : ∀ i, i ≠ worker → (Busy { s with daemon := { s.daemon with
      pool := s.daemon.pool.setStatus worker .contending job } } i ↔ s.Busy i) := by
    intro i hi
    rw [Busy, Busy, Pool.workers_setStatus_of_ne s.daemon.pool hi]
  constructor
  case cache_eq => exact h.cache_eq
  case lines => exact h.lines
  case numbered => exact h.numbered
  case idle =>
    intro i hi
    rcases eq_or_ne i worker with rfl | hne
    · exact hplan
    · exact h.idle i fun hi' => hi ((hsame i hne).mpr hi')
  case busy =>
    intro i hi
    have hne : i ≠ worker := fun hi' => hends (hi' ▸ hi)
    exact h.busy i ((hsame i hne).mp hi)
  case apart =>
    intro i j hi hj
    have hne : i ≠ worker := fun hi' => hends (hi' ▸ hi)
    have hne' : j ≠ worker := fun hj' => hends (hj' ▸ hj)
    exact h.apart i j ((hsame i hne).mp hi) ((hsame j hne').mp hj)
  case done =>
    intro n unit hunit hn
    by_cases hjob : (s.plans worker).job = n
    · -- the unit that is through: nothing of it is left
      obtain ⟨unit', hunit', hops⟩ := h.busy worker hbusy
      rw [hjob] at hunit' hops
      obtain rfl := Option.some.inj (hunit'.symm.trans hunit)
      rw [hplan] at hops
      exact (List.append_nil _).symm.trans hops
    · refine h.done n unit hunit fun i hi => ?_
      rcases eq_or_ne i worker with rfl | hne
      · exact hjob
      · exact hn i ((hsame i hne).mpr hi)

/-- A change from outside is a unit of its own. -/
theorem Recorded.other (h : s.Recorded settings cache) (op : CacheOp) :
    Recorded settings cache { s with
      units := s.units ++ [.other op]
      cache := op.apply s.cache
      history := s.history ++ [(s.units.length, op)] } := by
  -- only the new unit has done something more
  have hprogram : ∀ n, n ≠ s.units.length →
      StoreOp.programOf n (s.history ++ [(s.units.length, op)]) =
        StoreOp.programOf n s.history := by
    intro n hn
    rw [StoreOp.programOf_append]
    exact (congrArg _ (StoreOp.programOf_map_of_ne (Ne.symm hn) [op])).trans (List.append_nil _)
  constructor
  case cache_eq =>
    rw [List.map_append, StoreOp.runOps_append, ← h.cache_eq]
    rfl
  case lines =>
    rw [List.filterMap_append]
    exact (List.append_nil _).trans h.lines
  case numbered =>
    intro entry hentry
    rw [List.length_append]
    rcases List.mem_append.mp hentry with hbefore | hnew
    · exact Nat.lt_succ_of_lt (h.numbered entry hbefore)
    · rw [List.mem_singleton.mp hnew]
      exact Nat.lt_succ_self _
  case idle => exact h.idle
  case busy =>
    intro i hi
    obtain ⟨unit, hunit, hops⟩ := h.busy i hi
    have hjob := h.job_lt hi
    refine ⟨unit, ?_, ?_⟩
    · exact (List.getElem?_append_left hjob).trans hunit
    · rw [hprogram _ (Nat.ne_of_lt hjob)]
      exact hops
  case apart => exact h.apart
  case done =>
    intro n unit hunit hn
    rcases Nat.lt_or_ge n s.units.length with hbefore | hnew
    · rw [List.getElem?_append_left hbefore] at hunit
      rw [hprogram n (Nat.ne_of_lt hbefore)]
      exact h.done n unit hunit hn
    · rw [List.getElem?_append_right hnew, List.getElem?_singleton] at hunit
      split_ifs at hunit with hlast
      obtain rfl := Option.some.inj hunit
      obtain rfl : n = s.units.length := by omega
      rw [StoreOp.programOf_append, h.programOf_length]
      exact StoreOp.programOf_map_self _ [op]

theorem Recorded.advance (h : s.Recorded settings cache) {event : DaemonEvent workersCount}
    (hkeeps : ∀ e, s.daemon.next event = some e → s.daemon.pool.KeepsJobs e.pool)
    (hstep : s.advance event = some t) : t.Recorded settings cache := by
  obtain ⟨daemon, hnext, rfl⟩ := Option.map_eq_some_iff.mp hstep
  exact h.of_keepsJobs (hkeeps daemon hnext)

/-- A step of a worker that is neither its section nor the end of its job. -/
theorem keepsJobs_of_worker {d e : Daemon workersCount} {event : PoolEvent workersCount}
    (henter : ∀ i, event ≠ .enter i) (hfinish : ∀ i job, event ≠ .finish i job)
    (hstep : d.next (.worker event) = some e) : d.pool.KeepsJobs e.pool := by
  obtain ⟨pool, -, hpool, rfl, -⟩ := Daemon.worker_cases hstep
  exact Pool.keepsJobs_of_next henter hfinish hpool

/-- A section that is left without a job. -/
theorem keepsJobs_of_enter {d e : Daemon workersCount}
    (hstep : d.next (.worker (.enter worker)) = some e)
    (htakes : (e.pool.workers worker).status ≠ .busy) : d.pool.KeepsJobs e.pool := by
  obtain ⟨pool, -, hsection, rfl, -⟩ := Daemon.worker_cases hstep
  simp only [Pool.next, Option.ite_none_right_eq_some, Option.some.injEq] at hsection
  obtain ⟨hcontending, rfl⟩ := hsection
  exact Pool.keepsJobs_enterSection (by simp [hcontending]) htakes

/-- The end of a job hands out nothing. -/
theorem handed_of_finish {d e : Daemon workersCount} {job : Block}
    (hstep : d.next (.worker (.finish worker job)) = some e) : e.pool.handed = d.pool.handed := by
  obtain ⟨pool, -, hfinish, rfl, -⟩ := Daemon.worker_cases hstep
  simp only [Pool.next, Option.ite_none_right_eq_some, Option.some.injEq] at hfinish
  obtain ⟨-, rfl⟩ := hfinish
  rfl

/-- A worker leaves its section with the oldest line, and had nothing to do before. -/
theorem Recorded.of_takes (h : s.Recorded settings cache) (hpool : s.daemon.pool.Accounted)
    {daemon : Daemon workersCount} (hstep : s.daemon.next (.worker (.enter worker)) = some daemon)
    (htakes : (daemon.pool.workers worker).status = .busy) :
    (0 : UInt8) ∈ s.oldest ∧
      daemon.pool.handed = s.daemon.pool.handed ++ [(worker, cstr s.oldest)] ∧
      (s.plans worker).rest = [] := by
  obtain ⟨pool, -, hsection, rfl, -⟩ := Daemon.worker_cases hstep
  simp only [Pool.next, Option.ite_none_right_eq_some, Option.some.injEq] at hsection
  obtain ⟨hcontending, rfl⟩ := hsection
  obtain ⟨hnul, hhanded⟩ := hpool.oldest_of_takes htakes
  exact ⟨hnul, hhanded, h.idle worker fun hbusy => by simp [Busy, hcontending] at hbusy⟩

/-- Every step of everybody keeps the records. -/
theorem Recorded.next (h : s.Recorded settings cache) (hpool : s.daemon.pool.Accounted)
    {event : ServiceEvent workersCount} (hrange : event.InRange)
    (hstep : s.next settings event = some t) : t.Recorded settings cache := by
  cases event with
  | main =>
    refine h.advance (fun e (hnext : s.daemon.next .main = some e) => ?_) hstep
    exact Daemon.keepsJobs_of_mainStep (.of_mainStep hnext)
  | signal =>
    refine h.advance (fun e hnext => ?_) hstep
    obtain rfl := Option.some.inj hnext
    exact ⟨rfl, fun _ => Iff.rfl⟩
  | write bytes =>
    refine h.advance (fun e hnext => ?_) hstep
    obtain rfl := Option.some.inj hnext
    exact .refl _
  | initialise worker connected | wakeUp worker =>
    exact h.advance (fun e hnext => keepsJobs_of_worker (by simp) (by simp) hnext) hstep
  | enter worker responses carried =>
    obtain ⟨daemon, hnext, rfl⟩ := Option.map_eq_some_iff.mp hstep
    split_ifs with htakes
    · exact h.start hpool hrange hnext htakes
    · exact h.of_keepsJobs (keepsJobs_of_enter hnext htakes)
  | operate worker =>
    simp only [Service.next] at hstep
    split at hstep
    case h_1 => cases hstep
    case h_2 operation rest hplan =>
      obtain rfl := Option.some.inj hstep
      exact h.perform hplan
  | finish worker =>
    simp only [Service.next, Option.ite_none_right_eq_some] at hstep
    obtain ⟨hplan, hadvance⟩ := hstep
    obtain ⟨daemon, hnext, rfl⟩ := Option.map_eq_some_iff.mp hadvance
    exact h.finish hplan hnext
  | other op =>
    obtain rfl := Option.some.inj hstep
    exact h.other op

theorem accounted_of_service (hmalloc : ∀ i, (malloc i).length = bufferSize)
    (hcapacity : 1 ≤ capacity)
    (hreach : (serviceSystem settings workersCount malloc capacity cache).Reachable s) :
    s.daemon.pool.Accounted :=
  accounted_of_reachable hmalloc hcapacity (Daemon.pool_of_daemon (daemon_of_service hreach))

theorem recorded_of_reachable (hmalloc : ∀ i, (malloc i).length = bufferSize)
    (hcapacity : 1 ≤ capacity)
    (hreach : (serviceSystem settings workersCount malloc capacity cache).Reachable s) :
    s.Recorded settings cache := by
  refine hreach.invariant ?_ ?_
  · rintro _ ⟨job, locals, rfl⟩
    exact recorded_fresh settings cache job locals
  · rintro u event v hu h ⟨hrange, hstep⟩
    exact h.next (accounted_of_service hmalloc hcapacity hu) hrange hstep

end Service

end EasyForetell
