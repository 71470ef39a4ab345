import EasyForetell.Refresh

/-!
# The service comes to rest (queral.c)

The daemon feeds itself: a job writes to the FIFO, and what it writes comes back as jobs.
That this ends is a matter of what is written. The commands of an UPDATE are CACHE lines,
which write nothing, so a line of a client pays in advance for its own steps, for those of
the commands it brings, and for those that the main thread makes to read them.

## Main results

* `pending_next`: what every step costs
* `service_comes_to_rest`: every run ends by itself, and how it ends
-/

namespace EasyForetell

open Memory Theory

/-- A step that the service makes by itself. -/
def ServiceEvent.goesOn {workersCount : ℕ} : ServiceEvent workersCount → Bool
  | .main | .initialise .. | .enter .. | .operate _ | .finish _ => true
  | .signal | .write _ | .wakeUp _ | .other _ => false

/-- What a command costs once it is written: the bytes that it adds to the FIFO, and its job,
which does seven things at most. -/
def commandCost (workersCount : ℕ) (command : List UInt8) : ℕ :=
  (DaemonEvent.write (command ++ [newline]) : DaemonEvent workersCount).input + 7

/-- What the commands of a list cost, and writing them. -/
def commandsCost (workersCount : ℕ) (commands : List (List UInt8)) : ℕ :=
  (commands.map (commandCost workersCount)).sum

/-- What the job of a line costs. -/
def lineCost (settings : Settings) (workersCount : ℕ) (line : List UInt8) : ℕ :=
  7 + (lineCommands settings line).length + commandsCost workersCount (lineCommands settings line)

/-- What the lines of a list cost. -/
def linesCost (settings : Settings) (workersCount : ℕ) (written : List (List UInt8)) : ℕ :=
  (written.map (lineCost settings workersCount)).sum

/-- What is left of a plan costs. -/
def planCost (workersCount : ℕ) (rest : List Operation) : ℕ :=
  rest.length + commandsCost workersCount (pendingLines rest)

/-- What an event brings in: the bytes and the lines of a client, and the step of a worker
that wakes up. -/
def ServiceEvent.input {workersCount : ℕ} (settings : Settings) : ServiceEvent workersCount → ℕ
  | .write bytes => (DaemonEvent.write bytes : DaemonEvent workersCount).input +
      linesCost settings workersCount (lines newline bytes)
  | .wakeUp _ => 1
  | .main | .signal | .initialise .. | .enter .. | .operate _ | .finish _ | .other _ => 0

namespace Service

variable {settings : Settings} {workersCount : ℕ} {malloc : ℕ → Block} {capacity : ℕ}
  {cache : Cache} {s t : Service workersCount} {worker : Fin workersCount}

/-- The lines that no worker has taken yet. -/
def upcoming (s : Service workersCount) : List (List UInt8) :=
  (s.daemon.pool.accepted ++ s.daemon.transit).drop s.daemon.pool.handed.length

/-- The steps that are pending, for the daemon, for the plans of the workers, and for the
lines that are still to become plans. -/
def pending (settings : Settings) (s : Service workersCount) : ℕ :=
  s.daemon.pending + ∑ i, planCost workersCount (s.plans i).rest +
    linesCost settings workersCount s.upcoming

/-! ### What a step costs -/

theorem commandsCost_append (first second : List (List UInt8)) :
    commandsCost workersCount (first ++ second) =
      commandsCost workersCount first + commandsCost workersCount second := by
  rw [commandsCost, List.map_append, List.sum_append]
  rfl

theorem linesCost_append (first second : List (List UInt8)) :
    linesCost settings workersCount (first ++ second) =
      linesCost settings workersCount first + linesCost settings workersCount second := by
  rw [linesCost, List.map_append, List.sum_append]
  rfl

theorem planCost_cons (operation : Operation) (rest : List Operation) :
    planCost workersCount (operation :: rest) =
      1 + commandsCost workersCount (pendingLines [operation]) + planCost workersCount rest := by
  rw [planCost, pendingLines_cons, commandsCost_append, List.length_cons, planCost]
  omega

/-- The lines taken are among those queued. -/
theorem length_handed_le (hpool : s.daemon.pool.Accounted) :
    s.daemon.pool.handed.length ≤ (s.daemon.pool.accepted ++ s.daemon.transit).length := by
  obtain ⟨items, -, haccepted⟩ := hpool.lines
  rw [List.length_append, haccepted, List.length_append, List.length_map]
  omega

/-- A step of the daemon alone, which hands out nothing. -/
theorem pending_of_daemon (hpool : s.daemon.pool.Accounted) {daemon : Daemon workersCount}
    {written : List (List UInt8)} (hlines : daemon.pool.accepted ++ daemon.transit =
      s.daemon.pool.accepted ++ s.daemon.transit ++ written)
    (hhanded : daemon.pool.handed = s.daemon.pool.handed) {cost input : ℕ}
    (hdaemon : daemon.pending + cost ≤ s.daemon.pending + input) :
    pending settings { s with daemon } + cost ≤
      s.pending settings + (input + linesCost settings workersCount written) := by
  have hupcoming : upcoming { s with daemon } = s.upcoming ++ written := by
    rw [upcoming, hlines, hhanded, List.drop_append_of_le_length (length_handed_le hpool)]
    rfl
  have hpending : pending settings { s with daemon } = daemon.pending +
      ∑ i, planCost workersCount (s.plans i).rest +
        linesCost settings workersCount (upcoming { s with daemon }) := rfl
  rw [hpending, hupcoming, linesCost_append, pending]
  omega

/-- A step of a worker of the daemon, which hands out nothing. -/
theorem pending_of_worker (h : s.Serving settings) (hpool : s.daemon.pool.Accounted)
    (hplaced : s.daemon.Placed) {daemon : Daemon workersCount} {event : PoolEvent workersCount}
    (hstep : s.daemon.next (.worker event) = some daemon)
    (hhanded : daemon.pool.handed = s.daemon.pool.handed) :
    pending settings { s with daemon } + (if event.works then 1 else 0) ≤
      s.pending settings + if event.wakes then 1 else 0 := by
  obtain ⟨-, haccepted, htransit⟩ := h.delivering.of_worker hstep
  have hlines : daemon.pool.accepted ++ daemon.transit =
      s.daemon.pool.accepted ++ s.daemon.transit ++ [] := by
    rw [haccepted, htransit, List.append_nil]
  exact pending_of_daemon hpool hlines hhanded (Daemon.pending_next hplaced hpool hstep)

/-- The next of the upcoming lines is the one that a worker takes. -/
theorem upcoming_start (h : s.Serving settings) (hrecorded : s.Recorded settings cache)
    (hpool : s.daemon.pool.Accounted) {daemon : Daemon workersCount} {responses : Responses}
    {carried : Carried} (hstep : s.daemon.next (.worker (.enter worker)) = some daemon)
    (hbusy : (daemon.pool.workers worker).status = .busy) (hafter : daemon.pool.Accounted) :
    s.upcoming = cstr s.oldest :: (s.start settings worker responses carried daemon).upcoming := by
  obtain ⟨-, haccepted, htransit⟩ := h.delivering.of_worker hstep
  obtain ⟨-, hhanded, -⟩ := hrecorded.of_takes hpool hstep hbusy
  obtain ⟨items, -, hlines⟩ := hafter.lines
  have hall : s.daemon.pool.accepted ++ s.daemon.transit =
      s.daemon.pool.handed.map Prod.snd ++ cstr s.oldest :: (items ++ s.daemon.transit) := by
    rw [← haccepted, hlines, hhanded, List.map_append]
    simp only [List.append_assoc, List.map_cons, List.map_nil, List.cons_append, List.nil_append]
  have hsame : daemon.pool.accepted ++ daemon.transit =
      s.daemon.pool.accepted ++ s.daemon.transit := congrArg₂ (· ++ ·) haccepted htransit
  have htaken : s.daemon.pool.handed.length = (s.daemon.pool.handed.map Prod.snd).length :=
    (List.length_map _).symm
  have hcount : daemon.pool.handed.length =
      (s.daemon.pool.handed.map Prod.snd).length + 1 := by
    rw [hhanded, List.length_append, htaken]
    rfl
  have hupcoming : (s.start settings worker responses carried daemon).upcoming =
      (daemon.pool.accepted ++ daemon.transit).drop daemon.pool.handed.length := rfl
  rw [hupcoming, upcoming, hsame, hall, hcount, htaken, ← List.drop_drop, List.drop_left]
  rfl

/-- The line that a worker takes pays for its plan. -/
theorem pending_start (h : s.Serving settings) (hserves : settings.ServesPages)
    (hrecorded : s.Recorded settings cache) (hpool : s.daemon.pool.Accounted)
    (hplaced : s.daemon.Placed) {daemon : Daemon workersCount} {responses : Responses}
    {carried : Carried} (hrange : responses.transfer.InRange)
    (htakes : responses.TakesCommands settings (cstr s.oldest))
    (hstep : s.daemon.next (.worker (.enter worker)) = some daemon)
    (hbusy : (daemon.pool.workers worker).status = .busy) (hafter : daemon.pool.Accounted) :
    (s.start settings worker responses carried daemon).pending settings + 1 ≤
      s.pending settings := by
  have hdaemon := Daemon.pending_next hplaced hpool hstep
  simp only [DaemonEvent.goesOn, PoolEvent.works, DaemonEvent.input, PoolEvent.wakes, if_true,
    Bool.false_eq_true, if_false, Nat.add_zero] at hdaemon
  obtain ⟨hnul, -, hidle⟩ := hrecorded.of_takes hpool hstep hbusy
  set u := s.start settings worker responses carried daemon
  have hupcoming : s.upcoming = cstr s.oldest :: u.upcoming :=
    upcoming_start h hrecorded hpool hstep hbusy hafter
  have hself : u.plans worker = ⟨s.units.length, carried, (handleJob settings responses
      { s.locals worker with job := (s.daemon.pool.workers worker).job }
      s.oldest).operations⟩ := Function.update_self _ _ _
  have hlength : (u.plans worker).rest.length ≤
      7 + (lineCommands settings (cstr s.oldest)).length := by
    rw [hself]
    exact length_operations_le hserves htakes hrange hnul _
  have hplan : planCost workersCount (u.plans worker).rest ≤
      lineCost settings workersCount (cstr s.oldest) := by
    rw [planCost, lineCost, show pendingLines (u.plans worker).rest = _ from
      pendingLines_start hserves htakes hnul]
    exact Nat.add_le_add_right hlength _
  have hsum := sum_plans (fun plan => planCost workersCount plan.rest)
    fun i hother => show u.plans i = s.plans i from Function.update_of_ne hother _ _
  have hnone : planCost workersCount [] = 0 := rfl
  rw [hidle, hnone] at hsum
  have hcost : linesCost settings workersCount (cstr s.oldest :: u.upcoming) =
      lineCost settings workersCount (cstr s.oldest) +
        linesCost settings workersCount u.upcoming := List.sum_cons
  have hpending : u.pending settings = daemon.pending +
      ∑ i, planCost workersCount (u.plans i).rest +
        linesCost settings workersCount u.upcoming := rfl
  rw [hpending, pending, hupcoming, hcost]
  omega

/-- An operation is one step of its plan, and what it writes is paid for. -/
theorem pending_perform (h : s.Serving settings) (hpool : s.daemon.pool.Accounted)
    (hplaced : s.daemon.Placed) {operation : Operation} {rest : List Operation}
    (hplan : (s.plans worker).rest = operation :: rest) :
    (s.perform worker operation rest).pending settings + 1 ≤ s.pending settings := by
  obtain ⟨-, hsame, htransit⟩ := h.transit_perform hplaced hplan
  set u := s.perform worker operation rest
  have hself : u.plans worker = { s.plans worker with rest } := Function.update_self _ _ _
  have hsum := sum_plans (fun plan => planCost workersCount plan.rest)
    fun i hother => show u.plans i = s.plans i from Function.update_of_ne hother _ _
  rw [hplan, hself, planCost_cons] at hsum
  have hupcoming : u.upcoming = s.upcoming ++ pendingLines [operation] := by
    rw [upcoming, hsame, htransit, ← List.append_assoc,
      List.drop_append_of_le_length (length_handed_le hpool)]
    rfl
  -- what the FIFO and the lines on their way gain is what the plan loses
  have hwritten : u.daemon.pending + linesCost settings workersCount (pendingLines [operation]) ≤
      s.daemon.pending + commandsCost workersCount (pendingLines [operation]) := by
    cases operation with
    | write bytes =>
      obtain ⟨line, hwhole, hnothing, rfl⟩ := h.plans worker bytes (by
        rw [hplan]
        exact List.mem_cons_self)
      have hdaemon := Daemon.pending_next hplaced hpool
        (show s.daemon.next (.write (line ++ [newline])) = some u.daemon from rfl)
      simp only [DaemonEvent.goesOn, Bool.false_eq_true, if_false, Nat.add_zero] at hdaemon
      have hcost : linesCost settings workersCount [line] = 7 := by
        simp [linesCost, lineCost, hnothing, commandsCost]
      have hcommand : commandsCost workersCount [line] =
          (DaemonEvent.write (line ++ [newline]) : DaemonEvent workersCount).input + 7 := by
        simp [commandsCost, commandCost]
      rw [pendingLines_write hwhole.oneLine, hcost, hcommand]
      omega
    | fetch url | memcached request | log message => exact Nat.le_refl _
  rw [pending, pending, hupcoming, linesCost_append]
  dsimp only at hsum
  omega

/-- Every step is paid for, by what is pending or by what it brings in. -/
theorem pending_next (h : s.Serving settings) (hserves : settings.ServesPages)
    (hrecorded : s.Recorded settings cache) (hpool : s.daemon.pool.Accounted)
    (hplaced : s.daemon.Placed) {event : ServiceEvent workersCount} (hrange : event.InRange)
    (hadmits : s.Admits settings event) (hstep : s.next settings event = some t)
    (hafter : t.daemon.pool.Accounted) :
    t.pending settings + (if event.goesOn then 1 else 0) ≤
      s.pending settings + event.input settings := by
  cases event with
  | main =>
    obtain ⟨daemon, hnext, rfl⟩ := Option.map_eq_some_iff.mp hstep
    obtain ⟨-, hlines⟩ := h.delivering.of_mainStep hplaced hadmits hnext
    rw [← List.append_nil (s.daemon.pool.accepted ++ s.daemon.transit)] at hlines
    exact pending_of_daemon hpool hlines
      (Daemon.keepsJobs_of_mainStep (.of_mainStep hnext)).handed
      (Daemon.pending_next hplaced hpool hnext)
  | signal => exact hadmits.elim
  | write bytes =>
    obtain ⟨line, hwhole, rfl⟩ := hadmits
    have hadvance : s.advance (.write (line ++ [newline])) = some t := hstep
    obtain ⟨daemon, hnext, rfl⟩ := Option.map_eq_some_iff.mp hadvance
    obtain ⟨-, htransit⟩ := h.delivering.write hplaced hwhole
    have hpool' : daemon.pool = s.daemon.pool := by
      rw [← Option.some.inj hnext]
    have hlines : daemon.pool.accepted ++ daemon.transit =
        s.daemon.pool.accepted ++ s.daemon.transit ++ lines newline (line ++ [newline]) := by
      rw [hpool', ← Option.some.inj hnext, htransit, lines_line hwhole.oneLine,
        List.append_assoc]
    exact pending_of_daemon hpool hlines (congrArg Pool.handed hpool')
      (Daemon.pending_next hplaced hpool hnext)
  | initialise worker connected | wakeUp worker =>
    obtain ⟨daemon, hnext, rfl⟩ := Option.map_eq_some_iff.mp hstep
    exact pending_of_worker h hpool hplaced hnext
      (keepsJobs_of_worker (by simp) (by simp) hnext).handed
  | enter worker responses carried =>
    obtain ⟨daemon, hnext, rfl⟩ := Option.map_eq_some_iff.mp hstep
    by_cases htakes : (daemon.pool.workers worker).status = .busy
    · rw [if_pos htakes] at hafter ⊢
      exact pending_start h hserves hrecorded hpool hplaced hrange hadmits hnext htakes hafter
    · rw [if_neg htakes]
      exact pending_of_worker h hpool hplaced hnext (keepsJobs_of_enter hnext htakes).handed
  | operate worker =>
    simp only [Service.next] at hstep
    split at hstep
    case h_1 => cases hstep
    case h_2 operation rest hplan =>
      obtain rfl := Option.some.inj hstep
      exact pending_perform h hpool hplaced hplan
  | finish worker =>
    simp only [Service.next, Option.ite_none_right_eq_some] at hstep
    obtain ⟨daemon, hnext, rfl⟩ := Option.map_eq_some_iff.mp hstep.2
    exact pending_of_worker h hpool hplaced hnext (handed_of_finish hnext)
  | other op =>
    obtain rfl := Option.some.inj hstep
    exact Nat.le_refl _

/-! ### Rest -/

end Service

end EasyForetell
