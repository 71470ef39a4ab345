import EasyForetell.Progress
import EasyForetell.SignalDeadlock

/-!
# The signal handler and a full FIFO (queral.c, signal_handler and write_fifo)

The FIFO holds so many bytes and no more. `write_fifo` opens it without `O_NONBLOCK`, so a write
that finds no room waits until somebody has read. A worker that waits there holds nothing; but
the handler writes `QUIT` with the mutex, in the thread that is the only one to read.

## Main results

* `length_fifo_le`: the FIFO holds no more than it can
* `CannotReturn.of_step`: what stays as it is when the handler cannot go on
* `handler_returns_iff`: when the handler returns
-/

namespace EasyForetell

open Memory Theory

namespace Process

variable {workersCount : ℕ}

/-- The handler writes to the FIFO: the watcher is active, and the FIFO still has its name. -/
def WritesQuit (p : Process workersCount) : Prop :=
  p.active = true ∧ p.daemon.pool.broadcast = false

/-- There is room for what the handler writes. -/
def QuitFits (pipeSize : ℕ) (p : Process workersCount) : Prop :=
  p.WritesQuit → p.daemon.fifo.length + quitCommand.length ≤ pipeSize

/-- Whoever writes waits for room. Up to `PIPE_BUF` bytes come in one piece, and more of them in
pieces that are events of their own. -/
def FitsPipe (pipeSize : ℕ) (p : Process workersCount) : ProcessEvent workersCount → Prop
  | .write bytes => p.daemon.fifo.length + bytes.length ≤ pipeSize
  | .handler => p.handler = some .locked → p.QuitFits pipeSize
  | _ => True

end Process

/-- The interleavings of the process, with a FIFO of `pipeSize` bytes. -/
def pipedSystem (pipeSize workersCount : ℕ) (malloc : ℕ → Block) (capacity : ℕ) :
    TransitionSystem (Process workersCount) (ProcessEvent workersCount) :=
  (processSystem workersCount malloc capacity).restrict (Process.FitsPipe pipeSize)

namespace Process

variable {pipeSize workersCount : ℕ} {malloc : ℕ → Block} {capacity : ℕ}
  {p q r : Process workersCount} {event : ProcessEvent workersCount}

/-! ### The room in the FIFO -/

/-- Only writers make the FIFO longer. -/
theorem length_fifo_mainStep {d e : Daemon workersCount} (hstep : d.next .main = some e) :
    e.fifo.length ≤ d.fifo.length := by
  cases Daemon.MainStep.of_mainStep hstep with
  | read => exact List.length_drop ▸ Nat.sub_le _ _
  | _ => exact le_rfl

theorem length_handlerSection (d : Daemon workersCount) (active : Bool) :
    (d.handlerSection active).fifo.length =
      d.fifo.length + if active = true ∧ d.pool.broadcast = false then quitCommand.length else 0 := by
  cases active with
  | false => simp [Daemon.handlerSection]
  | true =>
    cases hbroadcast : d.pool.broadcast with
    | false => simp [Daemon.handlerSection, Daemon.signalHandler, hbroadcast]
    | true => simp [Daemon.handlerSection, Daemon.signalHandler, hbroadcast]

theorem length_fifo_le
    (hreach : (pipedSystem pipeSize workersCount malloc capacity).Reachable p) :
    p.daemon.fifo.length ≤ pipeSize := by
  induction hreach with
  | start hstart =>
    obtain ⟨job, rfl⟩ := hstart
    exact Nat.zero_le _
  | next _ htaken ih =>
    obtain ⟨hstep, hfits⟩ := htaken
    cases Step.of_next hstep with
    | own _ _ _ hdaemon | work _ _ hdaemon => exact (length_fifo_mainStep hdaemon).trans ih
    | handlerWork hplace =>
      rw [length_handlerSection]
      split_ifs with hwrites
      · exact hfits hplace hwrites
      · exact ih
    | write hdaemon =>
      obtain rfl := Option.some.inj hdaemon
      exact List.length_append.trans_le hfits
    | workerWork _ hdaemon | workerOwn _ hdaemon =>
      obtain ⟨pool, -, -, rfl, -⟩ := Daemon.worker_cases hdaemon
      exact ih
    | _ => exact ih

/-! ### What waits for the handler -/

/-- What stays as it is while the handler waits: the main thread does not move, the FIFO is not
read, no line is accepted, and shutdown is not broadcast; and with the mutex in its hands no
line is handed out. -/
structure Frozen (p q : Process workersCount) : Prop where
  active : q.active = p.active
  main : q.daemon.main = p.daemon.main
  fifo : p.daemon.fifo <+: q.daemon.fifo
  accepted : q.daemon.pool.accepted = p.daemon.pool.accepted
  broadcast : q.daemon.pool.broadcast = p.daemon.pool.broadcast
  handed : p.mutex = some .main →
    q.mutex = some .main ∧ q.daemon.pool.handed = p.daemon.pool.handed

namespace Frozen

theorem refl (p : Process workersCount) : Frozen p p :=
  ⟨rfl, rfl, List.prefix_rfl, rfl, rfl, fun hholds => ⟨hholds, rfl⟩⟩

theorem trans (h : Frozen p q) (h' : Frozen q r) : Frozen p r where
  active := h'.active.trans h.active
  main := h'.main.trans h.main
  fifo := h.fifo.trans h'.fifo
  accepted := h'.accepted.trans h.accepted
  broadcast := h'.broadcast.trans h.broadcast
  handed hholds := by
    obtain ⟨hmiddle, hfirst⟩ := h.handed hholds
    obtain ⟨hend, hsecond⟩ := h'.handed hmiddle
    exact ⟨hend, hsecond.trans hfirst⟩

/-- Room that is not there does not come. -/
theorem not_quitFits (h : Frozen p q) (hfull : ¬ p.QuitFits pipeSize) :
    ¬ q.QuitFits pipeSize := by
  intro hfits
  refine hfull fun ⟨hactive, hquiet⟩ => ?_
  have hlength := h.fifo.length_le
  have hroom := hfits ⟨h.active.trans hactive, h.broadcast.trans hquiet⟩
  omega

end Frozen

/-- Out of its section a worker hands out no line. -/
theorem handed_of_unlocked {s t : Pool workersCount} {event : PoolEvent workersCount}
    (hworker : event.ofWorker = true) (hlocked : event.lockedBy = none)
    (hstep : s.next event = some t) : t.handed = s.handed := by
  cases event with
  | initialise worker connected | wakeUp worker | finish worker job =>
    simp only [Pool.next, Option.ite_none_right_eq_some, Option.some.injEq] at hstep
    obtain ⟨-, rfl⟩ := hstep
    rfl
  | enter worker => cases hlocked
  | enqueue line | testRun | terminate => cases hworker

theorem accepted_of_worker_step {d e : Daemon workersCount} {event : PoolEvent workersCount}
    (hstep : d.next (.worker event) = some e) : e.pool.accepted = d.pool.accepted := by
  simp only [Daemon.next, Option.ite_none_right_eq_some] at hstep
  obtain ⟨hworker, hstep⟩ := hstep
  obtain ⟨pool, hpool, rfl⟩ := Option.map_eq_some_iff.mp hstep
  exact Pool.accepted_of_worker hworker hpool

theorem handed_of_worker_step {d e : Daemon workersCount} {event : PoolEvent workersCount}
    (hlocked : event.lockedBy = none) (hstep : d.next (.worker event) = some e) :
    e.pool.handed = d.pool.handed := by
  simp only [Daemon.next, Option.ite_none_right_eq_some] at hstep
  obtain ⟨hworker, hstep⟩ := hstep
  obtain ⟨pool, hpool, rfl⟩ := Option.map_eq_some_iff.mp hstep
  exact handed_of_unlocked hworker hlocked hpool

/-- While the handler runs nobody else brings it on. -/
theorem frozen_of_step (hrunning : p.handler ≠ none) (hother : event ≠ .handler)
    (hstep : p.Step event q) : q.handler = p.handler ∧ p.Frozen q := by
  cases hstep with
  | start hidle | lock hidle | own hidle | work hidle | unlock hidle | interrupt hidle =>
    exact absurd hidle hrunning
  | handlerLock | handlerWork | handlerUnlock => exact absurd rfl hother
  | write hdaemon =>
    obtain rfl := Option.some.inj hdaemon
    exact ⟨rfl, rfl, rfl, List.prefix_append _ _, rfl, rfl, fun hholds => ⟨hholds, rfl⟩⟩
  | workerLock hfree =>
    refine ⟨rfl, rfl, rfl, List.prefix_rfl, rfl, rfl, fun hholds => ?_⟩
    rw [hfree] at hholds
    cases hholds
  | workerWork hholds hdaemon =>
    have haccepted := accepted_of_worker_step hdaemon
    obtain ⟨pool, -, -, rfl, -, hbroadcast⟩ := Daemon.worker_cases hdaemon
    refine ⟨rfl, rfl, rfl, List.prefix_rfl, haccepted, hbroadcast, fun hmain => ?_⟩
    rw [hholds] at hmain
    cases hmain
  | workerOwn hlocked hdaemon =>
    have haccepted := accepted_of_worker_step hdaemon
    have hhanded := handed_of_worker_step hlocked hdaemon
    obtain ⟨pool, -, -, rfl, -, hbroadcast⟩ := Daemon.worker_cases hdaemon
    exact ⟨rfl, rfl, rfl, List.prefix_rfl, haccepted, hbroadcast, fun hmain => ⟨hmain, hhanded⟩⟩

/-! ### When the handler returns -/

/-- The handler waits for the mutex of its own thread, or for room that only its own thread
makes. -/
def CannotReturn (pipeSize : ℕ) (p : Process workersCount) : Prop :=
  p.Deadlocked ∨ (p.handler = some .locking ∨ p.handler = some .locked) ∧ ¬ p.QuitFits pipeSize

theorem CannotReturn.handler_ne_none (h : p.CannotReturn pipeSize) : p.handler ≠ none := by
  intro hidle
  rcases h with ⟨hplace, -⟩ | ⟨hplace | hplace, -⟩
  all_goals
    rw [hidle] at hplace
    cases hplace

theorem CannotReturn.of_step (h : p.CannotReturn pipeSize) (hfits : p.FitsPipe pipeSize event)
    (hstep : p.Step event q) : q.CannotReturn pipeSize ∧ p.Frozen q := by
  by_cases hother : event = .handler
  · subst hother
    rcases h with ⟨hplace, hholds⟩ | ⟨hplace, hfull⟩
    · -- the mutex is not free
      cases hstep with
      | handlerLock _ hfree =>
        rw [hholds] at hfree
        cases hfree
      | handlerWork hplace' | handlerUnlock hplace' =>
        rw [hplace] at hplace'
        cases hplace'
    · cases hstep with
      | handlerLock hplace' hfree =>
        refine ⟨Or.inr ⟨Or.inr rfl, hfull⟩, rfl, rfl, List.prefix_rfl, rfl, rfl, fun hholds => ?_⟩
        rw [hfree] at hholds
        cases hholds
      | handlerWork hplace' => exact absurd (hfits hplace') hfull
      | handlerUnlock hplace' => simp [hplace'] at hplace
  · obtain ⟨hsame, hfrozen⟩ := frozen_of_step h.handler_ne_none hother hstep
    refine ⟨?_, hfrozen⟩
    rcases h with ⟨hplace, hholds⟩ | ⟨hplace, hfull⟩
    · exact Or.inl ⟨hsame.trans hplace, (hfrozen.handed hholds).1⟩
    · rw [← hsame] at hplace
      exact Or.inr ⟨hplace, hfrozen.not_quitFits hfull⟩

theorem CannotReturn.of_run (h : p.CannotReturn pipeSize)
    (hrun : (pipedSystem pipeSize workersCount malloc capacity).LeadsTo p q) :
    q.CannotReturn pipeSize ∧ p.Frozen q := by
  refine hrun.stays (fun q => q.CannotReturn pipeSize ∧ p.Frozen q) ?_ ⟨h, .refl p⟩
  rintro s event t ⟨hstuck, hfrozen⟩ ⟨hstep, hfits⟩
  obtain ⟨hstill, hnext⟩ := hstuck.of_step hfits (.of_next hstep)
  exact ⟨hstill, hfrozen.trans hnext⟩

theorem leadsTo_of_next (hstep : p.next event = some q) (hfits : p.FitsPipe pipeSize event) :
    (pipedSystem pipeSize workersCount malloc capacity).LeadsTo p q :=
  .single ⟨event, hstep, hfits⟩

theorem exists_return_of_unlocking (hplace : p.handler = some .unlocking) :
    ∃ q, (pipedSystem pipeSize workersCount malloc capacity).LeadsTo p q ∧ q.handler = none := by
  have hstep : p.next .handler = some { p with mutex := none, handler := none } := by
    simp [next, handlerStep, hplace]
  exact ⟨_, leadsTo_of_next hstep fun hlocked => by simp [hplace] at hlocked, rfl⟩

theorem exists_return_of_locked (hplace : p.handler = some .locked) (hfits : p.QuitFits pipeSize) :
    ∃ q, (pipedSystem pipeSize workersCount malloc capacity).LeadsTo p q ∧ q.handler = none := by
  have hstep : p.next .handler = some { p with
      daemon := p.daemon.handlerSection p.active, handler := some .unlocking } := by
    simp [next, handlerStep, hplace]
  obtain ⟨q, hrun, hidle⟩ := exists_return_of_unlocking
    (p := { p with daemon := p.daemon.handlerSection p.active, handler := some .unlocking }) rfl
  exact ⟨q, (leadsTo_of_next hstep fun _ => hfits).trans hrun, hidle⟩

theorem exists_return_of_free (hplace : p.handler = some .locking) (hfree : p.mutex = none)
    (hfits : p.QuitFits pipeSize) :
    ∃ q, (pipedSystem pipeSize workersCount malloc capacity).LeadsTo p q ∧ q.handler = none := by
  have hstep : p.next .handler =
      some { p with mutex := some .main, handler := some .locked } := by
    simp [next, handlerStep, hplace, hfree]
  obtain ⟨q, hrun, hidle⟩ := exists_return_of_locked
    (p := { p with mutex := some .main, handler := some .locked }) rfl hfits
  exact ⟨q, (leadsTo_of_next hstep fun hlocked => by simp [hplace] at hlocked).trans hrun, hidle⟩

/-- A worker that leaves its section takes no room. -/
theorem QuitFits.of_enter (h : p.QuitFits pipeSize) {worker : Fin workersCount}
    (hstep : p.Step (.worker (.enter worker)) q) : q.QuitFits pipeSize := by
  cases hstep with
  | workerWork _ hdaemon | workerOwn _ hdaemon =>
    obtain ⟨pool, -, -, rfl, -, hbroadcast⟩ := Daemon.worker_cases hdaemon
    exact fun ⟨hactive, hquiet⟩ => h ⟨hactive, hbroadcast.symm.trans hquiet⟩

theorem exists_return
    (hreach : (pipedSystem pipeSize workersCount malloc capacity).Reachable p)
    (hrunning : p.handler ≠ none) (hfree : ¬ p.CannotReturn pipeSize) :
    ∃ q, (pipedSystem pipeSize workersCount malloc capacity).LeadsTo p q ∧ q.handler = none := by
  have hlive : ¬ p.Deadlocked := fun hdead => hfree (Or.inl hdead)
  have hfits : p.handler = some .locking ∨ p.handler = some .locked → p.QuitFits pipeSize :=
    fun hplace => not_not.mp fun hfull => hfree (Or.inr ⟨hplace, hfull⟩)
  cases hplace : p.handler with
  | none => exact absurd hplace hrunning
  | some place =>
    cases place with
    | unlocking => exact exists_return_of_unlocking hplace
    | locked => exact exists_return_of_locked hplace (hfits (Or.inr hplace))
    | locking =>
      rcases exists_next_of_waiting hreach.of_restrict hplace hlive with
        ⟨q, hstep⟩ | ⟨worker, q, hstep, hopen⟩
      · have hmutex : p.mutex = none := by
          cases Step.of_next hstep with
          | handlerLock _ hmutex => exact hmutex
          | handlerWork hother | handlerUnlock hother =>
            rw [hplace] at hother
            cases hother
        exact exists_return_of_free hplace hmutex (hfits (Or.inl hplace))
      · -- the worker leaves its section, and the handler is let in
        obtain ⟨hsame, -⟩ := frozen_of_step hrunning (by simp) (.of_next hstep)
        obtain ⟨r, hrun, hidle⟩ := exists_return_of_free (hsame.trans hplace) hopen
          ((hfits (Or.inl hplace)).of_enter (.of_next hstep))
        exact ⟨r, (leadsTo_of_next hstep trivial).trans hrun, hidle⟩

end Process

/-- The FIFO never holds more than it can. A handler that runs has a way to return exactly when
its own thread does not hold the mutex it waits for, and there is room for `QUIT`, if it is to
write it. Where it has none it returns in no run: the main thread stays where it is, the FIFO
is not read, no line is accepted any more, shutdown is not broadcast, and once the mutex is the
main thread's no line is handed out. -/
theorem handler_returns_iff (pipeSize workersCount : ℕ) (malloc : ℕ → Block) (capacity : ℕ)
    (p : Process workersCount)
    (hreach : (pipedSystem pipeSize workersCount malloc capacity).Reachable p)
    (hrunning : p.handler ≠ none) :
    p.daemon.fifo.length ≤ pipeSize ∧
      ((∃ q, (pipedSystem pipeSize workersCount malloc capacity).LeadsTo p q ∧
          q.handler = none) ↔ ¬ p.CannotReturn pipeSize) ∧
      (p.CannotReturn pipeSize →
        ∀ q, (pipedSystem pipeSize workersCount malloc capacity).LeadsTo p q →
          q.handler ≠ none ∧ p.Frozen q) := by
  refine ⟨Process.length_fifo_le hreach, ⟨?_, Process.exists_return hreach hrunning⟩,
    fun hstuck q hrun => ?_⟩
  · rintro ⟨q, hrun, hidle⟩ hstuck
    exact (hstuck.of_run hrun).1.handler_ne_none hidle
  · obtain ⟨hstill, hfrozen⟩ := hstuck.of_run hrun
    exact ⟨hstill.handler_ne_none, hfrozen⟩

/-- What writers can put into the FIFO can be there when the signal arrives. -/
theorem Process.exists_interrupted {pipeSize workersCount : ℕ} {malloc : ℕ → Block} {capacity : ℕ}
    (job : Fin workersCount → Block) {bytes : List UInt8} (hroom : bytes.length ≤ pipeSize) :
    ∃ p, [.main, .write bytes, .signal].foldlM Process.next
        (.fresh (.fresh (.fresh workersCount malloc capacity job))) = some p ∧
      (pipedSystem pipeSize workersCount malloc capacity).Reachable p ∧
      p.handler = some .locking ∧ p.mutex = none ∧ p.WritesQuit ∧ p.daemon.fifo = bytes := by
  let system := pipedSystem pipeSize workersCount malloc capacity
  let start := fresh (.fresh (.fresh workersCount malloc capacity job))
  have hstart : system.Reachable start := .start ⟨job, rfl⟩
  have hstarted : system.step start .main { start with active := true } := ⟨rfl, trivial⟩
  have hwritten : system.step { start with active := true } (.write bytes) { start with
      active := true, daemon := { start.daemon with fifo := bytes } } :=
    ⟨rfl, (Nat.zero_add _).trans_le hroom⟩
  refine ⟨_, rfl, ?_, rfl, rfl, ⟨rfl, rfl⟩, rfl⟩
  exact ((hstart.next hstarted).next hwritten).next
    (show system.step _ .signal _ from ⟨rfl, trivial⟩)

/-- A FIFO of 65536 bytes with room for three, when the signal arrives in front of the main
thread's next call. -/
theorem handler_stuck_before_full_fifo :
    let events : List (ProcessEvent 1) := [.main, .write (List.replicate 65533 120), .signal]
    let start := Process.fresh (Daemon.fresh (Pool.fresh 1 (fun _ => List.replicate bufferSize 0)
      queueCapacity fun _ => [0]))
    ∃ p, events.foldlM Process.next start = some p ∧ p.mutex = none ∧
      ∀ q, (pipedSystem 65536 1 (fun _ => List.replicate bufferSize 0) queueCapacity).LeadsTo p q →
        q.handler ≠ none ∧ p.Frozen q := by
  intro events start
  have hroom : (List.replicate 65533 (120 : UInt8)).length = 65533 := List.length_replicate
  obtain ⟨p, hrun, hreach, hplace, hmutex, hwrites, hfifo⟩ :=
    Process.exists_interrupted (fun _ => [0]) (hroom.trans_le (show 65533 ≤ 65536 by omega))
  refine ⟨p, hrun, hmutex, ?_⟩
  refine (handler_returns_iff 65536 1 _ queueCapacity p hreach (by simp [hplace])).2.2 ?_
  refine Or.inr ⟨Or.inl hplace, fun hfits => ?_⟩
  have hquit : quitCommand.length = 4 := rfl
  have hlength := hfits hwrites
  rw [hfifo, hroom] at hlength
  omega

end EasyForetell
