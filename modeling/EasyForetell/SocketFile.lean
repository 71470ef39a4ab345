import EasyForetell.SingleInstance

/-!
# The FIFO of the daemon (queral.c, create_fifo)

A daemon makes its FIFO anew, in the place of whatever the path named before that is no regular
file, and unlinks the path when it shuts down. It goes by the path each time: nothing but the
lock of the pid file ties what it opens, and what it unlinks in the end, to what it made.

## Main results

* `sited_of_reachable`: what the path names while a daemon runs
* `fifo_belongs_to_daemon`: when the path is the daemon's own, and when it is not
-/

namespace EasyForetell

open Memory Theory

/-- What the path of the FIFO names: a FIFO that a daemon made, numbered in their order, a regular
file, a directory, or something else that can be unlinked. -/
inductive Node
  | fifo (made : ℕ)
  | regular
  | directory
  | other
  deriving DecidableEq

/-- Where a process is in `create_fifo` and behind it: not there yet, before `unlink`, before
`mkfifo`, before `open`, back with a descriptor of what it opened, done with the event loop, or
back with -1 and what it logged. -/
inductive SocketPhase
  | idle
  | unlinking
  | making
  | opening (made : ℕ)
  | serving (made : ℕ) (node : Node)
  | closed (made : ℕ) (node : Node)
  | failed (logs : List LogMessage)
  deriving DecidableEq

namespace SocketPhase

/-- The FIFO that a process made. -/
def made? : SocketPhase → Option ℕ
  | opening made | serving made _ | closed made _ => some made
  | idle | unlinking | making | failed _ => none

/-- What the path names for a process that nobody disturbs. -/
def Owns (node : Option Node) : SocketPhase → Prop
  | unlinking | making => node ≠ some .regular
  | opening made => node = some (.fifo made)
  | serving made opened => opened = .fifo made ∧ node = some (.fifo made)
  | idle | closed .. | failed _ => True

end SocketPhase

/-- The processes with what the path of their FIFO names. -/
structure Installation where
  host : Host
  node : Option Node
  fifos : ℕ
  socket : ℕ → SocketPhase

/-- What happens next: a process makes a step up to `already_running`, or ends; a process makes its
next call in `create_fifo`, with what the system makes of it; one unlinks the path in
`should_socket_worker_run`; or somebody else changes what the path names. -/
inductive InstallationEvent
  | host (event : HostEvent)
  | look (pid : ℕ) (seen : Bool)
  | remove (pid : ℕ) (removed : Bool)
  | make (pid : ℕ) (made : Bool)
  | openFifo (pid : ℕ) (opened : Bool)
  | shutdown (pid : ℕ) (removed : Bool)
  | replace (node : Option Node)

/-- The process whose step an event is. -/
def InstallationEvent.pid? : InstallationEvent → Option ℕ
  | host event => event.pid?
  | look pid _ | remove pid _ | make pid _ | openFifo pid _ | shutdown pid _ => some pid
  | replace _ => none

/-- A FIFO of a daemon is one that was made. -/
def Node.Below (fifos : ℕ) : Node → Prop
  | fifo made => made < fifos
  | regular | directory | other => True

instance (fifos : ℕ) : DecidablePred (Node.Below fifos)
  | .fifo _ => inferInstanceAs (Decidable (_ < _))
  | .regular | .directory | .other => isTrue trivial

namespace Installation

/-- The process came back from `daemonize` with 1. -/
def Runs (s : Installation) (pid : ℕ) : Prop :=
  ∃ file written, s.host.phase pid = .running file written

instance (s : Installation) (pid : ℕ) : Decidable (s.Runs pid) :=
  match h : s.host.phase pid with
  | .running file written => isTrue ⟨file, written, h⟩
  | .absent | .opening | .locking _ | .truncating _ | .writing _ | .refused .. =>
    isFalse (by simp [Runs, h])

/-- A process goes on in `create_fifo`. -/
def setSocket (s : Installation) (pid : ℕ) (phase : SocketPhase) : Installation :=
  { s with socket := Function.update s.socket pid phase }

/-- The descriptors of a process go with it. -/
def release (s : Installation) : HostEvent → ℕ → SocketPhase
  | .exit pid => Function.update s.socket pid .idle
  | .start _ | .openFile .. | .lock .. | .truncate .. | .write .. | .unlink => s.socket

/-- What `unlink` leaves of what the path names. -/
def unlinked (s : Installation) (removed : Bool) : Option Node :=
  if removed = true ∧ s.node ≠ some .directory then none else s.node

/-- `log_error` with the path of the FIFO. -/
def socketMessage (before : String) (fifo : Block) (behind : String) : LogMessage :=
  ⟨.error, ascii before ++ cstr fifo ++ ascii behind⟩

/-- One step of the processes. -/
def next (lockFile fifo : Block) (s : Installation) : InstallationEvent → Option Installation
  | .host event =>
    (s.host.next lockFile event).map fun host => { s with host, socket := s.release event }
  -- a failing `lstat` is taken for a path that is free
  | .look pid seen =>
    if s.Runs pid ∧ s.socket pid = .idle then
      if seen = true ∧ s.node = some .regular then
        some (s.setSocket pid (.failed [socketMessage "File '" fifo "' exist and is not a socket"]))
      else some (s.setSocket pid .unlinking)
    else none
  | .remove pid removed =>
    if s.socket pid = .unlinking then
      some { s.setSocket pid .making with node := s.unlinked removed }
    else none
  | .make pid made =>
    if s.socket pid = .making then
      -- `EEXIST`
      if made = true ∧ s.node = none then
        some { s.setSocket pid (.opening s.fifos) with
          node := some (.fifo s.fifos)
          fifos := s.fifos + 1 }
      else some (s.setSocket pid (.failed [socketMessage "Failed to create the socket: '" fifo "'"]))
    else none
  | .openFifo pid opened =>
    match s.socket pid with
    | .opening made =>
      match s.node with
      | some node =>
        -- a directory cannot be opened with `O_RDWR`
        if opened = true ∧ node ≠ .directory then some (s.setSocket pid (.serving made node))
        else some (s.setSocket pid (.failed [socketMessage "Failed to open the socket: '" fifo "'"]))
      | none => some (s.setSocket pid (.failed [socketMessage "Failed to open the socket: '" fifo "'"]))
    | _ => none
  | .shutdown pid removed =>
    match s.socket pid with
    | .serving made node =>
      some { s.setSocket pid (.closed made node) with node := s.unlinked removed }
    | _ => none
  | .replace node =>
    if ∀ new ∈ node, new.Below s.fifos then some { s with node } else none

end Installation

/-- The steps that the system makes. -/
def InstallationEvent.InRange : InstallationEvent → Prop
  | host event => event.InRange
  | look .. | remove .. | make .. | openFifo .. | shutdown .. | replace _ => True

/-- The interleavings of any number of processes with the same configuration, with whatever the
path names to begin with. -/
def installationSystem (lockFile fifo : Block) :
    TransitionSystem Installation InstallationEvent where
  init s := (hostSystem lockFile).init s.host ∧ (∀ pid, s.socket pid = .idle) ∧
    ∀ node ∈ s.node, node.Below s.fifos
  step s event t := event.InRange ∧ s.next lockFile fifo event = some t

/-- A process keeps running while it does not end. -/
theorem Host.Step.running {lockFile : Block} {s t : Host} {event : HostEvent}
    {pid file written : ℕ} (hstep : s.Step lockFile event t) (hstays : event ≠ .exit pid)
    (hrunning : s.phase pid = .running file written) : t.phase pid = .running file written := by
  have hother : ∀ {p : ℕ} {phase : InstancePhase}, s.phase p ≠ .running file written →
      (s.setPhase p phase).phase pid = .running file written := by
    intro p phase hp
    rw [Host.phase_setPhase_of_ne s, hrunning]
    rintro rfl
    exact hp hrunning
  cases hstep with
  | start hphase | find hphase | create hphase | cannotOpen hphase | lose hphase | win hphase
  | cannotLock hphase | truncate _ hphase | write _ hphase => exact hother (by simp [hphase])
  | exit hphase =>
    refine (Host.phase_setPhase_of_ne s ?_ .absent).trans hrunning
    rintro rfl
    exact hstays rfl
  | unlink => exact hrunning

namespace Installation

variable {lockFile fifo : Block} {s t : Installation} {event : InstallationEvent} {pid : ℕ}

@[simp] theorem socket_setSocket_self (s : Installation) (pid : ℕ) (phase : SocketPhase) :
    (s.setSocket pid phase).socket pid = phase := Function.update_self _ _ _

theorem socket_setSocket_of_ne (s : Installation) {pid other : ℕ} (hother : other ≠ pid)
    (phase : SocketPhase) : (s.setSocket pid phase).socket other = s.socket other :=
  Function.update_of_ne hother _ _

/-! ### What a step can do -/

/-- The steps of the processes, branch by branch. -/
inductive Step (lockFile fifo : Block) (s : Installation) : InstallationEvent → Installation → Prop
  | host {event : HostEvent} {host : Host} (hstep : s.host.next lockFile event = some host)
      (hstays : ∀ pid, event ≠ .exit pid) : Step lockFile fifo s (.host event) { s with host }
  | exit {pid : ℕ} {host : Host} (hstep : s.host.next lockFile (.exit pid) = some host) :
      Step lockFile fifo s (.host (.exit pid)) { s.setSocket pid .idle with host }
  | refuse {pid : ℕ} (hruns : s.Runs pid) (hphase : s.socket pid = .idle)
      (hnode : s.node = some .regular) : Step lockFile fifo s (.look pid true) (s.setSocket pid
        (.failed [socketMessage "File '" fifo "' exist and is not a socket"]))
  | look {pid : ℕ} {seen : Bool} (hruns : s.Runs pid) (hphase : s.socket pid = .idle)
      (hnode : seen = true → s.node ≠ some .regular) :
      Step lockFile fifo s (.look pid seen) (s.setSocket pid .unlinking)
  | remove {pid : ℕ} (removed : Bool) (hphase : s.socket pid = .unlinking) :
      Step lockFile fifo s (.remove pid removed)
        { s.setSocket pid .making with node := s.unlinked removed }
  | make {pid : ℕ} (hphase : s.socket pid = .making) (hnode : s.node = none) :
      Step lockFile fifo s (.make pid true) { s.setSocket pid (.opening s.fifos) with
        node := some (.fifo s.fifos)
        fifos := s.fifos + 1 }
  | cannotMake {pid : ℕ} {made : Bool} (hphase : s.socket pid = .making)
      (hnode : made = true → s.node ≠ none) :
      Step lockFile fifo s (.make pid made) (s.setSocket pid
        (.failed [socketMessage "Failed to create the socket: '" fifo "'"]))
  | openFifo {pid made : ℕ} {node : Node} (hphase : s.socket pid = .opening made)
      (hnode : s.node = some node) (hopen : node ≠ .directory) :
      Step lockFile fifo s (.openFifo pid true) (s.setSocket pid (.serving made node))
  | cannotOpen {pid made : ℕ} (opened : Bool) (hphase : s.socket pid = .opening made)
      (hnode : opened = true → ∀ node ∈ s.node, node = .directory) :
      Step lockFile fifo s (.openFifo pid opened) (s.setSocket pid
        (.failed [socketMessage "Failed to open the socket: '" fifo "'"]))
  | shutdown {pid made : ℕ} {node : Node} (removed : Bool)
      (hphase : s.socket pid = .serving made node) :
      Step lockFile fifo s (.shutdown pid removed)
        { s.setSocket pid (.closed made node) with node := s.unlinked removed }
  | replace (node : Option Node) (hbelow : ∀ new ∈ node, new.Below s.fifos) :
      Step lockFile fifo s (.replace node) { s with node }

theorem Step.of_next (hstep : s.next lockFile fifo event = some t) :
    s.Step lockFile fifo event t := by
  cases event with
  | host event =>
    obtain ⟨host, hhost, rfl⟩ := Option.map_eq_some_iff.mp hstep
    cases event with
    | exit pid => exact .exit hhost
    | start | openFile | lock | truncate | write | unlink => exact .host hhost (by simp)
  | look pid seen =>
    simp only [next, Option.ite_none_right_eq_some] at hstep
    obtain ⟨⟨hruns, hphase⟩, hstep⟩ := hstep
    split_ifs at hstep with hseen
    · obtain ⟨rfl, hnode⟩ := hseen
      exact Option.some.inj hstep ▸ .refuse hruns hphase hnode
    · exact Option.some.inj hstep ▸ .look hruns hphase fun hseen' hnode => hseen ⟨hseen', hnode⟩
  | remove pid removed =>
    simp only [next, Option.ite_none_right_eq_some, Option.some.injEq] at hstep
    obtain ⟨hphase, rfl⟩ := hstep
    exact .remove removed hphase
  | make pid made =>
    simp only [next, Option.ite_none_right_eq_some] at hstep
    obtain ⟨hphase, hstep⟩ := hstep
    split_ifs at hstep with hmade
    · obtain ⟨rfl, hnode⟩ := hmade
      exact Option.some.inj hstep ▸ .make hphase hnode
    · exact Option.some.inj hstep ▸ .cannotMake hphase fun hmade' hnode => hmade ⟨hmade', hnode⟩
  | openFifo pid opened =>
    simp only [next] at hstep
    split at hstep
    case h_1 made hphase =>
      split at hstep
      case h_1 node hnode =>
        split_ifs at hstep with hopened
        · obtain ⟨rfl, hopen⟩ := hopened
          exact Option.some.inj hstep ▸ .openFifo hphase hnode hopen
        · refine Option.some.inj hstep ▸ .cannotOpen opened hphase fun hopened' named hnamed => ?_
          obtain rfl := Option.some.inj (hnode.symm.trans hnamed)
          by_contra hopen
          exact hopened ⟨hopened', hopen⟩
      case h_2 hnode =>
        refine Option.some.inj hstep ▸ .cannotOpen opened hphase fun _ named hnamed => ?_
        cases hnode.symm.trans hnamed
    case h_2 => cases hstep
  | shutdown pid removed =>
    simp only [next] at hstep
    split at hstep
    case h_1 made node hphase => exact Option.some.inj hstep ▸ .shutdown removed hphase
    case h_2 => cases hstep
  | replace node =>
    simp only [next, Option.ite_none_right_eq_some, Option.some.injEq] at hstep
    obtain ⟨hbelow, rfl⟩ := hstep
    exact .replace node hbelow

/-- The processes are those of `already_running`. -/
theorem simulation_host (lockFile fifo : Block) :
    (installationSystem lockFile fifo).Simulation (hostSystem lockFile) host where
  init _ hinit := hinit.1
  step := by
    rintro s event t - ⟨hrange, hstep⟩
    cases Step.of_next hstep with
    | @host event _ hhost => exact Or.inr ⟨event, hrange, hhost⟩
    | @exit pid _ hhost => exact Or.inr ⟨.exit pid, hrange, hhost⟩
    | refuse | look | remove | make | cannotMake | openFifo | cannotOpen | shutdown | replace =>
      exact Or.inl rfl

/-! ### What a daemon made -/

/-- The processes in `create_fifo` and behind it run, and no FIFO has a number that comes yet. -/
structure Sited (s : Installation) : Prop where
  runs : ∀ pid, s.socket pid ≠ .idle → s.Runs pid
  below : ∀ node ∈ s.node, node.Below s.fifos
  made_lt : ∀ pid, ∀ made ∈ (s.socket pid).made?, made < s.fifos

/-- A process that runs goes on in `create_fifo`. -/
theorem Sited.setSocket (h : s.Sited) {phase : SocketPhase} {node : Option Node} {fifos : ℕ}
    (hruns : s.Runs pid) (hfifos : s.fifos ≤ fifos) (hmade : ∀ made ∈ phase.made?, made < fifos)
    (hnode : ∀ new ∈ node, new.Below fifos) :
    Sited { s.setSocket pid phase with node, fifos } := by
  refine ⟨fun other hbusy => ?_, hnode, fun other made hother => ?_⟩
  · rcases eq_or_ne other pid with rfl | hne
    · exact hruns
    · exact h.runs other (by simpa [socket_setSocket_of_ne s hne] using hbusy)
  · rcases eq_or_ne other pid with rfl | hne
    · exact hmade made (by simpa using hother)
    · have hold := h.made_lt other made (by simpa [socket_setSocket_of_ne s hne] using hother)
      exact hold.trans_le hfifos

theorem Sited.below_unlinked (h : s.Sited) (removed : Bool) :
    ∀ new ∈ s.unlinked removed, new.Below s.fifos := by
  intro new hnew
  unfold unlinked at hnew
  split_ifs at hnew
  · cases hnew
  · exact h.below new hnew

theorem Sited.of_step (h : s.Sited) (hstep : s.Step lockFile fifo event t) : t.Sited := by
  have hruns : ∀ {pid : ℕ} {phase : SocketPhase}, s.socket pid = phase → phase ≠ .idle →
      s.Runs pid := by
    rintro pid phase rfl hbusy
    exact h.runs pid hbusy
  cases hstep with
  | host hhost hstays =>
    -- to run a FIFO a process must be behind the lock, where only its end can take it away
    refine ⟨fun pid hbusy => ?_, h.below, h.made_lt⟩
    obtain ⟨file, written, hrunning⟩ := h.runs pid hbusy
    exact ⟨file, written, (Host.Step.of_next hhost).running (hstays pid) hrunning⟩
  | @exit pid host hhost =>
    refine ⟨fun other hbusy => ?_, h.below, fun other made hother => ?_⟩
    · rcases eq_or_ne other pid with rfl | hne
      · exact absurd (socket_setSocket_self s other .idle) hbusy
      · obtain ⟨file, written, hrunning⟩ :=
          h.runs other (by simpa [socket_setSocket_of_ne s hne] using hbusy)
        have hstays : HostEvent.exit pid ≠ .exit other := by simpa using hne.symm
        exact ⟨file, written, (Host.Step.of_next hhost).running hstays hrunning⟩
    · rcases eq_or_ne other pid with rfl | hne
      · simp [SocketPhase.made?] at hother
      · exact h.made_lt other made (by simpa [socket_setSocket_of_ne s hne] using hother)
  | refuse hruns' hphase | look hruns' hphase =>
    exact h.setSocket hruns' le_rfl (by simp [SocketPhase.made?]) h.below
  | remove removed hphase =>
    exact h.setSocket (hruns hphase (by simp)) le_rfl (by simp [SocketPhase.made?])
      (h.below_unlinked removed)
  | make hphase =>
    refine h.setSocket (hruns hphase (by simp)) (Nat.le_succ _) ?_ ?_
    · simp [SocketPhase.made?]
    · simp [Node.Below]
  | cannotMake hphase | cannotOpen _ hphase =>
    exact h.setSocket (hruns hphase (by simp)) le_rfl (by simp [SocketPhase.made?]) h.below
  | @openFifo pid _ _ hphase =>
    have hmade := h.made_lt pid
    rw [hphase] at hmade
    exact h.setSocket (hruns hphase (by simp)) le_rfl hmade h.below
  | @shutdown pid _ _ removed hphase =>
    have hmade := h.made_lt pid
    rw [hphase] at hmade
    exact h.setSocket (hruns hphase (by simp)) le_rfl hmade (h.below_unlinked removed)
  | replace node hbelow => exact ⟨h.runs, hbelow, h.made_lt⟩

theorem sited_of_reachable (hreach : (installationSystem lockFile fifo).Reachable s) : s.Sited := by
  refine hreach.invariant ?_ ?_
  · rintro u ⟨-, hidle, hbelow⟩
    refine ⟨fun pid hbusy => absurd (hidle pid) hbusy, hbelow, fun pid made hmade => ?_⟩
    rw [hidle pid] at hmade
    cases hmade
  · rintro u event v - h ⟨-, hstep⟩
    exact h.of_step (.of_next hstep)

/-! ### Undisturbed daemons -/

/-- The pid file is unlinked only while no process has it open, others change what the path of the
FIFO names only while no process has the lock, and `lstat` fails only where there is nothing. -/
def Undisturbed (s : Installation) : InstallationEvent → Prop
  | .host event => s.host.UnlinksUnused event
  | .replace _ => ∀ pid, (s.host.phase pid).locked? = none
  | .look _ seen => s.node ≠ none → seen = true
  | _ => True

/-- The processes of an undisturbed installation. -/
theorem host_of_undisturbed
    (hreach : ((installationSystem lockFile fifo).restrict Undisturbed).Reachable s) :
    ((hostSystem lockFile).restrict Host.UnlinksUnused).Reachable s.host := by
  induction hreach with
  | start hstart => exact .start hstart.1
  | next _ htaken ih =>
    obtain ⟨⟨hrange, hstep⟩, hundisturbed⟩ := htaken
    cases Step.of_next hstep with
    | @host event host hhost =>
      exact ih.next (show ((hostSystem lockFile).restrict Host.UnlinksUnused).step _ event host from
        ⟨⟨hrange, hhost⟩, hundisturbed⟩)
    | @exit pid host hhost =>
      exact ih.next (show ((hostSystem lockFile).restrict Host.UnlinksUnused).step _ (.exit pid)
        host from ⟨⟨hrange, hhost⟩, hundisturbed⟩)
    | refuse | look | remove | make | cannotMake | openFifo | cannotOpen | shutdown | replace =>
      exact ih

theorem Runs.isSome_locked (hruns : s.Runs pid) : (s.host.phase pid).locked?.isSome := by
  obtain ⟨file, written, hrunning⟩ := hruns
  rw [hrunning]
  rfl

/-- While a process runs no other one is in `create_fifo` or behind it. -/
theorem idle_of_ne (hreach : ((installationSystem lockFile fifo).restrict Undisturbed).Reachable s)
    (hruns : s.Runs pid) {other : ℕ} (hne : other ≠ pid) : s.socket other = .idle := by
  by_contra hbusy
  have hother := (sited_of_reachable hreach.of_restrict).runs other hbusy
  exact hne (Host.eq_of_locked (host_of_undisturbed hreach) hother.isSome_locked
    hruns.isSome_locked)

/-- What a process made is what the path names. -/
def Owned (s : Installation) : Prop := ∀ pid, (s.socket pid).Owns s.node

theorem owned_of_reachable
    (hreach : ((installationSystem lockFile fifo).restrict Undisturbed).Reachable s) : s.Owned := by
  refine hreach.invariant ?_ ?_
  · rintro u ⟨-, hidle, -⟩ pid
    rw [hidle pid]
    trivial
  · rintro u event v hu h ⟨⟨-, hstep⟩, hundisturbed⟩ pid
    have hsited := sited_of_reachable hu.of_restrict
    -- the others are idle while a process that runs makes a step
    have hother : ∀ {p : ℕ} {phase : SocketPhase} {node : Option Node}, u.Runs p →
        phase.Owns node → ((u.setSocket p phase).socket pid).Owns node := by
      intro p phase node hruns howns
      rcases eq_or_ne pid p with rfl | hne
      · rwa [socket_setSocket_self]
      · rw [socket_setSocket_of_ne u hne, idle_of_ne hu hruns hne]
        trivial
    have hruns : ∀ {p : ℕ} {phase : SocketPhase}, u.socket p = phase → phase ≠ .idle →
        u.Runs p := by
      rintro p phase rfl hbusy
      exact hsited.runs p hbusy
    cases Step.of_next hstep with
    | host => exact h pid
    | @exit p host hhost =>
      rcases eq_or_ne pid p with rfl | hne
      · rw [show _ = SocketPhase.idle from socket_setSocket_self u pid .idle]
        trivial
      · rw [show _ = u.socket pid from socket_setSocket_of_ne u hne .idle]
        exact h pid
    | refuse hruns' => exact hother hruns' trivial
    | cannotMake hphase => exact hother (hruns hphase (by simp)) trivial
    | look hruns' hphase hnode =>
      refine hother hruns' fun hregular => ?_
      have hregular : u.node = some .regular := hregular
      exact hnode (hundisturbed (by simp [hregular])) hregular
    | @remove p removed hphase =>
      refine hother (hruns hphase (by simp)) ?_
      have hnode := h p
      rw [hphase] at hnode
      simp only [unlinked]
      split_ifs
      · simp [SocketPhase.Owns]
      · exact hnode
    | make hphase hnode => exact hother (hruns hphase (by simp)) rfl
    | cannotOpen opened hphase => exact hother (hruns hphase (by simp)) trivial
    | @openFifo p made node hphase hnode =>
      have hmade := h p
      rw [hphase] at hmade
      exact hother (hruns hphase (by simp)) ⟨Option.some.inj (hnode.symm.trans hmade), hmade⟩
    | shutdown removed hphase => exact hother (hruns hphase (by simp)) trivial
    | replace node =>
      by_cases hbusy : u.socket pid = .idle
      · rw [show _ = SocketPhase.idle from hbusy]
        trivial
      · have hlocked := (hsited.runs pid hbusy).isSome_locked
        rw [hundisturbed pid] at hlocked
        cases hlocked

/-- The path names the FIFO that a process made, and the process has it open or is about to
open it. -/
def Holds (s : Installation) (pid made : ℕ) : Prop :=
  s.node = some (.fifo made) ∧
    (s.socket pid = .opening made ∨ s.socket pid = .serving made (.fifo made))

/-- A process that made a FIFO opens it, and serves until it shuts down or ends. -/
theorem Step.holds {made : ℕ} (hstep : s.Step lockFile fifo event t) (hholds : s.Holds pid made)
    (hstays : event ≠ .host (.exit pid)) (hopens : event ≠ .openFifo pid false)
    (hserves : ∀ removed, event ≠ .shutdown pid removed) :
    t.socket pid = .opening made ∨ t.socket pid = .serving made (.fifo made) := by
  obtain ⟨hnode, hmade⟩ := hholds
  have hother : ∀ {p : ℕ} {phase : SocketPhase}, p ≠ pid →
      (s.setSocket p phase).socket pid = .opening made ∨
        (s.setSocket p phase).socket pid = .serving made (.fifo made) := by
    intro p phase hne
    rwa [socket_setSocket_of_ne s hne.symm]
  -- it makes no other step
  have hphase : ∀ {p : ℕ} {phase : SocketPhase}, s.socket p = phase →
      phase ≠ .opening made → phase ≠ .serving made (.fifo made) → p ≠ pid := by
    rintro p phase rfl hopening hserving rfl
    exact hmade.elim hopening hserving
  cases hstep with
  | host | replace => exact hmade
  | exit => exact hother fun hsame => hstays (by rw [hsame])
  | refuse _ hother' | look _ hother' | remove _ hother' | make hother' | cannotMake hother' =>
    exact hother (hphase hother' (by simp) (by simp))
  | @openFifo p other node hother' hnode' =>
    rcases eq_or_ne p pid with rfl | hne
    · -- what it opens is what it made
      obtain rfl := Option.some.inj (hnode'.symm.trans hnode)
      rcases hmade with hopening | hserving
      · obtain rfl := SocketPhase.opening.inj (hother'.symm.trans hopening)
        exact Or.inr (socket_setSocket_self s _ _)
      · cases hother'.symm.trans hserving
    · exact hother hne
  | @cannotOpen p other opened hother' hnode' =>
    refine hother ?_
    rintro rfl
    cases opened with
    | false => exact hopens rfl
    | true => cases hnode' rfl _ hnode
  | shutdown removed => exact hother fun hsame => hserves removed (by rw [hsame])

/-- So it is for as long as others leave its paths alone. -/
theorem holds_of_reachable {made : ℕ}
    (hreach : ((installationSystem lockFile fifo).restrict Undisturbed).Reachable s)
    (hmade : s.socket pid = .opening made ∨ ∃ node, s.socket pid = .serving made node) :
    s.Holds pid made := by
  have howned := owned_of_reachable hreach pid
  rcases hmade with hopening | ⟨node, hserving⟩
  · rw [hopening] at howned
    exact ⟨howned, Or.inl hopening⟩
  · rw [hserving] at howned
    obtain ⟨rfl, hnode⟩ := howned
    exact ⟨hnode, Or.inr hserving⟩

/-! ### Who gets to serve -/

/-- A process goes on alone. -/
def RunsAlone (lockFile fifo : Block) (pid : ℕ) (s t : Installation) : Prop :=
  ∃ events, ((installationSystem lockFile fifo).restrict Undisturbed).Run s events t ∧
    ∀ event ∈ events, InstallationEvent.pid? event = some pid

theorem RunsAlone.head {u : Installation} (hrest : RunsAlone lockFile fifo pid t u)
    (hstep : s.next lockFile fifo event = some t) (hrange : event.InRange)
    (hundisturbed : s.Undisturbed event) (hpid : event.pid? = some pid) :
    RunsAlone lockFile fifo pid s u := by
  obtain ⟨events, hrun, hevents⟩ := hrest
  exact ⟨event :: events, .cons ⟨⟨hrange, hstep⟩, hundisturbed⟩ hrun,
    List.forall_mem_cons.mpr ⟨hpid, hevents⟩⟩

theorem RunsAlone.trans {u : Installation} (hfirst : RunsAlone lockFile fifo pid s t)
    (hrest : RunsAlone lockFile fifo pid t u) : RunsAlone lockFile fifo pid s u := by
  obtain ⟨events, hrun, hevents⟩ := hfirst
  obtain ⟨more, hrun', hmore⟩ := hrest
  exact ⟨events ++ more, hrun.append hrun', List.forall_mem_append.mpr ⟨hevents, hmore⟩⟩

/-- `create_fifo`, in the place of what can be unlinked. -/
theorem exists_serving (lockFile fifo : Block) (hruns : s.Runs pid) (hidle : s.socket pid = .idle)
    (hregular : s.node ≠ some .regular) (hdirectory : s.node ≠ some .directory) :
    ∃ t, RunsAlone lockFile fifo pid s t ∧
      t.socket pid = .serving s.fifos (.fifo s.fifos) ∧ t.node = some (.fifo s.fifos) ∧
      (∀ other ≠ pid, t.socket other = s.socket other) ∧ t.host = s.host := by
  -- `create_fifo` removes what is in the place, if anything, and makes a FIFO of its own
  let looked := s.setSocket pid .unlinking
  let removed : Installation := { looked.setSocket pid .making with node := none }
  let made : Installation := { removed.setSocket pid (.opening s.fifos) with
    node := some (.fifo s.fifos)
    fifos := s.fifos + 1 }
  let served := made.setSocket pid (.serving s.fifos (.fifo s.fifos))
  have hlook : s.next lockFile fifo (.look pid true) = some looked := by
    simp [next, hruns, hidle, hregular, looked]
  have hremove : looked.next lockFile fifo (.remove pid true) = some removed := by
    have hnode : looked.node ≠ some .directory := hdirectory
    simp [next, unlinked, hnode, removed, looked]
  have hmake : removed.next lockFile fifo (.make pid true) = some made := by
    have hphase : removed.socket pid = .making := socket_setSocket_self looked pid _
    have hnode : removed.node = none := rfl
    have hfifos : removed.fifos = s.fifos := rfl
    simp [next, hphase, hnode, hfifos, made]
  have hopen : made.next lockFile fifo (.openFifo pid true) = some served := by
    have hphase : made.socket pid = .opening s.fifos := socket_setSocket_self removed pid _
    have hnode : made.node = some (.fifo s.fifos) := rfl
    simp [next, hphase, hnode, served]
  have hdone : RunsAlone lockFile fifo pid served served := ⟨[], .nil _, by simp⟩
  refine ⟨served, ?_, socket_setSocket_self made pid _, rfl, fun other hne => ?_, rfl⟩
  · exact (((hdone.head hopen trivial trivial rfl).head hmake trivial trivial rfl).head hremove
      trivial trivial rfl).head hlook trivial (fun _ => rfl) rfl
  · simp [served, made, removed, looked, setSocket, hne]

/-- A process that is not in `create_fifo` goes on as it does without the FIFO. -/
theorem runsAlone_of_host {host : Host} (hidle : s.socket pid = .idle)
    (hrun : Host.RunsAlone lockFile pid s.host host) :
    RunsAlone lockFile fifo pid s { s with host } := by
  obtain ⟨events, hrun, hevents⟩ := hrun
  generalize hstart : s.host = start at hrun
  induction hrun generalizing s with
  | nil => exact ⟨[], hstart ▸ .nil s, by simp⟩
  | @cons _ middle _ event events htaken _ ih =>
    obtain ⟨hfirst, hrest⟩ := List.forall_mem_cons.mp hevents
    have hsame : s.release event = s.socket := by
      cases event with
      | exit other =>
        obtain rfl := Option.some.inj hfirst
        exact Function.update_eq_self_iff.mpr hidle.symm
      | start | openFile | lock | truncate | write | unlink => rfl
    have hstep : s.next lockFile fifo (.host event) = some { s with host := middle } := by
      simp only [next, hstart, htaken.2, Option.map_some, hsame]
    have hlater : RunsAlone lockFile fifo pid { s with host := middle } _ := ih hidle hrest rfl
    refine hlater.head hstep htaken.1 ?_ hfirst
    rintro rfl
    cases hfirst

/-- A regular file or a directory is in the place of the FIFO, and the process has made none. -/
structure Blocked (s : Installation) (pid : ℕ) : Prop where
  node : s.node = some .regular ∨ s.node = some .directory
  made : (s.socket pid).made? = none

theorem Blocked.of_step (h : s.Blocked pid) (hpid : event.pid? = some pid) (howned : s.Owned)
    (hundisturbed : s.Undisturbed event) (hstep : s.Step lockFile fifo event t) :
    t.Blocked pid := by
  have hkept : ∀ phase : SocketPhase, phase.made? = none → (s.setSocket pid phase).Blocked pid := by
    intro phase hmade
    refine ⟨h.node, ?_⟩
    rwa [socket_setSocket_self]
  have howns := howned pid
  have hmade := h.made
  cases hstep with
  | host => exact ⟨h.node, h.made⟩
  | exit =>
    obtain rfl := Option.some.inj hpid
    exact ⟨h.node, (hkept .idle rfl).made⟩
  | refuse | look | cannotMake | cannotOpen =>
    obtain rfl := Option.some.inj hpid
    exact hkept _ rfl
  | remove removed hphase =>
    obtain rfl := Option.some.inj hpid
    rw [hphase] at howns
    -- a regular file was seen before, and a directory cannot be unlinked
    have hdirectory : s.node = some .directory := h.node.resolve_left howns
    refine ⟨Or.inr ?_, (hkept .making rfl).made⟩
    simp [unlinked, hdirectory]
  | make hphase hnode =>
    rcases h.node with hother | hother <;> cases hnode.symm.trans hother
  | openFifo hphase | shutdown _ hphase =>
    obtain rfl := Option.some.inj hpid
    rw [hphase] at hmade
    cases hmade
  | replace => cases hpid

end Installation

/-- As long as nobody else touches the paths of a daemon that has the lock, and `lstat` fails only
where there is nothing, the path of the FIFO names the one that the daemon made and opens, from
its `mkfifo` until it shuts down, ends or fails to open it, and no other process is in
`create_fifo` or behind it; nobody removes a regular file. What is left of other daemons is in
nobody's way: a process gets to serve by itself exactly when neither a regular file nor a
directory is there. Where the pid file of a daemon is unlinked, a second one can take the path
from it, and loses the path when the first one shuts down. -/
theorem fifo_belongs_to_daemon (lockFile fifo : Block) :
    (∀ s, ((installationSystem lockFile fifo).restrict Installation.Undisturbed).Reachable s →
      (∀ p made, (s.socket p = .opening made ∨ ∃ node, s.socket p = .serving made node) →
        s.Holds p made ∧ (∀ q ≠ p, s.socket q = .idle) ∧
          ∀ events t,
            ((installationSystem lockFile fifo).restrict Installation.Undisturbed).Run s events t →
            (∀ event ∈ events, event ≠ .host (.exit p) ∧ event ≠ .openFifo p false ∧
              ∀ removed, event ≠ .shutdown p removed) →
              t.Holds p made) ∧
      (s.node = some .regular → ∀ event t, s.Undisturbed event →
        s.next lockFile fifo event = some t → (∀ node, event ≠ .replace node) →
          t.node = some .regular) ∧
      ∀ p, s.Runs p → s.socket p = .idle →
        ((∃ t, Installation.RunsAlone lockFile fifo p s t ∧
            ∃ made, t.socket p = .serving made (.fifo made)) ↔
          s.node ≠ some .regular ∧ s.node ≠ some .directory)) ∧
    (∀ s, (installationSystem lockFile fifo).Reachable s → ∀ p made,
      s.socket p = .serving made (.fifo made) → s.node = some (.fifo made) →
        ∀ q < pidMax, s.host.phase q = .absent →
          ∃ t made', Installation.RunsAlone lockFile fifo q
              { s with host := { s.host with name := none } } t ∧
            t.socket p = .serving made (.fifo made) ∧ t.socket q = .serving made' (.fifo made') ∧
            t.node = some (.fifo made') ∧ made' ≠ made ∧
            ∃ u, t.next lockFile fifo (.shutdown p true) = some u ∧ u.node = none ∧
              u.socket q = .serving made' (.fifo made')) := by
  refine ⟨fun s hreach => ⟨fun p made hmade => ?_, fun hregular event t hundisturbed hstep
    hothers => ?_, fun p hruns hidle => ⟨?_, fun ⟨hregular, hdirectory⟩ => ?_⟩⟩,
    fun s hreach p made hserving hnode q hq habsent => ?_⟩
  · have hholds := Installation.holds_of_reachable hreach hmade
    have hruns : s.Runs p := by
      refine (Installation.sited_of_reachable hreach.of_restrict).runs p ?_
      rcases hmade with hphase | ⟨node, hphase⟩ <;> simp [hphase]
    refine ⟨hholds, fun q hq => Installation.idle_of_ne hreach hruns hq,
      fun events t hrun hevents => ?_⟩
    refine (hrun.invariant_of_labels (fun u => ((installationSystem lockFile fifo).restrict
      Installation.Undisturbed).Reachable u ∧ u.Holds p made) _
      (fun u event v hu hevent htaken => ?_) hevents ⟨hreach, hholds⟩).2
    have hv := hu.1.next htaken
    refine ⟨hv, Installation.holds_of_reachable hv ?_⟩
    exact ((Installation.Step.of_next htaken.1.2).holds hu.2 hevent.1 hevent.2.1
      hevent.2.2).imp_right fun hserving => ⟨_, hserving⟩
  · -- who has made a FIFO, or found that there is no regular file, is not there
    have howned := Installation.owned_of_reachable hreach
    cases Installation.Step.of_next hstep with
    | host | exit | refuse | look | cannotMake | openFifo | cannotOpen => exact hregular
    | @remove pid removed hphase =>
      have howns := howned pid
      rw [hphase] at howns
      exact absurd hregular howns
    | make hphase hnode => cases hnode.symm.trans hregular
    | @shutdown pid _ _ removed hphase =>
      have howns := howned pid
      rw [hphase] at howns
      cases howns.2.symm.trans hregular
    | replace node => exact absurd rfl (hothers node)
  · rintro ⟨t, ⟨events, hrun, hevents⟩, made, hserving⟩
    rw [← not_or]
    intro hnode
    have hblocked := hrun.invariant_of_labels
      (fun u => ((installationSystem lockFile fifo).restrict
        Installation.Undisturbed).Reachable u ∧ u.Blocked p) _
      (fun u event v hu hpid htaken => ?_) hevents ⟨hreach, hnode, by rw [hidle]; rfl⟩
    · have hmade := hblocked.2.made
      rw [hserving] at hmade
      cases hmade
    · obtain ⟨hu, hblocked⟩ := hu
      exact ⟨hu.next htaken, hblocked.of_step hpid (Installation.owned_of_reachable hu) htaken.2
        (.of_next htaken.1.2)⟩
  · obtain ⟨t, hrun, hserving, -⟩ :=
      Installation.exists_serving lockFile fifo hruns hidle hregular hdirectory
    exact ⟨t, hrun, _, hserving⟩
  · have hsited := Installation.sited_of_reachable hreach
    have hidle : s.socket q = .idle := by
      by_contra hbusy
      obtain ⟨file, written, hrunning⟩ := hsited.runs q hbusy
      rw [habsent] at hrunning
      cases hrunning
    have hne : p ≠ q := by
      rintro rfl
      rw [hserving] at hidle
      cases hidle
    -- the pid file is made anew, and then the FIFO
    have hhost : (hostSystem lockFile).Reachable { s.host with name := none } :=
      .next ((Installation.simulation_host lockFile fifo).reachable hreach)
        (show (hostSystem lockFile).step s.host .unlink _ from ⟨trivial, rfl⟩)
    obtain ⟨host, hrun, file, hrunning⟩ :=
      (Host.sound_of_reachable hhost).exists_runsAlone lockFile habsent hq (by simp)
    have hstart : Installation.RunsAlone lockFile fifo q
        { s with host := { s.host with name := none } } { s with host } :=
      Installation.runsAlone_of_host hidle hrun
    obtain ⟨t, hserve, hserving', hnode', hothers, -⟩ :=
      Installation.exists_serving (s := { s with host }) lockFile fifo ⟨file, _, hrunning⟩ hidle
        (by simp [hnode]) (by simp [hnode])
    have hkept : t.socket p = .serving made (.fifo made) := (hothers p hne).trans hserving
    have hlt : made < s.fifos := hsited.made_lt p made (by rw [hserving]; rfl)
    let down : Installation := { t.setSocket p (.closed made (.fifo made)) with
      node := t.unlinked true }
    have hshutdown : t.next lockFile fifo (.shutdown p true) = some down := by
      simp [Installation.next, hkept, down]
    refine ⟨t, s.fifos, hstart.trans hserve, hkept, hserving', hnode', hlt.ne', down, hshutdown,
      ?_, ?_⟩
    · simp [down, Installation.unlinked, hnode']
    · exact (Installation.socket_setSocket_of_ne t hne.symm _).trans hserving'

end EasyForetell
