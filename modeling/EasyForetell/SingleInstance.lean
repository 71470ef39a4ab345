import EasyForetell.Logger
import EasyForetell.Theory.Transition

/-!
# One daemon at a time (daemon_utils.c, already_running)

Every process that wants to be the daemon opens the pid file, tries to lock it and, with
the lock, writes its pid there. The lock belongs to the file and not to its name, and it
goes when its process does; so a file left behind by a daemon that is gone is in nobody's
way, while one that is removed too early lets a second daemon in.

## Main results

* `sound_of_reachable`: who has the file open, who has its lock, and what is in it
* `single_instance`: when there is one daemon, and when a process gets to be it
* `pidfile_holds_pid`: what the pid file holds, and who can change that
-/

namespace EasyForetell

open Memory Theory

/-- Where a process is in `already_running`: before `open`, before the lock, before
`ftruncate`, before `write`, back with 0, or back with 1 and what it logged. The file is
still open then if the lock failed for another reason than its owner. -/
inductive InstancePhase
  | absent
  | opening
  | locking (file : ℕ)
  | truncating (file : ℕ)
  | writing (file : ℕ)
  | running (file written : ℕ)
  | refused (file : Option ℕ) (logs : List LogMessage)
  deriving DecidableEq

namespace InstancePhase

/-- The file the process has open. -/
def file? : InstancePhase → Option ℕ
  | absent | opening => none
  | locking file | truncating file | writing file | running file _ => some file
  | refused file _ => file

/-- The file the process has the lock of. -/
def locked? : InstancePhase → Option ℕ
  | truncating file | writing file | running file _ => some file
  | absent | opening | locking _ | refused .. => none

theorem file_of_locked {phase : InstancePhase} {file : ℕ} (hlocked : phase.locked? = some file) :
    phase.file? = some file := by
  cases phase with
  | truncating other | writing other | running other written => exact hlocked
  | absent | opening | locking other | refused other logs => cases hlocked

end InstancePhase

/-- `pid_t` is an `int`. -/
def pidMax : ℕ := 2 ^ 31

/-- `buf[16]`. -/
def pidBufferSize : ℕ := 16

/-- What `sprintf` puts into `buf`. -/
def pidText (pid : ℕ) : Block := ascii (toString pid) ++ [0]

/-- The processes, and the files that the path of the pid file has named, numbered in their
order. -/
structure Host where
  name : Option ℕ
  files : ℕ
  content : ℕ → List UInt8
  owner : ℕ → Option ℕ
  phase : ℕ → InstancePhase

/-- What happens next: a process reaches `already_running` in `daemonize` or makes its next
call there, with what the system makes of it; a process ends; or the pid file is
unlinked. -/
inductive HostEvent
  | start (pid : ℕ)
  | openFile (pid : ℕ) (opened : Bool)
  | lock (pid : ℕ) (granted : Bool)
  | truncate (pid : ℕ) (truncated : Bool)
  | write (pid written : ℕ)
  | exit (pid : ℕ)
  | unlink

/-- The process whose step an event is. -/
def HostEvent.pid? : HostEvent → Option ℕ
  | start pid | openFile pid _ | lock pid _ | truncate pid _ | write pid _ | exit pid => some pid
  | unlink => none

namespace Host

/-- A process goes on. -/
def setPhase (s : Host) (pid : ℕ) (phase : InstancePhase) : Host :=
  { s with phase := Function.update s.phase pid phase }

/-- The calls of a process end with it, and its locks go. -/
def release (s : Host) (pid : ℕ) : Host :=
  { s.setPhase pid .absent with
    owner := fun file => if s.owner file = some pid then none else s.owner file }

/-- One step of the processes. -/
def next (lockFile : Block) (s : Host) : HostEvent → Option Host
  | .start pid =>
    if s.phase pid = .absent then some (s.setPhase pid .opening) else none
  | .openFile pid opened =>
    if s.phase pid = .opening then
      if opened then
        match s.name with
        | some file => some (s.setPhase pid (.locking file))
        -- `O_CREAT`
        | none => some { s.setPhase pid (.locking s.files) with
            name := some s.files
            files := s.files + 1
            content := Function.update s.content s.files [] }
      else some (s.setPhase pid (.refused none
        [⟨.error, ascii "Failed to open the lock file: '" ++ cstr lockFile ++ ascii "'"⟩]))
    else none
  | .lock pid granted =>
    match s.phase pid with
    | .locking file =>
      -- another process has the lock: `EACCES` or `EAGAIN`
      if ∃ other ∈ s.owner file, other ≠ pid then some (s.setPhase pid (.refused none []))
      else if granted then
        some { s.setPhase pid (.truncating file) with
          owner := Function.update s.owner file (some pid) }
      else some (s.setPhase pid (.refused (some file)
        [⟨.error, ascii "Failed to lock the daemon"⟩]))
    | _ => none
  | .truncate pid truncated =>
    match s.phase pid with
    | .truncating file =>
      some { s.setPhase pid (.writing file) with
        content := if truncated then Function.update s.content file [] else s.content }
    | _ => none
  | .write pid written =>
    match s.phase pid with
    | .writing file =>
      some { s.setPhase pid (.running file written) with
        content := Function.update s.content file
          (store (s.content file) 0 ((pidText pid).take written)) }
    | _ => none
  | .exit pid => if s.phase pid = .absent then none else some (s.release pid)
  | .unlink => some { s with name := none }

end Host

/-- The pids a system gives, and the bytes `write` can be asked for. -/
def HostEvent.InRange : HostEvent → Prop
  | .start pid => pid < pidMax
  | .write pid written => written ≤ (pidText pid).length
  | _ => True

/-- The interleavings of any number of processes, with a pid file left behind or not. -/
def hostSystem (lockFile : Block) : TransitionSystem Host HostEvent where
  init s := (∀ pid, s.phase pid = .absent) ∧ (∀ file, s.owner file = none) ∧
    ∀ file ∈ s.name, file < s.files
  step s event t := event.InRange ∧ s.next lockFile event = some t

namespace Host

variable {lockFile : Block} {s t : Host} {event : HostEvent} {pid file : ℕ}

@[simp] theorem phase_setPhase_self (s : Host) (pid : ℕ) (phase : InstancePhase) :
    (s.setPhase pid phase).phase pid = phase := Function.update_self _ _ _

theorem phase_setPhase_of_ne (s : Host) {pid other : ℕ} (hother : other ≠ pid)
    (phase : InstancePhase) : (s.setPhase pid phase).phase other = s.phase other :=
  Function.update_of_ne hother _ _

@[simp] theorem content_setPhase (s : Host) (pid : ℕ) (phase : InstancePhase) :
    (s.setPhase pid phase).content = s.content := rfl

@[simp] theorem files_setPhase (s : Host) (pid : ℕ) (phase : InstancePhase) :
    (s.setPhase pid phase).files = s.files := rfl

/-! ### What a step can do -/

/-- The steps of the processes, branch by branch. -/
inductive Step (lockFile : Block) (s : Host) : HostEvent → Host → Prop
  | start {pid : ℕ} (hphase : s.phase pid = .absent) :
      Step lockFile s (.start pid) (s.setPhase pid .opening)
  | find {pid file : ℕ} (hphase : s.phase pid = .opening) (hname : s.name = some file) :
      Step lockFile s (.openFile pid true) (s.setPhase pid (.locking file))
  | create {pid : ℕ} (hphase : s.phase pid = .opening) (hname : s.name = none) :
      Step lockFile s (.openFile pid true) { s.setPhase pid (.locking s.files) with
        name := some s.files
        files := s.files + 1
        content := Function.update s.content s.files [] }
  | cannotOpen {pid : ℕ} (hphase : s.phase pid = .opening) :
      Step lockFile s (.openFile pid false) (s.setPhase pid (.refused none
        [⟨.error, ascii "Failed to open the lock file: '" ++ cstr lockFile ++ ascii "'"⟩]))
  | lose {pid file other : ℕ} {granted : Bool} (hphase : s.phase pid = .locking file)
      (howner : s.owner file = some other) (hother : other ≠ pid) :
      Step lockFile s (.lock pid granted) (s.setPhase pid (.refused none []))
  | win {pid file : ℕ} (hphase : s.phase pid = .locking file)
      (hfree : ∀ other ∈ s.owner file, other = pid) :
      Step lockFile s (.lock pid true) { s.setPhase pid (.truncating file) with
        owner := Function.update s.owner file (some pid) }
  | cannotLock {pid file : ℕ} (hphase : s.phase pid = .locking file) :
      Step lockFile s (.lock pid false) (s.setPhase pid (.refused (some file)
        [⟨.error, ascii "Failed to lock the daemon"⟩]))
  | truncate {pid file : ℕ} (truncated : Bool) (hphase : s.phase pid = .truncating file) :
      Step lockFile s (.truncate pid truncated) { s.setPhase pid (.writing file) with
        content := if truncated then Function.update s.content file [] else s.content }
  | write {pid file : ℕ} (written : ℕ) (hphase : s.phase pid = .writing file) :
      Step lockFile s (.write pid written) { s.setPhase pid (.running file written) with
        content := Function.update s.content file
          (store (s.content file) 0 ((pidText pid).take written)) }
  | exit {pid : ℕ} (hphase : s.phase pid ≠ .absent) : Step lockFile s (.exit pid) (s.release pid)
  | unlink : Step lockFile s .unlink { s with name := none }

theorem Step.of_next (hstep : s.next lockFile event = some t) : s.Step lockFile event t := by
  cases event with
  | start pid =>
    simp only [next, Option.ite_none_right_eq_some, Option.some.injEq] at hstep
    obtain ⟨hphase, rfl⟩ := hstep
    exact .start hphase
  | openFile pid opened =>
    simp only [next, Option.ite_none_right_eq_some] at hstep
    obtain ⟨hphase, hstep⟩ := hstep
    cases opened with
    | true =>
      -- the path names a file, or `open` makes one
      cases hname : s.name with
      | some file =>
        simp only [hname, if_true, Option.some.injEq] at hstep
        exact hstep ▸ .find hphase hname
      | none =>
        simp only [hname, if_true, Option.some.injEq] at hstep
        exact hstep ▸ .create hphase hname
    | false =>
      simp only [Bool.false_eq_true, if_false, Option.some.injEq] at hstep
      exact hstep ▸ .cannotOpen hphase
  | lock pid granted =>
    simp only [next] at hstep
    split at hstep
    case h_1 file hphase =>
      split_ifs at hstep with hheld hgranted
      · -- another process has the lock
        obtain ⟨other, howner, hother⟩ := hheld
        obtain rfl := Option.some.inj hstep
        exact .lose hphase howner hother
      · obtain rfl := hgranted
        obtain rfl := Option.some.inj hstep
        refine .win hphase fun other howner => ?_
        by_contra hother
        exact hheld ⟨other, howner, hother⟩
      · -- nobody else has it, and `fcntl` fails all the same
        obtain rfl := Bool.eq_false_iff.mpr hgranted
        obtain rfl := Option.some.inj hstep
        exact .cannotLock hphase
    case h_2 => cases hstep
  | truncate pid truncated =>
    simp only [next] at hstep
    split at hstep
    case h_1 file hphase =>
      obtain rfl := Option.some.inj hstep
      exact .truncate truncated hphase
    case h_2 => cases hstep
  | write pid written =>
    simp only [next] at hstep
    split at hstep
    case h_1 file hphase =>
      obtain rfl := Option.some.inj hstep
      exact .write written hphase
    case h_2 => cases hstep
  | exit pid =>
    simp only [next] at hstep
    split_ifs at hstep with hphase
    obtain rfl := Option.some.inj hstep
    exact .exit hphase
  | unlink =>
    obtain rfl := Option.some.inj hstep
    exact .unlink

/-! ### Who has the file, and what is in it -/

/-- The lock of a file is with the process that is behind the lock there; files are numbered
in their order; and a process that is back with 0 has written the start of its pid. -/
structure Sound (s : Host) : Prop where
  owner_iff : ∀ file pid, s.owner file = some pid ↔ (s.phase pid).locked? = some file
  inside : ∀ pid, ∀ file ∈ (s.phase pid).file?, file < s.files
  named : ∀ file ∈ s.name, file < s.files
  pid_lt : ∀ pid, s.phase pid ≠ .absent → pid < pidMax
  text : ∀ pid file written, s.phase pid = .running file written →
    ∃ rest, s.content file = (pidText pid).take written ++ rest

/-- A process goes on that has the same locks as before, and writes to the file it has the
lock of. -/
theorem Sound.setPhase (h : s.Sound) {phase : InstancePhase} {content : ℕ → List UInt8}
    (hlocked : phase.locked? = (s.phase pid).locked?)
    (hfile : ∀ file ∈ phase.file?, file < s.files) (hpid : pid < pidMax)
    (hcontent : ∀ file, (s.phase pid).locked? ≠ some file → content file = s.content file)
    (htext : ∀ file written, phase = .running file written →
      ∃ rest, content file = (pidText pid).take written ++ rest) :
    Sound { s.setPhase pid phase with content } := by
  constructor
  case owner_iff =>
    intro file other
    rcases eq_or_ne other pid with rfl | hother
    · exact (h.owner_iff file other).trans (by simp [hlocked])
    · exact (h.owner_iff file other).trans (by simp [phase_setPhase_of_ne s hother])
  case inside =>
    intro other file
    rcases eq_or_ne other pid with rfl | hother
    · simpa using hfile file
    · simpa [phase_setPhase_of_ne s hother] using h.inside other file
  case named => exact h.named
  case pid_lt =>
    intro other
    rcases eq_or_ne other pid with rfl | hother
    · exact fun _ => hpid
    · simpa [phase_setPhase_of_ne s hother] using h.pid_lt other
  case text =>
    intro other file written
    rcases eq_or_ne other pid with rfl | hother
    · simpa using htext file written
    · intro hrunning
      simp only [phase_setPhase_of_ne s hother] at hrunning
      -- the file of another daemon is not this one's
      have howner := (h.owner_iff file other).mpr (by rw [hrunning]; rfl)
      have hapart : (s.phase pid).locked? ≠ some file := by
        intro hsame
        rw [← h.owner_iff, howner] at hsame
        exact hother (Option.some.inj hsame)
      obtain ⟨rest, htext⟩ := h.text other file written hrunning
      exact ⟨rest, (hcontent file hapart).trans htext⟩

/-- `O_CREAT` makes a file that nobody has. -/
theorem Sound.createFile (h : s.Sound) :
    Sound { s with
      name := some s.files
      files := s.files + 1
      content := Function.update s.content s.files [] } where
  owner_iff := h.owner_iff
  inside pid file hfile := Nat.lt_succ_of_lt (h.inside pid file hfile)
  named file hname := by
    obtain rfl := Option.some.inj hname
    exact Nat.lt_succ_self _
  pid_lt := h.pid_lt
  text pid file written hrunning := by
    have hold := h.inside pid file (by rw [hrunning]; rfl)
    obtain ⟨rest, htext⟩ := h.text pid file written hrunning
    exact ⟨rest, (Function.update_of_ne (by omega) _ _).trans htext⟩

/-- The lock of a file nobody else has the lock of. -/
theorem Sound.grant (h : s.Sound) (hphase : s.phase pid = .locking file)
    (hfree : ∀ other ∈ s.owner file, other = pid) :
    Sound { s.setPhase pid (.truncating file) with
      owner := Function.update s.owner file (some pid) } := by
  constructor
  case owner_iff =>
    intro other p
    change Function.update s.owner file (some pid) other = some p ↔
      ((s.setPhase pid (.truncating file)).phase p).locked? = some other
    rcases eq_or_ne p pid with rfl | hp
    · rw [phase_setPhase_self]
      rcases eq_or_ne other file with rfl | hother
      · rw [Function.update_self]
        exact iff_of_true rfl rfl
      · -- the process had no lock before
        rw [Function.update_of_ne hother, h.owner_iff, hphase]
        exact iff_of_false nofun fun hsame => hother (Option.some.inj hsame).symm
    · rw [phase_setPhase_of_ne s hp, ← h.owner_iff]
      rcases eq_or_ne other file with rfl | hother
      · rw [Function.update_self]
        exact iff_of_false (fun hsame => hp (Option.some.inj hsame).symm)
          fun howner => hp (hfree p howner)
      · rw [Function.update_of_ne hother]
  case inside =>
    intro p other
    rcases eq_or_ne p pid with rfl | hp
    · intro hother
      simp only [phase_setPhase_self] at hother
      exact h.inside p other (by rw [hphase]; exact hother)
    · simpa [phase_setPhase_of_ne s hp] using h.inside p other
  case named => exact h.named
  case pid_lt =>
    intro p
    rcases eq_or_ne p pid with rfl | hp
    · exact fun _ => h.pid_lt p (by simp [hphase])
    · simpa [phase_setPhase_of_ne s hp] using h.pid_lt p
  case text =>
    intro p other written
    rcases eq_or_ne p pid with rfl | hp
    · simp
    · simpa [phase_setPhase_of_ne s hp] using h.text p other written

/-- The locks of a process that ends are nobody's. -/
theorem Sound.release (h : s.Sound) (pid : ℕ) : (s.release pid).Sound := by
  have hother : ∀ p, p ≠ pid → (s.release pid).phase p = s.phase p :=
    fun p hp => phase_setPhase_of_ne s hp .absent
  have hself : (s.release pid).phase pid = .absent := phase_setPhase_self s pid .absent
  constructor
  case owner_iff =>
    intro file p
    -- what the process had locked is free, and all else as it was
    change (if s.owner file = some pid then none else s.owner file) = some p ↔ _
    rcases eq_or_ne p pid with rfl | hp
    · rw [hself]
      refine iff_of_false ?_ nofun
      split_ifs with howner
      · nofun
      · exact howner
    · rw [hother p hp, ← h.owner_iff]
      split_ifs with howner
      · exact iff_of_false nofun fun hsame => hp (Option.some.inj (hsame.symm.trans howner))
      · exact Iff.rfl
  case inside =>
    intro p
    rcases eq_or_ne p pid with rfl | hp
    · rw [hself]
      nofun
    · rw [hother p hp]
      exact h.inside p
  case named => exact h.named
  case pid_lt =>
    intro p
    rcases eq_or_ne p pid with rfl | hp
    · exact fun hpresent => absurd hself hpresent
    · rw [hother p hp]
      exact h.pid_lt p
  case text =>
    intro p
    rcases eq_or_ne p pid with rfl | hp
    · rw [hself]
      nofun
    · rw [hother p hp]
      exact h.text p

theorem Sound.of_step (h : s.Sound) (hrange : event.InRange) (hstep : s.Step lockFile event t) :
    t.Sound := by
  cases hstep with
  | start hphase =>
    exact h.setPhase (by rw [hphase]; rfl) nofun hrange (fun _ _ => rfl) nofun
  | find hphase hname =>
    refine h.setPhase (by rw [hphase]; rfl) (fun other hother => ?_)
      (h.pid_lt _ (by simp [hphase])) (fun _ _ => rfl) nofun
    obtain rfl := Option.some.inj hother
    exact h.named _ hname
  | create hphase hname =>
    refine h.createFile.setPhase (by rw [hphase]; rfl) (fun other hother => ?_)
      (h.pid_lt _ (by simp [hphase])) (fun _ _ => rfl) nofun
    obtain rfl := Option.some.inj hother
    exact Nat.lt_succ_self _
  | cannotOpen hphase | lose hphase =>
    exact h.setPhase (by rw [hphase]; rfl) nofun (h.pid_lt _ (by simp [hphase]))
      (fun _ _ => rfl) nofun
  | win hphase hfree => exact h.grant hphase hfree
  | cannotLock hphase =>
    refine h.setPhase (by rw [hphase]; rfl) (fun other hother => ?_)
      (h.pid_lt _ (by simp [hphase])) (fun _ _ => rfl) nofun
    exact h.inside _ other (by rw [hphase]; exact hother)
  | truncate truncated hphase =>
    refine h.setPhase (by rw [hphase]; rfl) (fun other hother => ?_)
      (h.pid_lt _ (by simp [hphase])) (fun other hother => ?_) nofun
    · exact h.inside _ other (by rw [hphase]; exact hother)
    · rw [hphase] at hother
      -- the other files keep their content
      have hne : other ≠ _ := fun hsame => hother (congrArg some hsame.symm)
      split_ifs
      · exact Function.update_of_ne hne _ _
      · rfl
  | write written hphase =>
    refine h.setPhase (by rw [hphase]; rfl) (fun other hother => ?_)
      (h.pid_lt _ (by simp [hphase])) (fun other hother => ?_) (fun other written' hwritten => ?_)
    · exact h.inside _ other (by rw [hphase]; exact hother)
    · rw [hphase] at hother
      exact Function.update_of_ne (fun hsame => hother (congrArg some hsame.symm)) _ _
    · -- what is written is the start of the text of the pid
      obtain ⟨rfl, rfl⟩ := InstancePhase.running.inj hwritten
      rw [Function.update_self, store, List.take_zero, List.nil_append]
      exact ⟨_, rfl⟩
  | exit hphase => exact h.release _
  | unlink =>
    refine ⟨h.owner_iff, h.inside, fun file hname => ?_, h.pid_lt, h.text⟩
    cases hname

theorem sound_of_reachable (hreach : (hostSystem lockFile).Reachable s) : s.Sound := by
  refine hreach.invariant ?_ ?_
  · rintro u ⟨habsent, hfree, hnamed⟩
    constructor
    case owner_iff => simp [habsent, hfree, InstancePhase.locked?]
    case inside => simp [habsent, InstancePhase.file?]
    case named => exact hnamed
    case pid_lt => exact fun pid hpresent => absurd (habsent pid) hpresent
    case text => simp [habsent]
  · rintro u event v - h ⟨hrange, hstep⟩
    exact h.of_step hrange (.of_next hstep)

/-- A process keeps what it has, and the file it has the lock of, while it makes no step
itself. -/
theorem Sound.frame (h : s.Sound) (hstep : s.Step lockFile event t) (hpid : event.pid? ≠ some pid) :
    t.phase pid = s.phase pid ∧
      ∀ file, (s.phase pid).locked? = some file → t.content file = s.content file := by
  have hother : ∀ {p : ℕ}, some p ≠ some pid → pid ≠ p :=
    fun hne hsame => hne (congrArg some hsame.symm)
  -- another process has the lock of another file
  have hapart : ∀ {p : ℕ} {file other : ℕ}, pid ≠ p → (s.phase pid).locked? = some file →
      (s.phase p).locked? = some other → file ≠ other := by
    rintro p file other hne hmine htheirs rfl
    rw [← h.owner_iff] at hmine htheirs
    exact hne (Option.some.inj (hmine.symm.trans htheirs))
  cases hstep with
  | start | find | cannotOpen | lose | cannotLock | win =>
    exact ⟨phase_setPhase_of_ne s (hother hpid) _, fun _ _ => rfl⟩
  | create hphase hname =>
    refine ⟨phase_setPhase_of_ne s (hother hpid) _, fun file hlocked => ?_⟩
    have hold := h.inside pid file (InstancePhase.file_of_locked hlocked)
    exact Function.update_of_ne (by omega) _ _
  | truncate truncated hphase =>
    refine ⟨phase_setPhase_of_ne s (hother hpid) _, fun file hlocked => ?_⟩
    have hne := hapart (hother hpid) hlocked (by rw [hphase]; rfl)
    dsimp only
    split_ifs
    · exact Function.update_of_ne hne _ _
    · rfl
  | write written hphase =>
    refine ⟨phase_setPhase_of_ne s (hother hpid) _, fun file hlocked => ?_⟩
    exact Function.update_of_ne (hapart (hother hpid) hlocked (by rw [hphase]; rfl)) _ _
  | exit hphase => exact ⟨phase_setPhase_of_ne s (hother hpid) _, fun _ _ => rfl⟩
  | unlink => exact ⟨rfl, fun _ _ => rfl⟩

/-- So it is along a run of the others. -/
theorem frame_of_run (hreach : (hostSystem lockFile).Reachable s) {events : List HostEvent}
    (hrun : (hostSystem lockFile).Run s events t)
    (hevents : ∀ event ∈ events, HostEvent.pid? event ≠ some pid) :
    t.phase pid = s.phase pid ∧
      ∀ file, (s.phase pid).locked? = some file → t.content file = s.content file := by
  have hkept := hrun.invariant_of_labels
    (fun u => (hostSystem lockFile).Reachable u ∧ u.phase pid = s.phase pid ∧
      ∀ file, (s.phase pid).locked? = some file → u.content file = s.content file) _
    (fun u event v hu hpid htaken => ?_) hevents ⟨hreach, rfl, fun _ _ => rfl⟩
  · exact hkept.2
  · obtain ⟨hu, hphase, hcontent⟩ := hu
    obtain ⟨hphase', hcontent'⟩ := (sound_of_reachable hu).frame (.of_next htaken.2) hpid
    rw [hphase] at hphase' hcontent'
    exact ⟨hu.next htaken, hphase',
      fun file hlocked => (hcontent' file hlocked).trans (hcontent file hlocked)⟩

/-! ### One at a time -/

/-- The pid file is unlinked only while no process has it open. -/
def UnlinksUnused (s : Host) (event : HostEvent) : Prop :=
  event = .unlink → ∀ pid, (s.phase pid).file? = none

/-- All processes have the same file open, the one the path names. -/
def Shared (s : Host) : Prop := ∀ pid, ∀ file ∈ (s.phase pid).file?, s.name = some file

theorem Shared.setPhase (h : s.Shared) {phase : InstancePhase}
    (hphase : ∀ file ∈ phase.file?, s.name = some file) : (s.setPhase pid phase).Shared := by
  intro other file hfile
  rcases eq_or_ne other pid with rfl | hother
  · rw [phase_setPhase_self] at hfile
    exact hphase file hfile
  · rw [phase_setPhase_of_ne s hother] at hfile
    exact h other file hfile

theorem Shared.of_step (h : s.Shared) (hunused : s.UnlinksUnused event)
    (hstep : s.Step lockFile event t) : t.Shared := by
  cases hstep with
  | start | cannotOpen | lose | exit => exact h.setPhase nofun
  | find hphase hname =>
    refine h.setPhase fun file hfile => ?_
    obtain rfl := Option.some.inj hfile
    exact hname
  | create hphase hname =>
    -- with the path free nobody has a file open
    have hnone : ∀ other file, (s.phase other).file? ≠ some file := by
      intro other file hfile
      rw [h other file hfile] at hname
      cases hname
    rename_i pid
    intro other file hfile
    rcases eq_or_ne other pid with rfl | hother
    · simp only [phase_setPhase_self] at hfile
      exact hfile
    · simp only [phase_setPhase_of_ne s hother] at hfile
      exact absurd hfile (hnone other file)
  | win hphase | cannotLock hphase | truncate _ hphase | write _ hphase =>
    have hkept := h _ _ (show _ ∈ (s.phase _).file? by rw [hphase]; rfl)
    refine h.setPhase fun file hfile => ?_
    obtain rfl := Option.some.inj hfile
    exact hkept
  | unlink =>
    intro pid file hfile
    rw [Option.mem_def, hunused rfl pid] at hfile
    cases hfile

theorem shared_of_reachable (hreach : ((hostSystem lockFile).restrict UnlinksUnused).Reachable s) :
    s.Shared := by
  refine hreach.invariant ?_ ?_
  · rintro u ⟨habsent, -⟩ pid file hfile
    rw [habsent pid] at hfile
    cases hfile
  · rintro u event v - h ⟨⟨-, hstep⟩, hunused⟩
    exact h.of_step hunused (.of_next hstep)

/-- At most one process is behind the lock. -/
theorem eq_of_locked (hreach : ((hostSystem lockFile).restrict UnlinksUnused).Reachable s)
    {p q : ℕ} (hp : (s.phase p).locked?.isSome) (hq : (s.phase q).locked?.isSome) : p = q := by
  -- both have the file open that the path names, and its lock has one owner
  have h := sound_of_reachable hreach.of_restrict
  have hshared := shared_of_reachable hreach
  obtain ⟨file, hfile⟩ := Option.isSome_iff_exists.mp hp
  obtain ⟨file', hfile'⟩ := Option.isSome_iff_exists.mp hq
  have hname := hshared p file (InstancePhase.file_of_locked hfile)
  have hname' := hshared q file' (InstancePhase.file_of_locked hfile')
  obtain rfl := Option.some.inj (hname.symm.trans hname')
  have howner := (h.owner_iff file p).mpr hfile
  have howner' := (h.owner_iff file q).mpr hfile'
  exact Option.some.inj (howner.symm.trans howner')

/-! ### Who gets to run -/

/-- A process goes on alone. -/
def RunsAlone (lockFile : Block) (pid : ℕ) (s t : Host) : Prop :=
  ∃ events, (hostSystem lockFile).Run s events t ∧
    ∀ event ∈ events, HostEvent.pid? event = some pid

theorem RunsAlone.head {u : Host} (hrest : RunsAlone lockFile pid t u)
    (hstep : s.next lockFile event = some t) (hrange : event.InRange)
    (hpid : event.pid? = some pid) : RunsAlone lockFile pid s u := by
  obtain ⟨events, hrun, hevents⟩ := hrest
  exact ⟨event :: events, .cons ⟨hrange, hstep⟩ hrun, List.forall_mem_cons.mpr ⟨hpid, hevents⟩⟩

/-- A process that finds the lock free gets to run. -/
theorem exists_runsAlone_of_locking (lockFile : Block) (hphase : s.phase pid = .locking file)
    (hfree : s.owner file = none) :
    ∃ t, RunsAlone lockFile pid s t ∧ t.phase pid = .running file (pidText pid).length := by
  let locked : Host := { s.setPhase pid (.truncating file) with
    owner := Function.update s.owner file (some pid) }
  let truncated : Host := { locked.setPhase pid (.writing file) with
    content := Function.update s.content file [] }
  let written : Host := { truncated.setPhase pid (.running file (pidText pid).length) with
    content := Function.update truncated.content file
      (store (truncated.content file) 0 ((pidText pid).take (pidText pid).length)) }
  have hlock : s.next lockFile (.lock pid true) = some locked := by
    simp [next, hphase, hfree, locked]
  have htruncate : locked.next lockFile (.truncate pid true) = some truncated := by
    simp [next, truncated, locked]
  have hwrite : truncated.next lockFile (.write pid (pidText pid).length) = some written := by
    have htruncated : truncated.phase pid = .writing file := phase_setPhase_self locked pid _
    simp [next, htruncated, written]
  refine ⟨written, ?_, phase_setPhase_self truncated pid _⟩
  have hdone : RunsAlone lockFile pid written written := ⟨[], .nil _, nofun⟩
  exact ((hdone.head hwrite le_rfl rfl).head htruncate trivial rfl).head hlock trivial rfl

/-- A process that is not there yet gets to run when nobody has the lock of the pid file. -/
theorem Sound.exists_runsAlone (h : s.Sound) (lockFile : Block) (habsent : s.phase pid = .absent)
    (hpid : pid < pidMax) (hfree : ∀ file ∈ s.name, s.owner file = none) :
    ∃ t, RunsAlone lockFile pid s t ∧ ∃ file, t.phase pid = .running file (pidText pid).length := by
  have hstart : s.next lockFile (.start pid) = some (s.setPhase pid .opening) := by
    simp [next, habsent]
  cases hname : s.name with
  | some file =>
    have hopen : (s.setPhase pid .opening).next lockFile (.openFile pid true) =
        some ((s.setPhase pid .opening).setPhase pid (.locking file)) := by
      have hsame : (s.setPhase pid .opening).name = some file := hname
      simp [next, hsame]
    obtain ⟨t, hrun, hrunning⟩ := exists_runsAlone_of_locking lockFile
      (phase_setPhase_self (s.setPhase pid .opening) pid (.locking file)) (hfree file hname)
    exact ⟨t, (hrun.head hopen trivial rfl).head hstart hpid rfl, file, hrunning⟩
  | none =>
    -- the new file has no owner
    have hnew : s.owner s.files = none := by
      rw [Option.eq_none_iff_forall_ne_some]
      intro other howner
      have hlocked := (h.owner_iff _ _).mp howner
      exact absurd (h.inside other _ (InstancePhase.file_of_locked hlocked)) (lt_irrefl _)
    let created : Host := { (s.setPhase pid .opening).setPhase pid (.locking s.files) with
      name := some s.files
      files := s.files + 1
      content := Function.update s.content s.files [] }
    have hopen : (s.setPhase pid .opening).next lockFile (.openFile pid true) = some created := by
      have hsame : (s.setPhase pid .opening).name = none := hname
      simp [next, hsame, created]
    have hlocking : created.phase pid = .locking s.files :=
      phase_setPhase_self (s.setPhase pid .opening) pid _
    obtain ⟨t, hrun, hrunning⟩ := exists_runsAlone_of_locking lockFile hlocking hnew
    exact ⟨t, (hrun.head hopen trivial rfl).head hstart hpid rfl, s.files, hrunning⟩

/-- Another process has the lock of the file the path names, and this one may have that file
open, but no lock. -/
structure ShutOut (s : Host) (pid other file : ℕ) : Prop where
  named : s.name = some file
  owned : s.owner file = some other
  open_eq : ∀ file' ∈ (s.phase pid).file?, file' = file
  unlocked : (s.phase pid).locked? = none

theorem ShutOut.of_step {other : ℕ} (h : s.ShutOut pid other file) (hne : other ≠ pid)
    (hpid : event.pid? = some pid) (hstep : s.Step lockFile event t) :
    t.ShutOut pid other file := by
  have hkept : ∀ phase : InstancePhase, phase.locked? = none →
      (∀ file' ∈ phase.file?, file' = file) → (s.setPhase pid phase).ShutOut pid other file := by
    intro phase hunlocked hopen
    refine ⟨h.named, h.owned, ?_, ?_⟩
    · rwa [phase_setPhase_self]
    · rwa [phase_setPhase_self]
  cases hstep with
  | start | cannotOpen | lose =>
    obtain rfl := Option.some.inj hpid
    exact hkept _ rfl nofun
  | find hphase hname =>
    obtain rfl := Option.some.inj hpid
    refine hkept _ rfl fun file' hfile' => ?_
    obtain rfl := Option.some.inj hfile'
    exact Option.some.inj (hname.symm.trans h.named)
  | create hphase hname =>
    -- the path names a file, so none is made
    rw [h.named] at hname
    cases hname
  | win hphase hfree =>
    obtain rfl := Option.some.inj hpid
    -- the file it has open is the one the other process has locked
    obtain rfl := h.open_eq _ (by rw [hphase]; rfl)
    exact absurd (hfree other h.owned) hne
  | cannotLock hphase =>
    obtain rfl := Option.some.inj hpid
    exact hkept _ rfl fun file' hfile' => h.open_eq file' (by rw [hphase]; exact hfile')
  | truncate truncated hphase | write written hphase =>
    obtain rfl := Option.some.inj hpid
    -- only a process that has the lock is there
    have hunlocked := h.unlocked
    rw [hphase] at hunlocked
    cases hunlocked
  | exit hphase =>
    obtain rfl := Option.some.inj hpid
    refine ⟨h.named, ?_, ?_, ?_⟩
    · exact (if_neg fun hsame => hne (Option.some.inj (h.owned.symm.trans hsame))).trans h.owned
    · rw [release]
      simp [InstancePhase.file?]
    · rw [release]
      simp [InstancePhase.locked?]
  | unlink => cases hpid

end Host

/-- While the pid file is unlinked only when no process has it open, at most one process is
behind the lock. A process that is not there yet can get to run by itself exactly when
nobody has the lock of the file that the path names, whatever is left of the daemons before
it; so where the file of a daemon that runs is unlinked, a second one can come to run
beside it. -/
theorem single_instance (lockFile : Block) :
    (∀ s, ((hostSystem lockFile).restrict Host.UnlinksUnused).Reachable s →
      ∀ p q, (s.phase p).locked?.isSome → (s.phase q).locked?.isSome → p = q) ∧
    (∀ s, (hostSystem lockFile).Reachable s → ∀ q < pidMax, s.phase q = .absent →
      ((∃ t, Host.RunsAlone lockFile q s t ∧ ∃ file written, t.phase q = .running file written) ↔
        ∀ file ∈ s.name, s.owner file = none)) ∧
    (∀ s, (hostSystem lockFile).Reachable s → ∀ p file written,
      s.phase p = .running file written → ∀ q < pidMax, s.phase q = .absent →
        ∃ t, Host.RunsAlone lockFile q { s with name := none } t ∧
          t.phase p = .running file written ∧
          ∃ file' written', t.phase q = .running file' written') := by
  refine ⟨fun s hreach p q hp hq => Host.eq_of_locked hreach hp hq,
    fun s hreach q hq habsent => ⟨?_, fun hfree => ?_⟩,
    fun s hreach p file written hrunning q hq habsent => ?_⟩
  · rintro ⟨t, ⟨events, hrun, hevents⟩, file, written, hrunning⟩ named hnamed
    -- an owner of the lock keeps it while only `q` takes steps, and so shuts `q` out
    by_contra howned
    obtain ⟨other, howner⟩ := Option.ne_none_iff_exists'.mp howned
    have hne : other ≠ q := by
      rintro rfl
      rw [(Host.sound_of_reachable hreach).owner_iff, habsent] at howner
      cases howner
    have hshut := hrun.invariant_of_labels (fun u => u.ShutOut q other named) _
      (fun u event v hu hpid htaken => hu.of_step hne hpid (.of_next htaken.2)) hevents
      ⟨hnamed, howner, by rw [habsent]; nofun, by rw [habsent]; rfl⟩
    have hunlocked := hshut.unlocked
    rw [hrunning] at hunlocked
    cases hunlocked
  · obtain ⟨t, hrun, file, hrunning⟩ :=
      (Host.sound_of_reachable hreach).exists_runsAlone lockFile habsent hq hfree
    exact ⟨t, hrun, file, _, hrunning⟩
  · -- the path names nothing, so `q` locks a file that it makes itself
    have hunlinked : (hostSystem lockFile).Reachable { s with name := none } :=
      .next hreach (show (hostSystem lockFile).step s .unlink _ from ⟨trivial, rfl⟩)
    obtain ⟨t, ⟨events, hrun, hevents⟩, file', hrunning'⟩ :=
      (Host.sound_of_reachable hunlinked).exists_runsAlone lockFile habsent hq nofun
    refine ⟨t, ⟨events, hrun, hevents⟩, ?_, file', _, hrunning'⟩
    have hother : q ≠ p := by
      rintro rfl
      rw [habsent] at hrunning
      cases hrunning
    refine (Host.frame_of_run hunlinked hrun fun event hevent hsame => ?_).1.trans hrunning
    exact hother (Option.some.inj ((hevents event hevent).symm.trans hsame))

/-! ### What is in the pid file -/

theorem nul_notMem_digits (n : ℕ) : (0 : UInt8) ∉ ascii (toString n) := by
  intro hmem
  obtain ⟨c, hc, hzero⟩ := List.mem_map.mp hmem
  have hdigits : (toString n).toList = Nat.toDigits 10 n := Nat.toList_repr
  rw [hdigits] at hc
  have hdigit := Nat.isDigit_of_mem_toDigits (by decide) (by decide) hc
  simp only [Char.isDigit, Bool.and_eq_true, decide_eq_true_eq] at hdigit
  obtain ⟨hlow, hhigh⟩ := hdigit
  have hbyte : c.toNat % 256 = 0 := congrArg UInt8.toNat hzero
  change 48 ≤ c.toNat at hlow
  change c.toNat ≤ 57 at hhigh
  omega

/-- The text of a `pid_t` fits in `buf`. -/
theorem length_pidText_le {pid : ℕ} (hpid : pid < pidMax) :
    (pidText pid).length ≤ pidBufferSize := by
  have hdigits : (toString pid).length ≤ 10 :=
    (Nat.length_repr_le_iff (by decide)).mpr (hpid.trans (by decide))
  rw [pidText, List.length_append, length_ascii, List.length_singleton]
  unfold pidBufferSize
  omega

/-- The file of a daemon that runs starts with what `write` wrote of its pid, which fits in
`buf`; written whole, it is the string in the file, whether or not `ftruncate` did what it
should. Whatever the other processes do, the daemon keeps the lock, and nobody writes to
the file. -/
theorem pidfile_holds_pid (lockFile : Block) (s : Host)
    (hreach : (hostSystem lockFile).Reachable s) (pid file written : ℕ)
    (hrunning : s.phase pid = .running file written) :
    (pidText pid).length ≤ pidBufferSize ∧
      (∃ rest, s.content file = (pidText pid).take written ++ rest) ∧
      (written = (pidText pid).length → cstr (s.content file) = ascii (toString pid)) ∧
      ∀ events t, (hostSystem lockFile).Run s events t →
        (∀ event ∈ events, HostEvent.pid? event ≠ some pid) →
          t.phase pid = .running file written ∧ t.owner file = some pid ∧
            t.content file = s.content file := by
  have h := Host.sound_of_reachable hreach
  have htext := h.text pid file written hrunning
  refine ⟨length_pidText_le (h.pid_lt pid (by simp [hrunning])), htext, ?_,
    fun events t hrun hevents => ?_⟩
  · rintro rfl
    obtain ⟨rest, hcontent⟩ := htext
    rw [hcontent, List.take_length, pidText, List.append_assoc]
    exact cstr_append_nul (nul_notMem_digits pid)
  · obtain ⟨hphase, hcontent⟩ := Host.frame_of_run hreach hrun hevents
    rw [hrunning] at hphase hcontent
    have hsound := Host.sound_of_reachable (hrun.reachable hreach)
    exact ⟨hphase, (hsound.owner_iff file pid).mpr (by rw [hphase]; rfl), hcontent file rfl⟩

/-- The daemon with pid 42, in the file that another one left. -/
theorem pidfile_holds_pid_over_older :
    let events : List HostEvent := [.start 42, .openFile 42 true, .lock 42 true,
      .truncate 42 false, .write 42 3]
    let start : Host := ⟨some 0, 1, fun _ => ascii "12345" ++ [0], fun _ => none, fun _ => .absent⟩
    ∃ s, events.foldlM (Host.next []) start = some s ∧
      s.content 0 = ascii "42" ++ [0] ++ ascii "45" ++ [0] ∧
      cstr (s.content 0) = ascii (toString 42) := by
  intro events start
  have hstart : (hostSystem []).init start := by
    refine ⟨fun _ => rfl, fun _ => rfl, fun file hfile => ?_⟩
    obtain rfl := Option.some.inj hfile
    decide
  have hrange : ∀ event ∈ events, event.InRange := by
    simp only [events, List.forall_mem_cons]
    exact ⟨show 42 < pidMax by decide, trivial, trivial, trivial,
      show 3 ≤ (pidText 42).length by decide, nofun⟩
  refine ⟨_, rfl, by decide, ?_⟩
  refine (pidfile_holds_pid [] _ ?_ 42 0 3 rfl).2.2.1 rfl
  exact .of_foldlM (fun _ _ _ hin htaken => And.intro hin htaken) (.start hstart) events hrange rfl

end EasyForetell
