import EasyForetell.SingleInstance
import Mathlib.Data.Finset.Card
import Mathlib.Data.Fintype.EquivFin

/-!
# Becoming a daemon (daemon_utils.c, daemonize)

`daemonize` leaves its parent, its terminal, its directory and its files behind. The files
go in a loop over all descriptors below the limit, with a counter of 32 bits; behind it the
descriptors 0, 1 and 2 have to be free for `/dev/null`, which takes them only if no
inherited descriptor below 3 is at the limit or beyond.

## Main results

* `closeLoop_ends_iff`: when the loop over the descriptors ends
* `daemonize_succeeds_iff`: when the process is the daemon, and what it has left then
-/

namespace EasyForetell

open Memory

/-- What `fork` returns: -1, the pid of the child, or 0. -/
inductive Fork
  | failed
  | parent
  | child
  deriving DecidableEq

/-- What `already_running` returns, and what it has logged; `none` before it returns. -/
def InstancePhase.result? : InstancePhase → Option (ℤ × List LogMessage)
  | running _ _ => some (0, [])
  | refused _ logs => some (1, logs)
  | absent | opening | locking _ | truncating _ | writing _ => none

/-- What the system answers to the calls of `daemonize`: the maximum of `getrlimit`, `none`
inside for `RLIM_INFINITY`; which of the other calls succeed; and where `already_running`
comes back. -/
structure DaemonizeCalls where
  rlimMax : Option (Option ℕ)
  fork : Fork
  setsid : Bool
  sigaction : Bool
  chdir : Bool
  stdin : Bool
  stdout : Bool
  stderr : Bool
  alreadyRunning : InstancePhase
  returned : alreadyRunning.result?.isSome

/-- What `daemonize` changes of its process. -/
structure ProcessState where
  umask : ℕ
  leader : Bool
  ignoresHup : Bool
  directory : List UInt8
  descriptors : Finset ℕ

/-- How `daemonize` ends: the parent exits, and otherwise it returns. -/
inductive DaemonizeResult
  | exited
  | returned (res : ℤ)
  deriving DecidableEq

/-- The process behind `daemonize`. -/
structure DaemonizeOutcome where
  result : DaemonizeResult
  process : ProcessState
  logs : List LogMessage

/-- `DAEMON_WORKING_DIR`. -/
def daemonWorkingDir : List UInt8 := ascii "/"

/-- The lowest descriptor that is free. -/
def lowestFree (descriptors : Finset ℕ) : ℕ := Nat.find (Infinite.exists_notMem_finset descriptors)

/-- `open`: the descriptor, or -1. -/
def openLowest (opened : Bool) (descriptors : Finset ℕ) : ℤ × Finset ℕ :=
  if opened then (lowestFree descriptors, insert (lowestFree descriptors) descriptors)
  else (-1, descriptors)

/-- The loop over the descriptors from `i` on, an `unsigned int`. It has no result if it
needs more passes than `fuel`. -/
def closeLoop (limit : ℕ) : ℕ → ℕ → Finset ℕ → Option (Finset ℕ)
  | 0, _, _ => none
  | fuel + 1, i, descriptors =>
    if i < limit then closeLoop limit fuel ((i + 1) % 2 ^ 32) (descriptors.erase i)
    else some descriptors

/-- `rl.rlim_max`, with 1024 in place of `RLIM_INFINITY`. -/
def closeLimit (rlimMax : Option ℕ) : ℕ := rlimMax.getD 1024

/-- From the loop over the descriptors on. -/
def openStandardFiles (calls : DaemonizeCalls) (p : ProcessState) : DaemonizeOutcome :=
  let fd0 := openLowest calls.stdin p.descriptors
  let fd1 := openLowest calls.stdout fd0.2
  let fd2 := openLowest calls.stderr fd1.2
  let p := { p with descriptors := fd2.2 }
  if fd0.1 ≠ 0 ∨ fd1.1 ≠ 1 ∨ fd2.1 ≠ 2 then
    ⟨.returned (-1), p,
      [⟨.error, ascii "Standard file descriptors were not opened as expected"⟩]⟩
  else
    -- the lock file stays open where `already_running` does not close it
    let p := { p with
      descriptors := (openLowest calls.alreadyRunning.file?.isSome p.descriptors).2 }
    let locked := calls.alreadyRunning.result?.get calls.returned
    if locked.1 ≠ 0 then
      ⟨.returned (-1), p,
        locked.2 ++ [⟨.error, ascii "Failed to run or daemon already running"⟩]⟩
    else ⟨.returned 1, p, locked.2 ++ [⟨.info, ascii "Daemon started"⟩]⟩

/-- `daemonize`. -/
def daemonize (fuel : ℕ) (calls : DaemonizeCalls) (p : ProcessState) : Option DaemonizeOutcome :=
  let p := { p with umask := 0 }
  let failed (p : ProcessState) (text : List UInt8) : Option DaemonizeOutcome :=
    some ⟨.returned (-1), p, [⟨.error, text⟩]⟩
  match calls.rlimMax with
  | none => failed p (ascii "Failed to get file limit")
  | some rlimMax =>
    match calls.fork with
    | .failed => failed p (ascii "Failed to fork a new process")
    | .parent => some ⟨.exited, p, []⟩
    | .child =>
      if ¬ calls.setsid then failed p (ascii "Failed to create a new SID for the child process")
      else
        let p := { p with leader := true }
        if ¬ calls.sigaction then failed p (ascii "Failed to ignore SIGHUP")
        else
          let p := { p with ignoresHup := true }
          if ¬ calls.chdir then
            failed p (ascii "Failed to change the working directory to: '" ++ daemonWorkingDir ++
              ascii "'")
          else
            let p := { p with directory := daemonWorkingDir }
            (closeLoop (closeLimit rlimMax) fuel 0 p.descriptors).map fun descriptors =>
              openStandardFiles calls { p with descriptors }

section CloseLoop

variable {limit fuel i : ℕ} {descriptors result : Finset ℕ}

/-- A counter of 32 bits never gets to a larger limit. -/
theorem closeLoop_of_wrap (hlimit : 2 ^ 32 ≤ limit) (hi : i < 2 ^ 32) :
    closeLoop limit fuel i descriptors = none := by
  induction fuel generalizing i descriptors with
  | zero => rfl
  | succ fuel ih =>
    rw [closeLoop, if_pos (hi.trans_le hlimit)]
    exact ih (Nat.mod_lt _ (by decide))

/-- What the loop leaves open. -/
theorem closeLoop_eq_some (hlimit : limit < 2 ^ 32) (hi : i ≤ limit)
    (hresult : closeLoop limit fuel i descriptors = some result) :
    result = descriptors.filter fun fd => fd < i ∨ limit ≤ fd := by
  induction fuel generalizing i descriptors with
  | zero => cases hresult
  | succ fuel ih =>
    rw [closeLoop] at hresult
    split_ifs at hresult with hmore
    · rw [Nat.mod_eq_of_lt (by omega)] at hresult
      rw [ih hmore hresult]
      ext fd
      simp only [Finset.mem_filter, Finset.mem_erase]
      constructor
      · rintro ⟨⟨hne, hmem⟩, hside⟩
        exact ⟨hmem, by omega⟩
      · rintro ⟨hmem, hside⟩
        exact ⟨⟨by omega, hmem⟩, by omega⟩
    · obtain rfl := Option.some.inj hresult
      refine (Finset.filter_true_of_mem fun fd _ => ?_).symm
      omega

theorem exists_closeLoop (hlimit : limit < 2 ^ 32) (hi : i ≤ limit) (hfuel : limit - i < fuel) :
    ∃ result, closeLoop limit fuel i descriptors = some result := by
  induction fuel generalizing i descriptors with
  | zero => omega
  | succ fuel ih =>
    rw [closeLoop]
    split_ifs with hmore
    · rw [Nat.mod_eq_of_lt (by omega)]
      exact ih hmore (by omega)
    · exact ⟨_, rfl⟩

/-- The loop ends exactly below a limit that its counter can get to. -/
theorem closeLoop_ends_iff (limit : ℕ) (descriptors : Finset ℕ) :
    (∃ fuel result, closeLoop limit fuel 0 descriptors = some result) ↔ limit < 2 ^ 32 := by
  constructor
  · rintro ⟨fuel, result, hresult⟩
    by_contra hlarge
    rw [closeLoop_of_wrap (by omega) (by decide)] at hresult
    cases hresult
  · intro hlimit
    exact ⟨limit + 1, exists_closeLoop hlimit (Nat.zero_le _) (by omega)⟩

end CloseLoop

section Descriptors

variable {descriptors : Finset ℕ} {n : ℕ}

theorem openLowest_eq_iff {opened : Bool} :
    (openLowest opened descriptors).1 = n ↔
      opened = true ∧ n ∉ descriptors ∧ ∀ m < n, m ∈ descriptors := by
  cases opened with
  | true => simp [openLowest, lowestFree, Nat.find_eq_iff]
  | false => simp [openLowest]

theorem snd_openLowest {opened : Bool} (hfound : (openLowest opened descriptors).1 = n) :
    (openLowest opened descriptors).2 = insert n descriptors := by
  cases opened with
  | true =>
    obtain rfl : lowestFree descriptors = n := by simpa [openLowest] using hfound
    rfl
  | false => simp [openLowest] at hfound

/-- The three files get 0, 1 and 2 exactly when nothing has these. -/
theorem openStandard_iff (descriptors : Finset ℕ) (stdin stdout stderr : Bool) :
    let fd0 := openLowest stdin descriptors
    let fd1 := openLowest stdout fd0.2
    let fd2 := openLowest stderr fd1.2
    (fd0.1 = 0 ∧ fd1.1 = 1 ∧ fd2.1 = 2 ↔
      stdin = true ∧ stdout = true ∧ stderr = true ∧ ∀ fd ∈ descriptors, 3 ≤ fd) ∧
      (fd0.1 = 0 ∧ fd1.1 = 1 ∧ fd2.1 = 2 → fd2.2 = {0, 1, 2} ∪ descriptors) := by
  intro fd0 fd1 fd2
  have hzero : fd0.1 = 0 ↔ stdin = true ∧ 0 ∉ descriptors ∧ ∀ m < 0, m ∈ descriptors :=
    openLowest_eq_iff (n := 0)
  have hone : fd1.1 = 1 ↔ stdout = true ∧ 1 ∉ fd0.2 ∧ ∀ m < 1, m ∈ fd0.2 :=
    openLowest_eq_iff (n := 1)
  have htwo : fd2.1 = 2 ↔ stderr = true ∧ 2 ∉ fd1.2 ∧ ∀ m < 2, m ∈ fd1.2 :=
    openLowest_eq_iff (n := 2)
  have hfirst : fd0.1 = 0 → fd0.2 = insert 0 descriptors := snd_openLowest (n := 0)
  have hsecond : fd1.1 = 1 → fd1.2 = insert 1 fd0.2 := snd_openLowest (n := 1)
  have hthird : fd2.1 = 2 → fd2.2 = insert 2 fd1.2 := snd_openLowest (n := 2)
  refine ⟨⟨?_, ?_⟩, ?_⟩
  · rintro ⟨h0, h1, h2⟩
    -- each number was the lowest free one in its turn
    have hfree0 := hzero.mp h0
    have hfree1 := hone.mp h1
    have hfree2 := htwo.mp h2
    rw [hsecond h1, hfirst h0] at hfree2
    rw [hfirst h0] at hfree1
    refine ⟨hfree0.1, hfree1.1, hfree2.1, fun fd hfd => ?_⟩
    have hne0 : fd ≠ 0 := fun h => hfree0.2.1 (h ▸ hfd)
    have hne1 : fd ≠ 1 := fun h => hfree1.2.1 (Finset.mem_insert_of_mem (h ▸ hfd))
    have hne2 : fd ≠ 2 := fun h =>
      hfree2.2.1 (Finset.mem_insert_of_mem (Finset.mem_insert_of_mem (h ▸ hfd)))
    omega
  · rintro ⟨hin, hout, herr, hhigh⟩
    have hlow : ∀ fd < 3, fd ∉ descriptors := fun fd hfd hmem => by
      have := hhigh fd hmem
      omega
    have h0 := hzero.mpr ⟨hin, hlow 0 (by decide), by simp⟩
    have h1 : fd1.1 = 1 := by
      rw [hone, hfirst h0]
      simp [hout, hlow 1 (by decide)]
    refine ⟨h0, h1, ?_⟩
    -- when the third file is opened, 0 and 1 are taken
    rw [htwo, hsecond h1, hfirst h0]
    refine ⟨herr, by simp [hlow 2 (by decide)], fun m hm => ?_⟩
    have hcases : m = 0 ∨ m = 1 := by omega
    rcases hcases with rfl | rfl <;> simp
  · rintro ⟨h0, h1, h2⟩
    rw [hthird h2, hsecond h1, hfirst h0]
    ext fd
    simp only [Finset.mem_insert, Finset.mem_union, Finset.mem_singleton]
    tauto

end Descriptors

theorem result_eq_zero_iff {phase : InstancePhase} (hreturned : phase.result?.isSome) :
    (phase.result?.get hreturned).1 = 0 ↔ ∃ file written, phase = .running file written := by
  cases phase with
  | running file written => simp [InstancePhase.result?]
  | refused file logs => simp [InstancePhase.result?]
  | absent | opening | locking file | truncating file | writing file => cases hreturned

/-- What a process has open that got to run, with the lock file at the lowest descriptor that
was free. -/
def daemonDescriptors (left : Finset ℕ) : Finset ℕ :=
  insert (lowestFree ({0, 1, 2} ∪ left)) ({0, 1, 2} ∪ left)

/-- Behind the loop the process becomes the daemon exactly when nothing has the descriptors
below 3, `/dev/null` opens and `already_running` lets it run. -/
theorem openStandardFiles_spec (calls : DaemonizeCalls) (p : ProcessState) :
    ((openStandardFiles calls p).result = .returned 1 ↔
      (calls.stdin = true ∧ calls.stdout = true ∧ calls.stderr = true ∧
        ∀ fd ∈ p.descriptors, 3 ≤ fd) ∧
      ∃ file written, calls.alreadyRunning = .running file written) ∧
      ((openStandardFiles calls p).result = .returned 1 →
        (openStandardFiles calls p).process =
          { p with descriptors := daemonDescriptors p.descriptors }) := by
  obtain ⟨hfree, hopen⟩ := openStandard_iff p.descriptors calls.stdin calls.stdout
    calls.stderr
  rw [← hfree, ← result_eq_zero_iff calls.returned]
  unfold openStandardFiles
  dsimp only
  split_ifs with hother hlocked
  · refine ⟨iff_of_false (by simp) ?_, by simp⟩
    rintro ⟨⟨h0, h1, h2⟩, -⟩
    simp [h0, h1, h2] at hother
  · exact ⟨iff_of_false (by simp) fun h => hlocked h.2, by simp⟩
  · simp only [not_or, not_not] at hother hlocked
    refine ⟨iff_of_true rfl ⟨hother, hlocked⟩, fun _ => ?_⟩
    obtain ⟨file, written, hrunning⟩ := (result_eq_zero_iff calls.returned).mp hlocked
    have hsome : calls.alreadyRunning.file?.isSome = true := by rw [hrunning]; rfl
    rw [hopen hother, hsome]
    rfl

/-! ### The whole function -/

/-- The calls before the loop succeed, in the child. -/
structure DaemonizeCalls.ReachLoop (calls : DaemonizeCalls) (rlimMax : Option ℕ) : Prop where
  rlimMax_eq : calls.rlimMax = some rlimMax
  fork : calls.fork = .child
  setsid : calls.setsid = true
  sigaction : calls.sigaction = true
  chdir : calls.chdir = true

section Daemonize

variable {calls : DaemonizeCalls} {rlimMax : Option ℕ}

theorem daemonize_of_reachLoop (h : calls.ReachLoop rlimMax) (fuel : ℕ) (p : ProcessState) :
    daemonize fuel calls p = (closeLoop (closeLimit rlimMax) fuel 0 p.descriptors).map
      fun descriptors =>
        openStandardFiles calls ⟨0, true, true, daemonWorkingDir, descriptors⟩ := by
  simp [daemonize, h.rlimMax_eq, h.fork, h.setsid, h.sigaction, h.chdir]

/-- Otherwise it ends before the loop, and not as the daemon. -/
theorem daemonize_of_not_reachLoop (h : ∀ rlimMax, ¬ calls.ReachLoop rlimMax) (p : ProcessState) :
    ∃ outcome, (∀ fuel, daemonize fuel calls p = some outcome) ∧
      outcome.result ≠ .returned 1 := by
  unfold daemonize
  cases hrlimMax : calls.rlimMax with
  | none => exact ⟨_, fun _ => rfl, by simp⟩
  | some rlimMax =>
    cases hfork : calls.fork with
    | failed => exact ⟨_, fun _ => rfl, by simp⟩
    | parent => exact ⟨_, fun _ => rfl, by simp⟩
    | child =>
      dsimp only
      split_ifs with hsetsid hsigaction hchdir
      · exact absurd ⟨hrlimMax, hfork, hsetsid, hsigaction, hchdir⟩ (h rlimMax)
      · exact ⟨_, fun _ => rfl, by simp⟩
      · exact ⟨_, fun _ => rfl, by simp⟩
      · exact ⟨_, fun _ => rfl, by simp⟩

end Daemonize

/-- `daemonize` comes back as the daemon exactly when every call it tests succeeds, the loop
over the descriptors ends, nothing at its limit or beyond has a descriptor below 3, and
`already_running` lets it run. Then it has left its session, its directory and every
descriptor below the limit. It does not end where it gets to the loop with a limit that an
`unsigned int` never reaches, and only there. -/
theorem daemonize_succeeds_iff (calls : DaemonizeCalls) (p : ProcessState) :
    ((∃ fuel outcome, daemonize fuel calls p = some outcome ∧ outcome.result = .returned 1) ↔
      ∃ rlimMax, calls.ReachLoop rlimMax ∧ closeLimit rlimMax < 2 ^ 32 ∧
        (calls.stdin = true ∧ calls.stdout = true ∧ calls.stderr = true ∧
          ∀ fd ∈ p.descriptors, closeLimit rlimMax ≤ fd → 3 ≤ fd) ∧
        ∃ file written, calls.alreadyRunning = .running file written) ∧
    (∀ fuel outcome, daemonize fuel calls p = some outcome → outcome.result = .returned 1 →
      ∃ rlimMax, calls.rlimMax = some rlimMax ∧ outcome.process = ⟨0, true, true, daemonWorkingDir,
        daemonDescriptors (p.descriptors.filter fun fd => closeLimit rlimMax ≤ fd)⟩) ∧
    ((∃ fuel outcome, daemonize fuel calls p = some outcome) ↔
      ∀ rlimMax, calls.ReachLoop rlimMax → closeLimit rlimMax < 2 ^ 32) := by
  by_cases hreach : ∃ rlimMax, calls.ReachLoop rlimMax
  · obtain ⟨rlimMax, h⟩ := hreach
    have hsame : ∀ other, calls.ReachLoop other → other = rlimMax := fun other hother =>
      Option.some.inj (hother.rlimMax_eq.symm.trans h.rlimMax_eq)
    simp only [daemonize_of_reachLoop h]
    -- what the loop leaves, when it ends
    have hleft : ∀ fuel result,
        closeLoop (closeLimit rlimMax) fuel 0 p.descriptors = some result →
          closeLimit rlimMax < 2 ^ 32 ∧
            result = p.descriptors.filter fun fd => closeLimit rlimMax ≤ fd := by
      intro fuel result hresult
      have hlimit := (closeLoop_ends_iff _ p.descriptors).mp ⟨fuel, result, hresult⟩
      refine ⟨hlimit, (closeLoop_eq_some hlimit (Nat.zero_le _) hresult).trans ?_⟩
      simp
    have hhigh : (∀ fd ∈ p.descriptors.filter fun fd => closeLimit rlimMax ≤ fd, 3 ≤ fd) ↔
        ∀ fd ∈ p.descriptors, closeLimit rlimMax ≤ fd → 3 ≤ fd := by
      simp [Finset.mem_filter]
    refine ⟨⟨?_, ?_⟩, ?_, ?_, ?_⟩
    · rintro ⟨fuel, outcome, hend, hresult⟩
      obtain ⟨result, hloop, rfl⟩ := Option.map_eq_some_iff.mp hend
      obtain ⟨hlimit, rfl⟩ := hleft fuel result hloop
      obtain ⟨⟨hin, hout, herr, hfree⟩, hrunning⟩ := (openStandardFiles_spec calls _).1.mp hresult
      exact ⟨rlimMax, h, hlimit, ⟨hin, hout, herr, hhigh.mp hfree⟩, hrunning⟩
    · rintro ⟨other, hother, hlimit, ⟨hin, hout, herr, hfree⟩, hrunning⟩
      obtain rfl := hsame other hother
      obtain ⟨fuel, result, hloop⟩ := (closeLoop_ends_iff _ p.descriptors).mpr hlimit
      obtain ⟨-, rfl⟩ := hleft fuel result hloop
      refine ⟨fuel, _, Option.map_eq_some_iff.mpr ⟨_, hloop, rfl⟩, ?_⟩
      exact (openStandardFiles_spec calls _).1.mpr ⟨⟨hin, hout, herr, hhigh.mpr hfree⟩, hrunning⟩
    · intro fuel outcome hend hresult
      obtain ⟨result, hloop, rfl⟩ := Option.map_eq_some_iff.mp hend
      obtain ⟨-, rfl⟩ := hleft fuel result hloop
      exact ⟨rlimMax, h.rlimMax_eq, (openStandardFiles_spec calls _).2 hresult⟩
    · rintro ⟨fuel, outcome, hend⟩ other hother
      obtain rfl := hsame other hother
      obtain ⟨result, hloop, -⟩ := Option.map_eq_some_iff.mp hend
      exact (hleft fuel result hloop).1
    · intro hlimit
      obtain ⟨fuel, result, hloop⟩ := (closeLoop_ends_iff _ p.descriptors).mpr (hlimit rlimMax h)
      exact ⟨fuel, _, Option.map_eq_some_iff.mpr ⟨_, hloop, rfl⟩⟩
  · have hnone : ∀ rlimMax, ¬ calls.ReachLoop rlimMax := fun rlimMax h => hreach ⟨rlimMax, h⟩
    obtain ⟨outcome, hend, hfailed⟩ := daemonize_of_not_reachLoop hnone p
    refine ⟨iff_of_false ?_ fun ⟨rlimMax, h, _⟩ => hnone rlimMax h, ?_,
      iff_of_true ⟨0, outcome, hend 0⟩ fun rlimMax h => absurd h (hnone rlimMax)⟩
    · rintro ⟨fuel, outcome', hend', hresult⟩
      obtain rfl := Option.some.inj ((hend fuel).symm.trans hend')
      exact hfailed hresult
    · intro fuel outcome' hend' hresult
      obtain rfl := Option.some.inj ((hend fuel).symm.trans hend')
      exact absurd hresult hfailed

end EasyForetell
