import Mathlib.Data.Int.ModEq
import Mathlib.Tactic.Common

/-!
# The pause between two jobs (sleep_utils.c)

`sleep_millis` takes the remainder of a random number, `milli_sleep` splits the
milliseconds into the seconds and nanoseconds of a `timespec`. A base of -1 makes the
divisor 0; that division traps, and its model has no value.
-/

namespace EasyForetell

/-- `struct timespec`. -/
structure Timespec where
  tvSec : ℤ
  tvNsec : ℤ
  deriving DecidableEq

/-- The timespec that `milli_sleep` hands to `nanosleep`, for an `unsigned long`. -/
def milliSleep (millisToSleep : ℕ) : Timespec :=
  let secs := Int.bmod (millisToSleep / 1000) (2 ^ 32)
  let millisecs := (millisToSleep - secs * 1000) % 2 ^ 64
  ⟨secs, Int.bmod (millisecs * 1000000) (2 ^ 64)⟩

/-- `sleep_millis`, for the number that `rand` returns: the milliseconds to sleep. They
are an `int`, since that number is one. -/
def sleepMillis (rand : ℕ) (base : ℤ) : Option ℤ :=
  if base + 1 = 0 then none else some ((rand : ℤ).tmod (base + 1))

/-- The pause for a base, as it should be for every random number: there is one, it is in the
range, and `nanosleep` gets less than a second of nanoseconds. -/
structure PauseSound (rand : ℕ) (base : ℤ) : Prop where
  divisor_ne_zero : base + 1 ≠ 0
  in_range : ∀ millis ∈ sleepMillis rand base, 0 ≤ millis ∧ millis ≤ base
  nanoseconds : ∀ millis ∈ sleepMillis rand base,
    0 ≤ (milliSleep millis.toNat).tvNsec ∧ (milliSleep millis.toNat).tvNsec < 1000000000

/-- For an `int` of milliseconds the seconds are whole, and the nanoseconds are the rest. -/
theorem milliSleep_eq {millis : ℕ} (hmillis : millis < 2 ^ 31) :
    milliSleep millis = ⟨millis / 1000, (millis % 1000 : ℕ) * 1000000⟩ := by
  unfold milliSleep
  extract_lets secs millisecs
  have hsecs : secs = millis / 1000 := Int.bmod_eq_of_le (by omega) (by omega)
  have hrest : millisecs = (millis % 1000 : ℕ) := by
    change ((millis : ℤ) - secs * 1000) % 2 ^ 64 = _
    omega
  rw [hrest, Int.bmod_eq_of_le (by omega) (by omega), hsecs]

/-- The pause is sound for the bases that fit in an `int` and are not negative. -/
theorem pauseSound_of_nonneg (rand : ℕ) {base : ℤ} (hbase : 0 ≤ base) (hint : base < 2 ^ 31) :
    PauseSound rand base := by
  have hdivisor : base + 1 ≠ 0 := by omega
  have hrange : ∀ millis ∈ sleepMillis rand base, 0 ≤ millis ∧ millis ≤ base := by
    intro millis hmillis
    rw [sleepMillis, if_neg hdivisor] at hmillis
    obtain rfl := Option.some.inj hmillis
    have hlt := Int.tmod_lt_of_pos (rand : ℤ) (show 0 < base + 1 by omega)
    exact ⟨Int.tmod_nonneg _ (Int.natCast_nonneg rand), by omega⟩
  refine ⟨hdivisor, hrange, fun millis hmillis => ?_⟩
  have hmem := hrange millis hmillis
  rw [milliSleep_eq (by omega)]
  have hrest : millis.toNat % 1000 < 1000 := Nat.mod_lt _ (by decide)
  constructor <;> dsimp only <;> omega

/-- No pause is sound for a negative base: it traps, or it is too long. -/
theorem not_pauseSound_of_neg (rand : ℕ) {base : ℤ} (hbase : base < 0) :
    ¬ PauseSound rand base := by
  intro hsound
  have hmem : (rand : ℤ).tmod (base + 1) ∈ sleepMillis rand base := by
    rw [sleepMillis, if_neg hsound.divisor_ne_zero, Option.mem_def]
  have hrange := hsound.in_range _ hmem
  omega

end EasyForetell
