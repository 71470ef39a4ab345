import EasyForetell.Memory.Block
import EasyForetell.Theory.RingBuffer
import EasyForetell.Theory.Transition
import Mathlib.Tactic.FinCases

/-!
# The job queue (queue.c)

A ring of `capacity` slots of `BUFFER_SIZE` bytes. `begin` is the slot the next
element goes to, `end` the slot of the oldest element; `occupied` tells the full
ring from the empty one, since `begin = end` in both.

## Main results

* `FifoQueue.Holds.fifoEnqueue`, `FifoQueue.Holds.fifoDequeue`: what the calls do
  to the list the queue holds
* `fifo_simulates_boundedQueue`: every call sequence is one of a bounded list
* `enqueue_guarded_iff`: when `fifo_enqueue` stays inside the slot it writes to
-/

namespace EasyForetell

open Memory Theory

/-- `BUFFER_SIZE` of queue.h, the size of a slot and of the framing buffers. -/
def bufferSize : ℕ := 255

/-- `sizeof (const char *)`. -/
def pointerSize : ℕ := 8

/-- `fifo_queue_t` without its own mutex, which every call holds throughout. -/
structure FifoQueue where
  buffer : List Block
  capacity : ℕ
  occupied : ℕ
  beginIdx : ℕ
  endIdx : ℕ

/-- The memory of a slot. -/
def FifoQueue.slot (queue : FifoQueue) (i : ℕ) : Block := queue.buffer.getD i []

/-- `fifo_init`; `malloc i` is the memory the i-th allocation returns, with
whatever it held before. -/
def fifoInit (malloc : ℕ → Block) (capacity : ℕ) : FifoQueue where
  buffer := (List.range capacity).map malloc
  capacity := capacity
  occupied := 0
  beginIdx := 0
  endIdx := 0

/-- `fifo_enqueue`, with the value it leaves in `*res`. -/
def fifoEnqueue (queue : FifoQueue) (newElement : Block) : FifoQueue × ℤ :=
  -- `len = sizeof (new_element)` is the size of the pointer, not of the string
  if pointerSize ≤ bufferSize ∧ queue.occupied < queue.capacity then
    ({ queue with
        buffer := queue.buffer.set queue.beginIdx
          (memcpy (queue.slot queue.beginIdx) newElement (strlen newElement + 1))
        occupied := queue.occupied + 1
        beginIdx := (queue.beginIdx + 1) % queue.capacity }, 1)
  else (queue, -1)

/-- `fifo_dequeue`, with the caller's buffer. On an empty queue only the local
copy of the pointer is set to NULL. -/
def fifoDequeue (queue : FifoQueue) (nextElement : Block) : FifoQueue × Block :=
  if 0 < queue.occupied then
    let oldest := queue.slot queue.endIdx
    ({ queue with
        endIdx := (queue.endIdx + 1) % queue.capacity
        occupied := queue.occupied - 1 },
      memcpy nextElement oldest (strlen oldest + 1))
  else (queue, nextElement)

/-! ### The list a queue holds -/

/-- The string of a block that is terminated inside the block. -/
def terminated (block : Block) : Option (List UInt8) :=
  if (0 : UInt8) ∈ block then some (cstr block) else none

theorem terminated_eq_some_iff {block : Block} {text : List UInt8} :
    terminated block = some text ↔ (0 : UInt8) ∈ block ∧ cstr block = text := by
  unfold terminated
  split_ifs with hnul <;> simp [hnul]

/-- An element that fits in a slot together with its NUL. -/
structure FitsSlot (element : Block) : Prop where
  nul_mem : (0 : UInt8) ∈ element
  strlen_lt : strlen element < bufferSize

instance (element : Block) : Decidable (FitsSlot element) :=
  decidable_of_iff ((0 : UInt8) ∈ element ∧ strlen element < bufferSize)
    ⟨fun h => ⟨h.1, h.2⟩, fun h => ⟨h.nul_mem, h.strlen_lt⟩⟩

namespace FifoQueue

/-- The queue holds the strings of a list, oldest first, in slots of full size. -/
structure Holds (queue : FifoQueue) (items : List (List UInt8)) : Prop where
  length_buffer : queue.buffer.length = queue.capacity
  length_slot : ∀ slot ∈ queue.buffer, slot.length = bufferSize
  ring : RingHolds (fun i => terminated (queue.slot i)) queue.capacity queue.beginIdx
    queue.endIdx queue.occupied (items.map some)

variable {queue : FifoQueue} {items : List (List UInt8)} {element : Block}

theorem Holds.occupied_eq (h : queue.Holds items) : queue.occupied = items.length := by
  simpa using h.ring.occupied_eq

theorem Holds.length_le (h : queue.Holds items) : items.length ≤ queue.capacity :=
  h.occupied_eq ▸ h.ring.le_capacity

theorem Holds.slot_mem (h : queue.Holds items) {i : ℕ} (hi : i < queue.capacity) :
    queue.slot i ∈ queue.buffer := by
  have hi' : i < queue.buffer.length := h.length_buffer ▸ hi
  rw [slot, List.getD_eq_getElem?_getD, List.getElem?_eq_getElem hi']
  exact List.getElem_mem hi'

/-- The ring invariant, index by index. -/
theorem Holds.terminated_slot (h : queue.Holds items) {i : ℕ} (hi : i < items.length) :
    terminated (queue.slot ((queue.endIdx + i) % queue.capacity)) = some items[i] := by
  have hslot := h.ring.slot_eq i (by simpa using hi)
  simpa using hslot

/-- A queued string has no NUL in it. -/
theorem Holds.nulFree (h : queue.Holds items) {text : List UInt8} (htext : text ∈ items) :
    (0 : UInt8) ∉ text := by
  obtain ⟨i, hi, rfl⟩ := List.getElem_of_mem htext
  rw [← (terminated_eq_some_iff.mp (h.terminated_slot hi)).2]
  exact nul_notMem_cstr _

/-- Copying an element over a slot leaves the element's string in it, however
long the string was that the slot held before. -/
theorem terminated_memcpy {slot : Block} (hnul : (0 : UInt8) ∈ element) :
    terminated (memcpy slot element (strlen element + 1)) = some (cstr element) := by
  refine terminated_eq_some_iff.mpr ⟨mem_store ?_, cstr_memcpy_strlen hnul⟩
  rw [take_strlen_succ hnul]
  simp

theorem length_memcpy_of_fits {slot : Block} (hslot : slot.length = bufferSize)
    (hfits : FitsSlot element) :
    (memcpy slot element (strlen element + 1)).length = bufferSize := by
  have hlt := hfits.strlen_lt
  rw [memcpy, take_strlen_succ hfits.nul_mem, length_store (Nat.zero_le _), hslot]
  simp only [List.length_append, List.length_singleton]
  unfold strlen at hlt
  omega

end FifoQueue

/-- A queue fresh from `fifo_init` holds the empty list. -/
theorem fifoInit_holds {malloc : ℕ → Block} (hmalloc : ∀ i, (malloc i).length = bufferSize)
    {capacity : ℕ} (hcapacity : 0 < capacity) : (fifoInit malloc capacity).Holds [] where
  length_buffer := by simp [fifoInit]
  length_slot := by
    intro slot hslot
    obtain ⟨i, -, rfl⟩ := List.mem_map.mp hslot
    exact hmalloc i
  ring := RingHolds.empty _ hcapacity

section Calls

variable {queue : FifoQueue} {items : List (List UInt8)} {element : Block}

theorem fifoEnqueue_of_full (hfull : ¬ queue.occupied < queue.capacity) (element : Block) :
    fifoEnqueue queue element = (queue, -1) := by
  simp [fifoEnqueue, hfull]

theorem fifoEnqueue_of_room (hroom : queue.occupied < queue.capacity) (element : Block) :
    fifoEnqueue queue element =
      ({ queue with
          buffer := queue.buffer.set queue.beginIdx
            (memcpy (queue.slot queue.beginIdx) element (strlen element + 1))
          occupied := queue.occupied + 1
          beginIdx := (queue.beginIdx + 1) % queue.capacity }, 1) := by
  rw [fifoEnqueue, if_pos ⟨by decide, hroom⟩]

/-- `fifo_enqueue` on a queue with room appends the element's string. -/
theorem FifoQueue.Holds.fifoEnqueue (h : queue.Holds items)
    (hroom : queue.occupied < queue.capacity) (hfits : FitsSlot element) :
    (fifoEnqueue queue element).1.Holds (items ++ [cstr element]) := by
  rw [fifoEnqueue_of_room hroom]
  have hbegin : queue.beginIdx < queue.buffer.length := h.length_buffer ▸ h.ring.fill_lt
  refine ⟨by simpa using h.length_buffer, ?_, ?_⟩
  · intro slot hslot
    rcases List.mem_or_eq_of_mem_set hslot with hold | rfl
    · exact h.length_slot slot hold
    · exact length_memcpy_of_fits (h.length_slot _ (h.slot_mem h.ring.fill_lt)) hfits
  · -- the slot at `begin` is outside the stored range, so no element is lost
    rw [List.map_append]
    refine h.ring.push hroom ?_ ?_
    · simp only [FifoQueue.slot, List.getD_eq_getElem?_getD, List.getElem?_set_self hbegin,
        Option.getD_some]
      exact terminated_memcpy hfits.nul_mem
    · intro i _ hne
      simp only [FifoQueue.slot, List.getD_eq_getElem?_getD, List.getElem?_set_ne (Ne.symm hne)]

theorem fifoDequeue_of_empty (hempty : queue.occupied = 0) (nextElement : Block) :
    fifoDequeue queue nextElement = (queue, nextElement) := by
  simp [fifoDequeue, hempty]

/-- `fifo_dequeue` on a nonempty queue copies the oldest string out, with its
NUL, and removes it. -/
theorem FifoQueue.Holds.fifoDequeue {text : List UInt8} (h : queue.Holds (text :: items))
    (nextElement : Block) :
    (fifoDequeue queue nextElement).1.Holds items ∧
      (fifoDequeue queue nextElement).2 = store nextElement 0 (text ++ [0]) := by
  have hpos : 0 < queue.occupied := by simp [h.occupied_eq]
  have holdest := terminated_eq_some_iff.mp h.ring.head
  rw [EasyForetell.fifoDequeue, if_pos hpos]
  refine ⟨⟨h.length_buffer, h.length_slot, h.ring.pop⟩, ?_⟩
  simp only [memcpy, take_strlen_succ holdest.1, holdest.2]

end Calls

/-! ### Call sequences -/

/-- A call on the queue, with the buffer its caller passes. -/
inductive QueueCall
  | enqueue (newElement : Block)
  | dequeue (nextElement : Block)

/-- What the caller sees of a call: `*res`, or its buffer afterwards. -/
inductive QueueAnswer
  | enqueued (res : ℤ)
  | dequeued (nextElement : Block)
  deriving DecidableEq

/-- The elements of the calls fit in a slot. -/
def QueueCall.Fits : QueueCall → Prop
  | .enqueue newElement => FitsSlot newElement
  | .dequeue _ => True

/-- A call on the ring buffer of queue.c. -/
def FifoQueue.call (queue : FifoQueue) : QueueCall → FifoQueue × QueueAnswer
  | .enqueue newElement =>
    let result := fifoEnqueue queue newElement
    (result.1, .enqueued result.2)
  | .dequeue nextElement =>
    let result := fifoDequeue queue nextElement
    (result.1, .dequeued result.2)

/-- The same call on a bounded list of strings. -/
def listCall {capacity : ℕ} (queue : BoundedQueue (List UInt8) capacity) :
    QueueCall → BoundedQueue (List UInt8) capacity × QueueAnswer
  | .enqueue newElement =>
    let result := queue.enqueue (cstr newElement)
    (result.1, .enqueued (if result.2 then 1 else -1))
  | .dequeue nextElement =>
    let result := queue.dequeue
    (result.1, .dequeued (match result.2 with
      | some text => store nextElement 0 (text ++ [0])
      | none => nextElement))

/-- One call on the ring buffer is the call on the list it holds. -/
theorem call_simulates {capacity : ℕ} {queue : FifoQueue}
    {model : BoundedQueue (List UInt8) capacity} {call : QueueCall}
    (hcapacity : queue.capacity = capacity) (h : queue.Holds model.items) (hfits : call.Fits) :
    (queue.call call).1.capacity = capacity ∧ (queue.call call).1.Holds (listCall model call).1.items ∧
      (queue.call call).2 = (listCall model call).2 := by
  cases call with
  | enqueue newElement =>
    by_cases hroom : queue.occupied < queue.capacity
    · have hmodel : model.items.length < capacity := by
        have := h.occupied_eq
        omega
      obtain ⟨hitems, hflag⟩ := BoundedQueue.enqueue_of_room hmodel (cstr newElement)
      have hholds := h.fifoEnqueue hroom hfits
      simp only [FifoQueue.call, listCall, hitems, hflag, if_true]
      refine ⟨?_, hholds, ?_⟩ <;> rw [fifoEnqueue_of_room hroom]
      exact hcapacity
    · -- full: both refuse and stay as they are
      have hmodel : ¬ model.items.length < capacity := by
        have := h.occupied_eq
        omega
      simp only [FifoQueue.call, listCall, fifoEnqueue_of_full hroom,
        BoundedQueue.enqueue_of_full hmodel]
      exact ⟨hcapacity, h, rfl⟩
  | dequeue nextElement =>
    cases hitems : model.items with
    | nil =>
      -- empty: the caller keeps its buffer
      have hempty : queue.occupied = 0 := by simp [h.occupied_eq, hitems]
      rw [hitems] at h
      simp only [FifoQueue.call, listCall, fifoDequeue_of_empty hempty, BoundedQueue.dequeue_items,
        BoundedQueue.dequeue_value, hitems]
      exact ⟨hcapacity, h, rfl⟩
    | cons text rest =>
      rw [hitems] at h
      obtain ⟨hholds, hbuffer⟩ := h.fifoDequeue nextElement
      simp only [FifoQueue.call, listCall, BoundedQueue.dequeue_items, BoundedQueue.dequeue_value,
        hitems, hbuffer]
      refine ⟨?_, hholds, rfl⟩
      rw [fifoDequeue]
      split_ifs
      · exact hcapacity
      · exact hcapacity

/-- Every sequence of calls after `fifo_init` answers as a bounded list does, and
the ring invariant holds in the state it reaches: the counters are in range,
`begin` is `occupied` slots after `end`, and the occupied slots hold the list.
There, a refused `fifo_enqueue` changes nothing, and neither does `fifo_dequeue`
on an empty queue. -/
theorem fifo_simulates_boundedQueue (malloc : ℕ → Block)
    (hmalloc : ∀ i, (malloc i).length = bufferSize) (capacity : ℕ) (hcapacity : 1 ≤ capacity)
    (calls : List QueueCall) (hfits : ∀ call ∈ calls, call.Fits) :
    let real := callAll FifoQueue.call (fifoInit malloc capacity) calls
    let model := callAll listCall (BoundedQueue.empty (List UInt8) capacity) calls
    let queue := real.1
    let items := model.1.items
    real.2 = model.2 ∧
      queue.occupied = items.length ∧ queue.occupied ≤ capacity ∧
      queue.beginIdx < capacity ∧ queue.endIdx < capacity ∧
      queue.beginIdx = (queue.endIdx + queue.occupied) % capacity ∧
      (∀ i (hi : i < items.length),
        terminated (queue.slot ((queue.endIdx + i) % capacity)) = some items[i]) ∧
      (∀ slot ∈ queue.buffer, slot.length = bufferSize) ∧
      (items.length = capacity → ∀ newElement, fifoEnqueue queue newElement = (queue, -1)) ∧
      (items = [] → ∀ nextElement, fifoDequeue queue nextElement = (queue, nextElement)) := by
  intro real model queue items
  have hstep : ∀ (q : FifoQueue) (m : BoundedQueue (List UInt8) capacity) (c : QueueCall),
      q.capacity = capacity ∧ q.Holds m.items → c.Fits →
        ((q.call c).1.capacity = capacity ∧ (q.call c).1.Holds (listCall m c).1.items) ∧
          (q.call c).2 = (listCall m c).2 := by
    intro q m c hrel hc
    obtain ⟨hcap, hholds, hanswer⟩ := call_simulates hrel.1 hrel.2 hc
    exact ⟨⟨hcap, hholds⟩, hanswer⟩
  -- the relation holds after `fifo_init`, and every call keeps it
  have hstart : (fifoInit malloc capacity).capacity = capacity ∧
      (fifoInit malloc capacity).Holds (BoundedQueue.empty (List UInt8) capacity).items :=
    ⟨rfl, fifoInit_holds hmalloc hcapacity⟩
  obtain ⟨⟨hcap, hholds⟩, hanswers⟩ := callAll_simulates hstep hstart calls hfits
  have hlength : queue.occupied = items.length := hholds.occupied_eq
  refine ⟨hanswers, hlength, hcap ▸ hholds.ring.le_capacity, hcap ▸ hholds.ring.fill_lt,
    hcap ▸ hholds.ring.drain_lt, hcap ▸ hholds.ring.fill_eq,
    fun i hi => hcap ▸ hholds.terminated_slot hi, hholds.length_slot, ?_, ?_⟩
  · intro hfull newElement
    refine fifoEnqueue_of_full ?_ newElement
    rw [hlength, hfull, hcap]
    exact Nat.lt_irrefl _
  · intro hempty nextElement
    exact fifoDequeue_of_empty (by rw [hlength, hempty]; rfl) nextElement

/-- A full ring of one slot refuses the second string and hands out the first,
over a slot that held other bytes before. -/
theorem fifo_one_slot :
    (callAll FifoQueue.call (fifoInit (fun _ => List.replicate bufferSize 7) 1)
      [.enqueue [65, 66, 0], .enqueue [67, 0], .dequeue [9, 9, 9, 9], .dequeue [8]]).2 =
      [.enqueued 1, .enqueued (-1), .dequeued [65, 66, 0, 9], .dequeued [8]] := by
  have hanswers := (fifo_simulates_boundedQueue (fun _ => List.replicate bufferSize 7)
    (fun _ => List.length_replicate) 1 (Nat.le_refl 1)
    [.enqueue [65, 66, 0], .enqueue [67, 0], .dequeue [9, 9, 9, 9], .dequeue [8]]
    (by
      intro call hcall
      fin_cases hcall
      · exact ⟨by decide, by decide⟩
      · exact ⟨by decide, by decide⟩
      · trivial
      · trivial)).1
  exact hanswers.trans (by decide)

/-! ### Elements that do not fit -/

/-- The ring as `fifo_init` allocates it, with the slots of their full size and `begin` on one
of them, whatever is stored. -/
structure FifoQueue.WellFormed (queue : FifoQueue) : Prop where
  length_buffer : queue.buffer.length = queue.capacity
  length_slot : ∀ slot ∈ queue.buffer, slot.length = bufferSize
  beginIdx_lt : queue.beginIdx < queue.capacity

theorem FifoQueue.Holds.wellFormed {queue : FifoQueue} {items : List (List UInt8)}
    (h : queue.Holds items) : queue.WellFormed :=
  ⟨h.length_buffer, h.length_slot, h.ring.fill_lt⟩

/-- `fifo_enqueue` accepts what fits in the slot at `begin` when there is one free, writes
nothing outside that slot, and writes nothing at all when it refuses. -/
structure EnqueueGuarded (queue : FifoQueue) (newElement : Block) : Prop where
  accepted_iff : (fifoEnqueue queue newElement).2 = 1 ↔
    queue.occupied < queue.capacity ∧ strlen newElement + 1 ≤ bufferSize
  refused_or_accepted : (fifoEnqueue queue newElement).2 = -1 ∨ (fifoEnqueue queue newElement).2 = 1
  eq_of_refused : (fifoEnqueue queue newElement).2 = -1 → (fifoEnqueue queue newElement).1 = queue
  length_slot_begin : ((fifoEnqueue queue newElement).1.slot queue.beginIdx).length = bufferSize
  slot_of_ne : ∀ i, i ≠ queue.beginIdx → (fifoEnqueue queue newElement).1.slot i = queue.slot i

namespace FifoQueue.WellFormed

variable {queue : FifoQueue} {element : Block}

theorem length_slot_begin (h : queue.WellFormed) :
    (queue.slot queue.beginIdx).length = bufferSize := by
  have hbegin : queue.beginIdx < queue.buffer.length := h.length_buffer ▸ h.beginIdx_lt
  rw [slot, List.getD_eq_getElem?_getD, List.getElem?_eq_getElem hbegin]
  exact h.length_slot _ (List.getElem_mem hbegin)

/-- A full ring refuses every element. -/
theorem enqueueGuarded_of_full (h : queue.WellFormed) (hfull : ¬ queue.occupied < queue.capacity) :
    EnqueueGuarded queue element := by
  refine ⟨?_, ?_, ?_, ?_, ?_⟩ <;> rw [fifoEnqueue_of_full hfull]
  · exact iff_of_false (show ¬ (-1 : ℤ) = 1 by decide) fun hroom => hfull hroom.1
  · exact Or.inl rfl
  · exact fun _ => rfl
  · exact h.length_slot_begin
  · exact fun _ _ => rfl

/-- With a slot free the element is copied, and only the slot at `begin` changes. -/
theorem enqueueGuarded_of_fits (h : queue.WellFormed) (hroom : queue.occupied < queue.capacity)
    (hfits : FitsSlot element) : EnqueueGuarded queue element := by
  have hbegin : queue.beginIdx < queue.buffer.length := h.length_buffer ▸ h.beginIdx_lt
  refine ⟨?_, ?_, ?_, ?_, ?_⟩ <;> rw [fifoEnqueue_of_room hroom]
  · exact iff_of_true rfl ⟨hroom, hfits.strlen_lt⟩
  · exact Or.inr rfl
  · exact fun hrefused => absurd hrefused (show ¬ (1 : ℤ) = -1 by decide)
  · simp only [FifoQueue.slot, List.getD_eq_getElem?_getD, List.getElem?_set_self hbegin,
      Option.getD_some]
    exact length_memcpy_of_fits h.length_slot_begin hfits
  · intro i hne
    simp only [FifoQueue.slot, List.getD_eq_getElem?_getD, List.getElem?_set_ne (Ne.symm hne)]

end FifoQueue.WellFormed

/-- The length in the guard is that of a pointer, so a ring with room accepts an element of any
length: the call is guarded exactly when the ring is full or the element fits anyway. -/
theorem enqueue_guarded_iff {queue : FifoQueue} (h : queue.WellFormed) {newElement : Block}
    (hnul : (0 : UInt8) ∈ newElement) :
    EnqueueGuarded queue newElement ↔
      ¬ queue.occupied < queue.capacity ∨ strlen newElement + 1 ≤ bufferSize := by
  by_cases hroom : queue.occupied < queue.capacity
  · constructor
    · intro hguarded
      refine Or.inr (hguarded.accepted_iff.mp ?_).2
      rw [fifoEnqueue_of_room hroom]
    · intro hshort
      exact h.enqueueGuarded_of_fits hroom ⟨hnul, hshort.resolve_left (not_not.mpr hroom)⟩
  · exact iff_of_true (h.enqueueGuarded_of_full hroom) (Or.inl hroom)

/-- A ring of one free slot and a string that fits in it. -/
theorem enqueue_guarded_short :
    let queue := fifoInit (fun _ => List.replicate bufferSize 7) 1
    queue.WellFormed ∧ (0 : UInt8) ∈ [65, 66, 0] ∧ EnqueueGuarded queue [65, 66, 0] := by
  have hqueue : (fifoInit (fun _ => List.replicate bufferSize 7) 1).WellFormed :=
    (fifoInit_holds (fun _ => List.length_replicate) (Nat.le_refl 1)).wellFormed
  have hnul : (0 : UInt8) ∈ [65, 66, 0] := by decide
  exact ⟨hqueue, hnul, (enqueue_guarded_iff hqueue hnul).mpr (Or.inr (by decide))⟩

/-- A string of 255 bytes is accepted, and its NUL goes behind the slot. -/
theorem enqueue_overruns_slot :
    let queue := fifoInit (fun _ => List.replicate bufferSize 7) 1
    let newElement := List.replicate 255 65 ++ [0]
    queue.WellFormed ∧ (0 : UInt8) ∈ newElement ∧ (fifoEnqueue queue newElement).2 = 1 ∧
      ((fifoEnqueue queue newElement).1.slot queue.beginIdx).length = bufferSize + 1 ∧
      ¬ EnqueueGuarded queue newElement := by
  have hqueue : (fifoInit (fun _ => List.replicate bufferSize 7) 1).WellFormed :=
    (fifoInit_holds (fun _ => List.length_replicate) (Nat.le_refl 1)).wellFormed
  have hroom : (fifoInit (fun _ => List.replicate bufferSize 7) 1).occupied <
      (fifoInit (fun _ => List.replicate bufferSize 7) 1).capacity := Nat.zero_lt_one
  have hlength : strlen (List.replicate 255 65 ++ [0]) = 255 :=
    strlen_replicate_append_nul (by decide) 255
  have hnul : (0 : UInt8) ∈ List.replicate 255 (65 : UInt8) ++ [0] :=
    List.mem_append_right _ List.mem_cons_self
  -- only the length of the element matters from here on
  generalize List.replicate 255 (65 : UInt8) ++ [0] = newElement at hlength hnul
  have haccepted : (fifoEnqueue (fifoInit (fun _ => List.replicate bufferSize 7) 1)
      newElement).2 = 1 := by rw [fifoEnqueue_of_room hroom]
  refine ⟨hqueue, hnul, haccepted, ?_, ?_⟩
  · rw [fifoEnqueue_of_room hroom]
    -- the string and its NUL are written from the start of the slot
    change (memcpy (List.replicate bufferSize 7) newElement (strlen newElement + 1)).length = _
    rw [memcpy, take_strlen_succ hnul, length_store (Nat.zero_le _), List.length_append,
      List.length_replicate]
    change max bufferSize (0 + (strlen newElement + 1)) = _
    rw [hlength]
    rfl
  · intro hguarded
    have hfits := (hguarded.accepted_iff.mp haccepted).2
    rw [hlength] at hfits
    exact absurd hfits (by decide)

end EasyForetell
