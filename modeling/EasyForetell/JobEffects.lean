import EasyForetell.JobLine
import EasyForetell.Theory.KeyedStore
import EasyForetell.WorkerBounds

/-!
# What a job does to the cache (queral.c, worker_thread)

Of all that a worker does for a line only two calls of libmemcached reach the cache, and
both are about the key of the line. `lineOps` says what they are as a function of the line
and the responses alone: a CACHE deletes the record, and puts the page there when it
arrives whole.

## Main results

* `curlFetchUrl_delivers`: when a download arrives, and what it leaves
* `storeOps_handleJob`: what a job does to the cache
* `key_of_mem_lineOps`: a line works on one key
-/

namespace EasyForetell

open Memory Theory

/-- A transfer that arrives: libcurl succeeds, and the response leaves room for its NUL. -/
def Transfer.Delivers (transfer : Transfer) : Prop :=
  transfer.code = .ok ∧ transfer.body.length < bufferMemorySize

instance (transfer : Transfer) : Decidable transfer.Delivers :=
  inferInstanceAs (Decidable (_ ∧ _))

/-- libcurl passes chunks of sizes far below the range of `size_t`. -/
def Transfer.InRange (transfer : Transfer) : Prop := ∀ chunk ∈ transfer.chunks, Passable chunk

section Download

variable {mem : MemoryStruct} {received : List UInt8} {transfer : Transfer}

/-- Chunks that do not fit together are not received. -/
theorem curlEasyPerform_of_overflow (h : mem.Holds received) (henabled : mem.enabled = true)
    (code : CurlCode) {chunks : List (List UInt8)} (hrange : ∀ chunk ∈ chunks, Passable chunk)
    (hinside : received.length < bufferMemorySize)
    (hoverflow : bufferMemorySize ≤ received.length + chunks.flatten.length) :
    (curlEasyPerform mem code chunks).code = .writeError := by
  induction chunks generalizing mem received with
  | nil =>
    rw [List.flatten_nil, List.length_nil] at hoverflow
    omega
  | cons chunk chunks ih =>
    obtain ⟨hchunk, hchunks⟩ := List.forall_mem_cons.mp hrange
    rw [List.flatten_cons, List.length_append] at hoverflow
    by_cases hfits : received.length + chunk.length < bufferMemorySize
    · obtain ⟨hholds, hkept, hreturned, -⟩ := h.writeCallback henabled hfits
      rw [curlEasyPerform, if_pos hreturned]
      exact ih hholds hkept hchunks (by rwa [List.length_append])
        (by rw [List.length_append]; omega)
    · -- the callback returns no size that a chunk has
      have hfull : mem.size + chunk.length + 1 > bufferMemorySize := by
        rw [h.size_eq]
        omega
      have hreturned : (writeCallback mem chunk).returned = sizeMax := by
        simp [writeCallback, henabled, hfull]
      have hother : ¬ (writeCallback mem chunk).returned = chunk.length := by
        rw [hreturned]
        rw [Passable] at hchunk
        omega
      rw [curlEasyPerform, if_neg hother]

/-- A download with storing enabled succeeds exactly when its transfer arrives, and then
the buffer holds the response as a string. -/
theorem curlFetchUrl_delivers (strerror : CurlCode → List UInt8) (hrange : transfer.InRange)
    {buffer : MemoryStruct} (henabled : buffer.enabled = true) (url : Block) :
    ((curlFetchUrl strerror transfer buffer url).res ≠ -1 ↔ transfer.Delivers) ∧
      (transfer.Delivers →
        cstr (curlFetchUrl strerror transfer buffer url).buffer.memory = cstr transfer.body) := by
  by_cases hfits : transfer.body.length < bufferMemorySize
  · obtain ⟨hholds, hres⟩ := curlFetchUrl_of_fits strerror henabled url hfits
    refine ⟨?_, fun _ => hholds.cstr_memory⟩
    have hone : (curlFetchUrl strerror transfer buffer url).res ≠ -1 ↔
        (curlFetchUrl strerror transfer buffer url).res = 1 := by
      unfold curlFetchUrl
      dsimp only
      split_ifs <;> simp
    rw [hone, hres]
    exact (and_iff_left hfits).symm
  · have hcode := curlEasyPerform_of_overflow buffer.holds_cleared henabled transfer.code hrange
      (by unfold bufferMemorySize; decide)
      (by simpa [Transfer.body] using Nat.le_of_not_lt hfits)
    have hnot : ¬ transfer.Delivers := fun h => hfits h.2
    refine ⟨iff_of_false ?_ hnot, fun h => absurd h hnot⟩
    simp only [MemoryStruct.cleared] at hcode
    simp [curlFetchUrl, hcode]

end Download

/-! ### The calls that reach the cache -/

/-- Which of the calls of a job memcached carries out, whatever it answers. -/
structure Carried where
  deleted : Bool
  stored : Bool
  deriving DecidableEq

/-- What an operation of a worker does to the cache. -/
def Operation.storeOp (carried : Carried) : Operation → Option (StoreOp (List UInt8) (List UInt8))
  | .memcached (.delete key _) => if carried.deleted then some (.delete key) else none
  | .memcached (.set key value _ _) => if carried.stored then some (.set key value) else none
  | .fetch _ | .write _ | .log _ => none

/-- What a job does to the cache. -/
def storeOps (carried : Carried) (operations : List Operation) :
    List (StoreOp (List UInt8) (List UInt8)) :=
  operations.filterMap (Operation.storeOp carried)

/-- The key of a line. -/
def lineKey (settings : Settings) (line : List UInt8) : List UInt8 :=
  cstr settings.keyPrefix ++ lineArgument line

/-- A line that caches a page: a CACHE whose key is accepted. -/
def Caches (settings : Settings) (line : List UInt8) : Prop :=
  lineKind line = .cache ∧ (lineKey settings line).length < memcachedMaxKey

instance (settings : Settings) (line : List UInt8) : Decidable (Caches settings line) :=
  inferInstanceAs (Decidable (_ ∧ _))

/-- What a line does to the cache, from the responses it meets. -/
def lineOps (settings : Settings) (line : List UInt8) (responses : Responses) (carried : Carried) :
    List (StoreOp (List UInt8) (List UInt8)) :=
  if Caches settings line then
    (if carried.deleted then [.delete (lineKey settings line)] else []) ++
      if responses.transfer.Delivers ∧ carried.stored then
        [.set (lineKey settings line) (cstr responses.transfer.body)] else []
  else []

section Effects

variable {settings : Settings} {responses : Responses} {carried : Carried} {w : Worker}
  {slot : Block}

theorem storeOps_append (carried : Carried) (first second : List Operation) :
    storeOps carried (first ++ second) = storeOps carried first ++ storeOps carried second :=
  List.filterMap_append

@[simp] theorem storeOps_logs (carried : Carried) (logs : List LogMessage) :
    storeOps carried (logs.map .log) = [] := by
  induction logs with
  | nil => rfl
  | cons log logs ih => exact ih

/-- The CACHE branch deletes, and stores what arrives. -/
theorem storeOps_handleCache (hrange : responses.transfer.InRange) (w : Worker)
    (carried : Carried) :
    storeOps carried (handleCache settings responses w).operations =
      if (cstr settings.keyPrefix ++ cstr w.job).length < memcachedMaxKey then
        (if carried.deleted then [.delete (cstr settings.keyPrefix ++ cstr w.job)] else []) ++
          if responses.transfer.Delivers ∧ carried.stored then
            [.set (cstr settings.keyPrefix ++ cstr w.job) (cstr responses.transfer.body)] else []
      else [] := by
  have hmax : memcachedMaxKey = 251 := rfl
  rw [List.length_append]
  change _ = if strlen settings.keyPrefix + strlen w.job < memcachedMaxKey then _ else _
  by_cases haccepted : strlen settings.keyPrefix + strlen w.job < memcachedMaxKey
  · -- the key fits, and the operations are those on the key
    obtain ⟨hres, hkey, -⟩ := createKey_of_accepted w.key
      (show _ ∧ strlen settings.keyPrefix + strlen w.job ≤ memcachedMaxKey - 1 from
        ⟨haccepted, by omega⟩)
    have hone : ¬ (createKey w.key (memcachedMaxKey - 1) settings.keyPrefix w.job).res = -1 := by
      rw [hres]
      decide
    obtain ⟨harrives, hpage⟩ := curlFetchUrl_delivers responses.strerror hrange
      (show ({ w.buffer with enabled := true } : MemoryStruct).enabled = true from rfl) w.job
    simp only [handleCache, if_neg hone, request_memcachedDeleteRecord,
      request_memcachedOverrideRecord, hkey, if_pos haccepted]
    by_cases hdelivers : responses.transfer.Delivers
    · rw [if_pos (harrives.mpr hdelivers), hpage hdelivers, storeOps_append]
      simp only [storeOps, List.filterMap_cons, Operation.storeOp, hdelivers, true_and]
      rw [← storeOps, storeOps_logs]
      cases carried.deleted <;> cases carried.stored <;> rfl
    · -- nothing arrives, and nothing is stored
      rw [if_neg fun h => hdelivers (harrives.mp h)]
      simp only [storeOps, List.filterMap_cons, Operation.storeOp, hdelivers, false_and]
      rw [← storeOps, storeOps_logs]
      cases carried.deleted <;> rfl
  · -- the key is refused, and memcached is left alone
    obtain ⟨hres, -⟩ := createKey_of_refused w.key
      fun h : _ ∧ strlen settings.keyPrefix + strlen w.job ≤ memcachedMaxKey - 1 => haccepted h.1
    simp only [handleCache, if_pos hres, if_neg haccepted, storeOps_logs]

/-- The UPDATE branch does nothing to the cache. -/
theorem storeOps_updateLoop (settings : Settings) (access : ℕ → FifoAccess) (action : Action)
    (count : ℕ) (loop : UpdateLoop) (carried : Carried) :
    storeOps carried (updateLoop settings access action count loop).2 = [] := by
  induction count generalizing loop with
  | zero => rfl
  | succ count ih =>
    unfold updateLoop
    split
    case h_1 => rfl
    case h_2 loop' str hnext =>
      dsimp only
      rw [List.cons_append, storeOps, List.filterMap_cons, Operation.storeOp, ← storeOps,
        storeOps_append, storeOps_logs, ih, List.append_nil]
    case h_3 loop' log hnext => exact ih loop'

/-- A job does to the cache what its line does, whatever the worker's buffers hold. -/
theorem storeOps_handleJob (settings : Settings) (hrange : responses.transfer.InRange)
    (hnul : (0 : UInt8) ∈ slot) (w : Worker) (carried : Carried) :
    storeOps carried (handleJob settings responses w slot).operations =
      lineOps settings (cstr slot) responses carried := by
  obtain ⟨hkind, -, hargument⟩ := parse_spec w hnul
  -- only a CACHE changes what memcached holds
  have hother : (w.parse slot).res ≠ .cache →
      lineOps settings (cstr slot) responses carried = [] := by
    intro hres
    exact if_neg fun h => hres (hkind.trans h.1)
  cases hres : (w.parse slot).res with
  | fetch =>
    rw [hother (by simp [hres])]
    simp only [handleJob, hres, handleFetch]
    exact storeOps_logs carried _
  | cache =>
    have hjob := hargument (by rw [← hkind, hres]; decide)
    have hcaches : Caches settings (cstr slot) ↔
        (cstr settings.keyPrefix ++ cstr (w.parse slot).job).length < memcachedMaxKey := by
      rw [Caches, ← hkind, hres, lineKey, hjob]
      exact and_iff_right rfl
    rw [handleJob_of_cache hres, storeOps_handleCache hrange]
    simp only [lineOps, hcaches, lineKey, hjob]
  | update =>
    rw [hother (by simp [hres])]
    simp only [handleJob, hres, handleUpdate]
    cases findAction settings.actions (w.parse slot).job with
    | found index action => exact storeOps_updateLoop settings _ action _ _ carried
    | null => rfl
    | wild => rfl
  | undefined =>
    rw [hother (by simp [hres])]
    simp only [handleJob, hres]
    rfl

/-- A line works on one key. -/
theorem key_of_mem_lineOps {line : List UInt8} {op : StoreOp (List UInt8) (List UInt8)}
    (hop : op ∈ lineOps settings line responses carried) :
    Caches settings line ∧ op.key = lineKey settings line := by
  unfold lineOps at hop
  split_ifs at hop with hcaches hdeleted hstored hstored
  all_goals simp only [List.mem_append, List.mem_singleton, List.not_mem_nil, or_false,
    false_or] at hop
  · refine ⟨hcaches, ?_⟩
    rcases hop with rfl | rfl <;> rfl
  · exact ⟨hcaches, by rw [hop]; rfl⟩
  · exact ⟨hcaches, by rw [hop]; rfl⟩

/-- What a line puts into the cache is the page that arrived. -/
theorem set_mem_lineOps {line key value : List UInt8}
    (hset : .set key value ∈ lineOps settings line responses carried) :
    Caches settings line ∧ key = lineKey settings line ∧ responses.transfer.Delivers ∧
      value = cstr responses.transfer.body := by
  obtain ⟨hcaches, hkey⟩ := key_of_mem_lineOps hset
  refine ⟨hcaches, hkey, ?_⟩
  unfold lineOps at hset
  split_ifs at hset with hdeleted hstored hstored
  all_goals simp at hset
  · exact ⟨hstored.1, hset.2⟩
  · exact ⟨hstored.1, hset.2⟩

end Effects

end EasyForetell
