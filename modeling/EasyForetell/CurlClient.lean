import EasyForetell.Logger
import Mathlib.Algebra.Group.Nat.Defs

/-!
# Downloads (curl_client.c)

libcurl hands a response to `write_callback` chunk by chunk. The callback appends the
chunks to a buffer of `BUFFER_MEMORY_SIZE` bytes that all jobs of a worker share, and
refuses the chunk that does not fit with its NUL.

## Main results

* `MemoryStruct.Holds.writeCallback`: an accepted chunk is appended
* `MemoryStruct.Holds.curlEasyPerform`: chunks that fit together are received whole
* `curlFetchUrl_of_fits`: after a fetch the buffer holds the response, whatever was in
  it before
* `download_buffer_exact`: what the buffer holds after any sequence of calls
-/

namespace EasyForetell

open Memory

/-- `BUFFER_MEMORY_SIZE`. -/
@[irreducible] def bufferMemorySize : ℕ := 102400

/-- `(size_t) -1`. -/
def sizeMax : ℕ := 2 ^ 64 - 1

/-- `memory_struct_t`. -/
structure MemoryStruct where
  memory : Block
  size : ℕ
  enabled : Bool

/-- What a call of `write_callback` leaves, returns and logs. -/
structure WriteResult where
  buffer : MemoryStruct
  returned : ℕ
  logs : List LogMessage

/-- `log_error ("Not enough memory to download data, limit is %d bytes", ...)`. -/
def memoryLimitMessage : LogMessage :=
  ⟨.error, ascii "Not enough memory to download data, limit is " ++
    ascii (toString bufferMemorySize) ++ ascii " bytes"⟩

/-- `write_callback`, for the `size * nmemb` bytes of a chunk. No such product comes
near the range of `size_t`. -/
def writeCallback (mem : MemoryStruct) (chunk : List UInt8) : WriteResult :=
  let realsize := chunk.length
  if !mem.enabled then ⟨mem, realsize, []⟩
  else
    let bufferLength := mem.size + realsize + 1
    if bufferLength > bufferMemorySize then ⟨mem, sizeMax, [memoryLimitMessage]⟩
    else
      let memory := store mem.memory mem.size chunk
      let size := mem.size + realsize
      ⟨{ mem with memory := store memory size [0], size }, realsize, []⟩

/-- The codes of `curl_easy_perform`: `CURLE_OK`, the code for a chunk that the callback
refused, and the others. -/
inductive CurlCode
  | ok
  | writeError
  | other (code : ℕ)
  deriving DecidableEq

/-- A transfer as libcurl makes it: the chunks it has, and the code when the callback
takes them all. -/
structure Transfer where
  chunks : List (List UInt8)
  code : CurlCode

/-- The response that a transfer delivers. -/
def Transfer.body (transfer : Transfer) : List UInt8 := transfer.chunks.flatten

/-- What `curl_easy_perform` leaves in the buffer and returns, and what is logged
meanwhile. -/
structure PerformResult where
  buffer : MemoryStruct
  code : CurlCode
  logs : List LogMessage

/-- `curl_easy_perform`: chunk after chunk, until the callback returns another number
than the chunk has bytes. -/
def curlEasyPerform (mem : MemoryStruct) (code : CurlCode) : List (List UInt8) → PerformResult
  | [] => ⟨mem, code, []⟩
  | chunk :: chunks =>
    let taken := writeCallback mem chunk
    if taken.returned = chunk.length then
      let later := curlEasyPerform taken.buffer code chunks
      { later with logs := taken.logs ++ later.logs }
    else ⟨taken.buffer, .writeError, taken.logs⟩

/-- What `curl_fetch_url` leaves, returns and logs. -/
structure FetchResult where
  buffer : MemoryStruct
  res : ℤ
  logs : List LogMessage

/-- `curl_fetch_url`, with the texts of `curl_easy_strerror`. -/
def curlFetchUrl (strerror : CurlCode → List UInt8) (transfer : Transfer) (buffer : MemoryStruct)
    (url : Block) : FetchResult :=
  let buffer := { buffer with memory := memset buffer.memory 0 bufferMemorySize, size := 0 }
  let performed := curlEasyPerform buffer transfer.code transfer.chunks
  if performed.code = .ok then
    let outcome :=
      if performed.buffer.enabled then
        ascii ", succeeded, " ++ ascii (toString performed.buffer.size) ++ ascii " bytes retrieved"
      else ascii ", succeeded, fetch only"
    ⟨performed.buffer, 1, performed.logs ++ [⟨.info, ascii "URL: " ++ cstr url ++ outcome⟩]⟩
  else
    ⟨performed.buffer, -1, performed.logs ++
      [⟨.notice, ascii "URL: " ++ cstr url ++ ascii ", failed with error: " ++
        strerror performed.code⟩]⟩

/-! ### What the buffer holds -/

/-- The buffer holds the bytes received, with a NUL behind them. -/
structure MemoryStruct.Holds (mem : MemoryStruct) (received : List UInt8) : Prop where
  size_eq : mem.size = received.length
  content : mem.memory.take (received.length + 1) = received ++ [0]

namespace MemoryStruct

variable {mem : MemoryStruct} {received chunk : List UInt8}

theorem Holds.eq_append (h : mem.Holds received) :
    ∃ rest, mem.memory = received ++ 0 :: rest := by
  refine ⟨mem.memory.drop (received.length + 1), ?_⟩
  conv_lhs => rw [← List.take_append_drop (received.length + 1) mem.memory, h.content]
  rw [List.append_assoc, List.singleton_append]

/-- As a C string the buffer ends at the first NUL received. -/
theorem Holds.cstr_memory (h : mem.Holds received) : cstr mem.memory = cstr received := by
  obtain ⟨rest, hmemory⟩ := h.eq_append
  rw [hmemory, cstr_append_nul_eq]

/-- A chunk that fits with its NUL is appended. -/
theorem Holds.writeCallback (h : mem.Holds received) (henabled : mem.enabled = true)
    (hfits : received.length + chunk.length < bufferMemorySize) :
    let result := writeCallback mem chunk
    result.buffer.Holds (received ++ chunk) ∧ result.buffer.enabled = true ∧
      result.returned = chunk.length ∧ result.logs = [] := by
  obtain ⟨rest, hmemory⟩ := h.eq_append
  have hroom : ¬ mem.size + chunk.length + 1 > bufferMemorySize := by
    rw [h.size_eq]
    omega
  have hinside : received.length ≤ mem.memory.length := by
    rw [hmemory, List.length_append]
    omega
  -- the chunk goes where the NUL was, and a new NUL behind it
  have hcopied : (store mem.memory received.length chunk).take (received.length + chunk.length) =
      received ++ chunk := by
    rw [take_store chunk hinside, hmemory, List.take_left]
  have hcopiedLength : received.length + chunk.length ≤
      (store mem.memory received.length chunk).length := by
    rw [length_store hinside]
    exact Nat.le_max_right _ _
  simp only [EasyForetell.writeCallback, henabled, Bool.not_true, Bool.false_eq_true, if_false,
    if_neg hroom, and_true]
  constructor
  · exact (congrArg (· + chunk.length) h.size_eq).trans List.length_append.symm
  · rw [h.size_eq, List.length_append]
    exact (take_store [0] hcopiedLength).trans (by rw [hcopied])

/-- Chunks that fit together are received whole. -/
theorem Holds.curlEasyPerform (h : mem.Holds received) (henabled : mem.enabled = true)
    (code : CurlCode) {chunks : List (List UInt8)}
    (hfits : received.length + chunks.flatten.length < bufferMemorySize) :
    let result := curlEasyPerform mem code chunks
    result.buffer.Holds (received ++ chunks.flatten) ∧ result.code = code ∧ result.logs = [] := by
  induction chunks generalizing mem received with
  | nil =>
    rw [List.flatten_nil, List.append_nil]
    exact ⟨h, rfl, rfl⟩
  | cons chunk chunks ih =>
    rw [List.flatten_cons, List.length_append] at hfits
    obtain ⟨hholds, hkept, hreturned, hlogs⟩ := h.writeCallback henabled
      (show received.length + chunk.length < bufferMemorySize by omega)
    obtain ⟨hall, hcode, hquiet⟩ := ih hholds hkept (by rw [List.length_append]; omega)
    rw [EasyForetell.curlEasyPerform, if_pos hreturned, List.flatten_cons, ← List.append_assoc]
    refine ⟨hall, hcode, ?_⟩
    exact (congrArg₂ (· ++ ·) hlogs hquiet).trans (List.append_nil _)

/-- The buffer as `curl_fetch_url` cleans it. -/
def cleared (buffer : MemoryStruct) : MemoryStruct :=
  { buffer with memory := memset buffer.memory 0 bufferMemorySize, size := 0 }

theorem holds_cleared (buffer : MemoryStruct) : buffer.cleared.Holds [] := by
  refine ⟨rfl, ?_⟩
  have hpos : bufferMemorySize = bufferMemorySize - 1 + 1 := by
    unfold bufferMemorySize
    omega
  -- one zero of `memset` is enough: the memory is never expanded
  rw [cleared, memset, store_zero, hpos, List.replicate_succ]
  rfl

end MemoryStruct

/-- A fetch of a response that fits leaves exactly the response in the buffer, and
succeeds when libcurl does. -/
theorem curlFetchUrl_of_fits (strerror : CurlCode → List UInt8) {transfer : Transfer}
    {buffer : MemoryStruct} (henabled : buffer.enabled = true) (url : Block)
    (hfits : transfer.body.length < bufferMemorySize) :
    let result := curlFetchUrl strerror transfer buffer url
    result.buffer.Holds transfer.body ∧ (result.res = 1 ↔ transfer.code = .ok) := by
  obtain ⟨hholds, hcode, -⟩ := buffer.holds_cleared.curlEasyPerform henabled transfer.code
    (show ([] : List UInt8).length + transfer.chunks.flatten.length < bufferMemorySize by
      simpa [Transfer.body] using hfits)
  rw [List.nil_append] at hholds
  simp only [MemoryStruct.cleared] at hholds hcode
  simp only [curlFetchUrl, hcode]
  by_cases hok : transfer.code = .ok
  · rw [if_pos hok]
    exact ⟨hholds, iff_of_true rfl hok⟩
  · rw [if_neg hok]
    exact ⟨hholds, iff_of_false (show ¬ (-1 : ℤ) = 1 by decide) hok⟩

/-! ### Any sequence of calls -/

/-- The buffer after a sequence of calls of `write_callback`. -/
def writeCallbacks (mem : MemoryStruct) (chunks : List (List UInt8)) : MemoryStruct :=
  chunks.foldl (fun mem chunk => (writeCallback mem chunk).buffer) mem

/-- The chunks of a sequence that were accepted: those whose call returned their length. -/
def acceptedChunks : MemoryStruct → List (List UInt8) → List (List UInt8)
  | _, [] => []
  | mem, chunk :: chunks =>
    let result := writeCallback mem chunk
    let later := acceptedChunks result.buffer chunks
    if result.returned = chunk.length then chunk :: later else later

/-- A chunk as libcurl passes it: behind a full buffer no length wraps `size_t`. -/
def Passable (chunk : List UInt8) : Prop := bufferMemorySize + chunk.length < sizeMax

namespace MemoryStruct

variable {mem : MemoryStruct} {received chunk : List UInt8}

/-- A chunk that does not fit is refused: the returned value is not its length, and the
buffer stays as it is. -/
theorem Holds.writeCallback_of_not_fits (h : mem.Holds received) (henabled : mem.enabled = true)
    (hpass : Passable chunk) (hfits : ¬ received.length + chunk.length < bufferMemorySize) :
    (EasyForetell.writeCallback mem chunk).buffer = mem ∧
      (EasyForetell.writeCallback mem chunk).returned ≠ chunk.length := by
  have hfull : mem.size + chunk.length + 1 > bufferMemorySize := by
    rw [h.size_eq]
    omega
  simp only [EasyForetell.writeCallback, henabled, Bool.not_true, Bool.false_eq_true, if_false,
    if_pos hfull, true_and]
  -- `(size_t) -1` is longer than any chunk
  unfold Passable at hpass
  omega

/-- With storing switched off a call only counts. -/
theorem writeCallback_of_disabled (hdisabled : mem.enabled = false) (chunk : List UInt8) :
    (EasyForetell.writeCallback mem chunk).buffer = mem := by
  simp [EasyForetell.writeCallback, hdisabled]

theorem writeCallbacks_of_disabled (mem : MemoryStruct) (hdisabled : mem.enabled = false)
    (chunks : List (List UInt8)) : writeCallbacks mem chunks = mem := by
  induction chunks with
  | nil => rfl
  | cons chunk chunks ih =>
    rw [writeCallbacks, List.foldl_cons, writeCallback_of_disabled hdisabled]
    exact ih

/-- The run invariant: behind what it held, the buffer holds the accepted chunks, in a
memory that they and the NUL do not fill beyond its size. -/
theorem Holds.writeCallbacks (h : mem.Holds received) (henabled : mem.enabled = true)
    (hroom : received.length < bufferMemorySize) {chunks : List (List UInt8)}
    (hpass : ∀ chunk ∈ chunks, Passable chunk) :
    let final := writeCallbacks mem chunks
    let stored := received ++ (acceptedChunks mem chunks).flatten
    final.Holds stored ∧ final.enabled = true ∧ stored.length < bufferMemorySize := by
  induction chunks generalizing mem received with
  | nil => simpa [EasyForetell.writeCallbacks, acceptedChunks] using ⟨h, henabled, hroom⟩
  | cons chunk chunks ih =>
    obtain ⟨hchunk, hrest⟩ := List.forall_mem_cons.mp hpass
    rw [EasyForetell.writeCallbacks, List.foldl_cons, ← EasyForetell.writeCallbacks, acceptedChunks]
    by_cases hfits : received.length + chunk.length < bufferMemorySize
    · obtain ⟨hholds, hkept, hreturned, -⟩ := h.writeCallback henabled hfits
      have hlater := ih hholds hkept (by rwa [List.length_append]) hrest
      simpa only [if_pos hreturned, List.flatten_cons, ← List.append_assoc] using hlater
    · obtain ⟨hbuffer, hreturned⟩ := h.writeCallback_of_not_fits henabled hchunk hfits
      have hlater := ih h henabled hroom hrest
      simpa only [if_neg hreturned, hbuffer] using hlater

end MemoryStruct

/-- Between two fetches, whatever chunks come: the buffer holds the accepted ones, one behind
the other, with a NUL that is still inside, and it decides on the next chunk by whether that
fits with its NUL. With storing switched off the calls leave the buffer alone. -/
theorem download_buffer_exact (buffer : MemoryStruct) (chunks : List (List UInt8))
    (next : List UInt8) (hpass : ∀ chunk ∈ chunks, Passable chunk) (hnext : Passable next) :
    (buffer.enabled = true →
      let mem := writeCallbacks buffer.cleared chunks
      let stored := (acceptedChunks buffer.cleared chunks).flatten
      let result := writeCallback mem next
      (mem.size < bufferMemorySize ∧ mem.memory.take mem.size = stored ∧
        mem.memory[mem.size]? = some 0) ∧
      (result.returned = next.length ↔ mem.size + next.length + 1 ≤ bufferMemorySize) ∧
      (result.returned ≠ next.length → result.buffer = mem)) ∧
    (buffer.enabled = false → writeCallbacks buffer.cleared chunks = buffer.cleared) := by
  refine ⟨fun henabled => ?_, fun hdisabled =>
    buffer.cleared.writeCallbacks_of_disabled hdisabled chunks⟩
  intro mem stored result
  have hempty : ([] : List UInt8).length < bufferMemorySize := by
    rw [List.length_nil]
    unfold bufferMemorySize
    omega
  -- what the callbacks have stored so far, behind the empty buffer
  obtain ⟨hholds, hkept, hlength⟩ :=
    buffer.holds_cleared.writeCallbacks henabled hempty hpass
  rw [List.nil_append] at hholds hlength
  obtain ⟨rest, hmemory⟩ := hholds.eq_append
  have hsize : mem.size = stored.length := hholds.size_eq
  refine ⟨⟨hsize ▸ hlength, ?_, ?_⟩, ?_⟩
  · rw [hsize]
    exact (congrArg (List.take stored.length) hmemory).trans List.take_left
  · rw [hsize]
    exact (congrArg (·[stored.length]?) hmemory).trans (by simp [stored])
  · by_cases hfits : stored.length + next.length < bufferMemorySize
    · have hreturned := (hholds.writeCallback hkept hfits).2.2.1
      exact ⟨iff_of_true hreturned (hsize ▸ hfits), fun hne => absurd hreturned hne⟩
    · -- the callback refuses the chunk and leaves the buffer as it is
      obtain ⟨hbuffer, hreturned⟩ := hholds.writeCallback_of_not_fits hkept hnext hfits
      exact ⟨iff_of_false hreturned (hsize ▸ hfits), fun _ => hbuffer⟩

/-- Two chunks over whatever the buffer held before, and a third one that is accepted. -/
theorem download_buffer_exact_two_chunks :
    let mem := writeCallbacks (MemoryStruct.cleared ⟨[9, 9], 7, true⟩) [[65, 66], [67]]
    (∀ chunk ∈ [[65, 66], [67], [68]], Passable chunk) ∧
      mem.memory.take mem.size = [65, 66, 67] ∧ (writeCallback mem [68]).returned = 1 := by
  have hlimit : bufferMemorySize = 102400 := by unfold bufferMemorySize; rfl
  have hpass : ∀ chunk ∈ [[65, 66], [67], [68]], Passable chunk := by
    have hlength : ∀ chunk ∈ [[65, 66], [67], ([68] : List UInt8)], chunk.length ≤ 2 := by decide
    intro chunk hchunk
    have hshort := hlength chunk hchunk
    unfold Passable sizeMax
    omega
  obtain ⟨⟨-, hcontent, -⟩, hnext, -⟩ := (download_buffer_exact ⟨[9, 9], 7, true⟩
    [[65, 66], [67]] [68] (fun chunk hchunk => hpass chunk (by simp at hchunk ⊢; tauto))
    (hpass [68] (by simp))).1 rfl
  have hstored : acceptedChunks (MemoryStruct.cleared ⟨[9, 9], 7, true⟩) [[65, 66], [67]] =
      [[65, 66], [67]] := by
    simp [acceptedChunks, writeCallback, MemoryStruct.cleared, hlimit]
  have hsize : (writeCallbacks (MemoryStruct.cleared ⟨[9, 9], 7, true⟩) [[65, 66], [67]]).size =
      3 := by
    simp [writeCallbacks, writeCallback, MemoryStruct.cleared, hlimit]
  refine ⟨hpass, ?_, hnext.mpr ?_⟩
  · rw [hcontent, hstored]
    rfl
  · rw [hsize, hlimit]
    decide

end EasyForetell
