import EasyForetell.Logger

/-!
# Records (memcached_client.c)

The keys of the cache, and the requests to libmemcached that delete and replace a
record. A request says which bytes libmemcached is pointed to, by pointer and length.
-/

namespace EasyForetell

open Memory

/-- `MEMCACHED_MAX_KEY`, which counts the NUL. -/
def memcachedMaxKey : ℕ := 251

/-- What libmemcached returns: `MEMCACHED_SUCCESS`, `MEMCACHED_BUFFERED` or a failure,
with its text. -/
inductive MemcachedReturn
  | success
  | buffered
  | failed (strerror : List UInt8)

/-- A call of libmemcached. -/
inductive MemcachedRequest
  | delete (key : List UInt8) (expiration : ℤ)
  | set (key value : List UInt8) (expiration : ℤ) (flags : ℕ)

/-- The call a function makes, the value it returns and the message it logs. -/
structure MemcachedResult where
  request : MemcachedRequest
  res : ℤ
  log : LogMessage

/-- `memcached_override_record`. -/
def memcachedOverrideRecord (answer : MemcachedReturn) (key value : Block) (expiration : ℤ) :
    MemcachedResult :=
  let request := .set (key.take (strlen key)) (value.take (strlen value)) expiration 0
  let updated : LogMessage := ⟨.info, ascii "Cache: " ++ cstr key ++ ascii ", updated"⟩
  match answer with
  | .success => ⟨request, 1, updated⟩
  | .buffered => ⟨request, 1, updated⟩
  | .failed strerror => ⟨request, -1,
      ⟨.warning, ascii "Failed to store record '" ++ cstr key ++ ascii "' on memcached: " ++
        strerror⟩⟩

/-- `memcached_delete_record`. -/
def memcachedDeleteRecord (answer : MemcachedReturn) (key : Block) (logError : Bool) :
    MemcachedResult :=
  let request := .delete (key.take (strlen key)) 0
  let deleted : LogMessage := ⟨.info, ascii "Cache: " ++ cstr key ++ ascii ", deleted"⟩
  match answer with
  | .success => ⟨request, 1, deleted⟩
  | .buffered => ⟨request, 1, deleted⟩
  | .failed strerror => ⟨request, -1,
      ⟨if logError then .warning else .info,
        ascii "Failed to delete record '" ++ cstr key ++ ascii "' on memcached: " ++ strerror⟩⟩

/-- What `create_key` leaves in `out`, returns and logs. -/
structure KeyResult where
  out : Block
  res : ℤ
  logs : List LogMessage

/-- `create_key`, for pointers that are not NULL: its caller passes arrays. -/
def createKey (out : Block) (outLen : ℕ) (keyPrefix url : Block) : KeyResult :=
  let keyLength := strlen keyPrefix + strlen url
  if keyLength < memcachedMaxKey ∧ keyLength ≤ outLen then
    ⟨strcat (strcpy out keyPrefix) url, 1, []⟩
  else
    ⟨out, -1, [⟨.error, ascii "Maximum memcached key length exceeded: " ++
      ascii (toString memcachedMaxKey) ++ ascii ", URL: '" ++ cstr url ++ ascii "'"⟩]⟩

section Records

variable {out keyPrefix url : Block} {outLen : ℕ}

/-- A key that is accepted is the URL behind what every key starts with. -/
theorem cstr_createKey (haccepted : (createKey out outLen keyPrefix url).res ≠ -1) :
    cstr (createKey out outLen keyPrefix url).out = cstr keyPrefix ++ cstr url := by
  unfold createKey at haccepted ⊢
  dsimp only at haccepted ⊢
  split_ifs at haccepted ⊢ with hfits
  · rw [cstr_strcat, cstr_strcpy]
  · exact absurd rfl haccepted

/-- The record that replaces another is the string of the value, whatever libmemcached
answers. -/
theorem request_memcachedOverrideRecord (answer : MemcachedReturn) (key value : Block)
    (expiration : ℤ) : (memcachedOverrideRecord answer key value expiration).request =
      .set (cstr key) (cstr value) expiration 0 := by
  rw [← take_strlen key, ← take_strlen value]
  cases answer <;> rfl

theorem request_memcachedDeleteRecord (answer : MemcachedReturn) (key : Block) (logError : Bool) :
    (memcachedDeleteRecord answer key logError).request = .delete (cstr key) 0 := by
  rw [← take_strlen key]
  cases answer <;> rfl

end Records

end EasyForetell
