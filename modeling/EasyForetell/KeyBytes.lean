import EasyForetell.JobLine

/-!
# The bytes of a key (queral.c, memcached_client.c)

libmemcached sends a key verbatim in a command line whose parts are separated by spaces.
`create_key` refuses a key that is too long for memcached, but takes it with any bytes, and the
parser only trims the argument of a CACHE line, so that what stands inside it reaches the
command line.

## Main results

* `mem_sentKeys_iff`: the keys that a CACHE job sends
* `key_safe_iff`: when they cannot break the command line
-/

namespace EasyForetell

open Memory

/-- `iscntrl` in the C locale. -/
def iscntrl (c : UInt8) : Bool := c.toNat < 32 || c == 127

/-- A text without whitespace and control bytes. -/
def KeySafe (text : List UInt8) : Prop := ∀ c ∈ text, isspace c = false ∧ iscntrl c = false

instance (text : List UInt8) : Decidable (KeySafe text) :=
  List.decidableBAll (fun c => isspace c = false ∧ iscntrl c = false) text

theorem keySafe_append_iff {first second : List UInt8} :
    KeySafe (first ++ second) ↔ KeySafe first ∧ KeySafe second :=
  List.forall_mem_append

/-- The keys that operations hand to libmemcached. -/
def sentKeys (operations : List Operation) : List (List UInt8) :=
  operations.filterMap fun operation =>
    match operation with
    | .memcached (.delete key _) => some key
    | .memcached (.set key _ _ _) => some key
    | _ => none

section Keys

variable {settings : Settings} {responses : Responses} {w : Worker} {slot : Block}

@[simp] theorem sentKeys_logs (logs : List LogMessage) : sentKeys (logs.map .log) = [] := by
  induction logs with
  | nil => rfl
  | cons log logs ih => exact ih

theorem sentKeys_append (first second : List Operation) :
    sentKeys (first ++ second) = sentKeys first ++ sentKeys second :=
  List.filterMap_append

/-- A CACHE job whose key is accepted sends that key and no other. -/
theorem mem_sentKeys_iff (hnul : (0 : UInt8) ∈ slot) (hcache : (w.parse slot).res = .cache)
    (haccepted : (createKey w.key (memcachedMaxKey - 1) settings.keyPrefix
      (w.parse slot).job).res ≠ -1) {key : List UInt8} :
    key ∈ sentKeys (handleJob settings responses w slot).operations ↔
      key = cstr settings.keyPrefix ++ lineArgument (cstr slot) := by
  obtain ⟨hkind, -, hargument⟩ := parse_spec w hnul
  have hstring := cstr_createKey haccepted
  rw [hargument (by rw [← hkind, hcache]; decide)] at hstring
  rw [handleJob_of_cache hcache]
  simp only [handleCache, if_neg haccepted, request_memcachedDeleteRecord,
    request_memcachedOverrideRecord, hstring]
  split_ifs with hfetched
  · -- deleted and stored under the same key
    rw [sentKeys_append]
    simp only [sentKeys, List.filterMap_cons, List.filterMap_nil]
    rw [← sentKeys, sentKeys_logs]
    simp
  · simp only [sentKeys, List.filterMap_cons]
    rw [← sentKeys, sentKeys_logs]
    simp

end Keys

/-- A CACHE line whose key is accepted sends a key without whitespace and control bytes if and
only if there are none inside its argument: nothing between the FIFO and libmemcached looks for
them. -/
theorem key_safe_iff (settings : Settings) (responses : Responses) (w : Worker) (slot : Block)
    (hnul : (0 : UInt8) ∈ slot) (hcache : (w.parse slot).res = .cache)
    (haccepted : (createKey w.key (memcachedMaxKey - 1) settings.keyPrefix
      (w.parse slot).job).res ≠ -1) (hbegin : KeySafe (cstr settings.keyPrefix)) :
    (∀ key ∈ sentKeys (handleJob settings responses w slot).operations, KeySafe key) ↔
      KeySafe (lineArgument (cstr slot)) := by
  simp only [mem_sentKeys_iff hnul hcache haccepted, forall_eq, keySafe_append_iff]
  exact and_iff_right hbegin

/-- A URL without such bytes. -/
theorem key_safe_url :
    (exampleWorker.parse (ascii "CACHE http://u/" ++ [0])).res = .cache ∧
      ∀ key ∈ sentKeys (handleJob exampleSettings (exampleResponses [] []) exampleWorker
        (ascii "CACHE http://u/" ++ [0])).operations, KeySafe key := by
  have hcache : (exampleWorker.parse (ascii "CACHE http://u/" ++ [0])).res = .cache := by decide
  exact ⟨hcache, (key_safe_iff exampleSettings (exampleResponses [] []) exampleWorker
    (ascii "CACHE http://u/" ++ [0]) (by decide) hcache (by decide) (by decide)).mpr (by decide)⟩

/-- The space inside the argument gets into the key. -/
theorem key_with_space :
    (exampleWorker.parse (ascii "CACHE a b" ++ [0])).res = .cache ∧
      KeySafe (cstr exampleSettings.keyPrefix) ∧
      ascii "__memc_a b" ∈ sentKeys (handleJob exampleSettings (exampleResponses [] [])
        exampleWorker (ascii "CACHE a b" ++ [0])).operations ∧
      ¬ ∀ key ∈ sentKeys (handleJob exampleSettings (exampleResponses [] []) exampleWorker
        (ascii "CACHE a b" ++ [0])).operations, KeySafe key := by
  have hsent : ascii "__memc_a b" ∈ sentKeys (handleJob exampleSettings (exampleResponses [] [])
      exampleWorker (ascii "CACHE a b" ++ [0])).operations :=
    (mem_sentKeys_iff (by decide) (by decide) (by decide)).mpr (by decide)
  exact ⟨by decide, by decide, hsent, fun hsafe => absurd (hsafe _ hsent) (by decide)⟩

end EasyForetell