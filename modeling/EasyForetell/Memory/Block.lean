import Mathlib.Data.List.TakeWhile
import Mathlib.Tactic.Common

/-!
# Byte blocks and C strings

A block is the memory from the first byte of a buffer on. A store that runs past
the declared size of the buffer makes the block longer, so an overrun is visible
as a growth of the block. A C string is read from a block up to its first NUL.

Each operation of the C library comes with the lemma that says which string the
block holds afterwards.
-/

namespace EasyForetell.Memory

/-- The bytes of a string literal in the execution character set. -/
def ascii (text : String) : List UInt8 := text.toList.map fun c => c.toNat.toUInt8

@[simp] theorem length_ascii (text : String) : (ascii text).length = text.length := by
  rw [ascii, List.length_map, String.length_toList]

/-- The memory from the first byte of a buffer on. -/
abbrev Block := List UInt8

/-- The string a block holds: its bytes before the first NUL. -/
def cstr (block : Block) : List UInt8 := block.takeWhile (· != 0)

/-- The length `strlen` returns for the string a block holds. -/
def strlen (block : Block) : ℕ := (cstr block).length

/-- Store consecutive bytes from an index on. -/
def store (block : Block) (index : ℕ) (bytes : List UInt8) : Block :=
  block.take index ++ bytes ++ block.drop (index + bytes.length)

section Strings

variable {block : Block} {text rest : List UInt8}

/-- Skipping as many bytes as stand before the first one that fails a test. -/
theorem drop_length_takeWhile (p : UInt8 → Bool) (text : List UInt8) :
    text.drop (text.takeWhile p).length = text.dropWhile p := by
  calc text.drop (text.takeWhile p).length
      = (text.takeWhile p ++ text.dropWhile p).drop (text.takeWhile p).length := by
        rw [List.takeWhile_append_dropWhile]
    _ = text.dropWhile p := List.drop_left

theorem nul_notMem_cstr (block : Block) : (0 : UInt8) ∉ cstr block := by
  intro hmem
  simpa using List.mem_takeWhile_imp hmem

theorem cstr_isPrefix (block : Block) : cstr block <+: block :=
  List.takeWhile_prefix _

theorem strlen_le_length (block : Block) : strlen block ≤ block.length :=
  (cstr_isPrefix block).length_le

/-- The bytes before a NUL are the string, when none of them is a NUL. -/
theorem cstr_append_nul (hfree : (0 : UInt8) ∉ text) : cstr (text ++ 0 :: rest) = text := by
  induction text with
  | nil => simp [cstr]
  | cons c text ih =>
    have hc : c ≠ 0 := fun h => hfree (by simp [h])
    have htext : (0 : UInt8) ∉ text := fun h => hfree (by simp [h])
    have htail := ih htext
    simp only [cstr] at htail
    simp [cstr, hc, htail]

theorem cstr_of_nulFree (hfree : (0 : UInt8) ∉ text) : cstr text = text := by
  rw [cstr, List.takeWhile_eq_self_iff]
  intro c hc
  simpa using fun h : c = 0 => hfree (h ▸ hc)

/-- A block that holds a NUL splits at the first one. -/
theorem eq_cstr_append_nul (hnul : (0 : UInt8) ∈ block) :
    ∃ rest, block = cstr block ++ 0 :: rest := by
  induction block with
  | nil => simp at hnul
  | cons c block ih =>
    by_cases hc : c = 0
    · exact ⟨block, by simp [cstr, hc]⟩
    · obtain ⟨rest, hrest⟩ := ih (by simpa [Ne.symm hc] using hnul)
      refine ⟨rest, ?_⟩
      have hcons : cstr (c :: block) = c :: cstr block := by simp [cstr, hc]
      rw [hcons, List.cons_append, ← hrest]

/-- A NUL among the first bytes ends the string there, whatever follows. -/
theorem cstr_append_of_mem (hnul : (0 : UInt8) ∈ block) : cstr (block ++ rest) = cstr block := by
  obtain ⟨more, hmore⟩ := eq_cstr_append_nul hnul
  conv_lhs => rw [hmore, List.append_assoc, List.cons_append]
  exact cstr_append_nul (nul_notMem_cstr block)

/-- A text and a NUL hold the string of the text. -/
theorem cstr_append_nul_eq (text rest : List UInt8) : cstr (text ++ 0 :: rest) = cstr text := by
  by_cases hfree : (0 : UInt8) ∈ text
  · exact cstr_append_of_mem hfree
  · rw [cstr_append_nul hfree, cstr_of_nulFree hfree]

theorem cstr_eq_self_iff : cstr text = text ↔ (0 : UInt8) ∉ text := by
  constructor
  · intro hself
    rw [← hself]
    exact nul_notMem_cstr text
  · exact cstr_of_nulFree

theorem strlen_replicate_append_nul {c : UInt8} (hc : c ≠ 0) (count : ℕ) :
    strlen (List.replicate count c ++ [0]) = count := by
  have hfree : (0 : UInt8) ∉ List.replicate count c :=
    fun hmem => hc (List.eq_of_mem_replicate hmem).symm
  rw [strlen, cstr_append_nul hfree, List.length_replicate]

theorem take_strlen (block : Block) : block.take (strlen block) = cstr block :=
  (List.prefix_iff_eq_take.mp (cstr_isPrefix block)).symm

/-- The first `strlen + 1` bytes are the string and its NUL. -/
theorem take_strlen_succ (hnul : (0 : UInt8) ∈ block) :
    block.take (strlen block + 1) = cstr block ++ [0] := by
  obtain ⟨rest, hrest⟩ := eq_cstr_append_nul hnul
  conv_lhs => rw [hrest]
  have hlength : strlen (cstr block ++ 0 :: rest) = (cstr block).length := by
    rw [← hrest]
    rfl
  rw [hlength, List.take_length_add_append]
  rfl

/-- Skipping bytes of the string skips them in the string. -/
theorem cstr_drop {index : ℕ} (hindex : index ≤ strlen block) :
    cstr (block.drop index) = (cstr block).drop index := by
  induction index generalizing block with
  | zero => simp
  | succ index ih =>
    cases block with
    | nil => simp [cstr]
    | cons c block =>
      -- behind the first NUL there is no string to skip into
      by_cases hc : c = 0
      · simp [strlen, cstr, hc] at hindex
      · have hcons : cstr (c :: block) = c :: cstr block := by simp [cstr, hc]
        rw [strlen, hcons, List.length_cons] at hindex
        rw [List.drop_succ_cons, ih (by rw [strlen]; omega), hcons, List.drop_succ_cons]

theorem nul_mem_drop {index : ℕ} (hnul : (0 : UInt8) ∈ block) (hindex : index ≤ strlen block) :
    (0 : UInt8) ∈ block.drop index := by
  obtain ⟨rest, hrest⟩ := eq_cstr_append_nul hnul
  rw [hrest, List.drop_append_of_le_length hindex]
  simp

theorem strlen_lt_length (hnul : (0 : UInt8) ∈ block) : strlen block < block.length := by
  obtain ⟨rest, hrest⟩ := eq_cstr_append_nul hnul
  have hlength := congrArg List.length hrest
  rw [List.length_append, List.length_cons] at hlength
  rw [strlen]
  omega

theorem strlen_drop {index : ℕ} (hindex : index ≤ strlen block) :
    strlen (block.drop index) = strlen block - index := by
  rw [strlen, cstr_drop hindex, List.length_drop, strlen]

end Strings

section Stores

variable {block : Block} {bytes text : List UInt8} {index : ℕ}

/-- A store grows the block exactly when it runs past its end. -/
theorem length_store (hindex : index ≤ block.length) :
    (store block index bytes).length = max block.length (index + bytes.length) := by
  simp only [store, List.length_append, List.length_take, List.length_drop]
  omega

theorem store_zero (block : Block) (bytes : List UInt8) :
    store block 0 bytes = bytes ++ block.drop bytes.length := by
  simp [store]

/-- A store leaves what stands before it, and its bytes behind that. -/
theorem take_store (bytes : List UInt8) (hindex : index ≤ block.length) :
    (store block index bytes).take (index + bytes.length) = block.take index ++ bytes := by
  have hlength : (block.take index ++ bytes).length = index + bytes.length := by
    rw [List.length_append, List.length_take_of_le hindex]
  rw [store, List.take_left' hlength]

theorem mem_store {c : UInt8} (hc : c ∈ bytes) : c ∈ store block index bytes := by
  simp [store, hc]

/-- A store at the front that brings a NUL decides the string. -/
theorem cstr_store_zero (hnul : (0 : UInt8) ∈ bytes) : cstr (store block 0 bytes) = cstr bytes := by
  rw [store_zero]
  exact cstr_append_of_mem hnul

/-- A NUL stored inside the string cuts it. -/
theorem cstr_store_nul (hindex : index ≤ strlen block) :
    cstr (store block index [0]) = (cstr block).take index := by
  have htake : block.take index = (cstr block).take index := by
    rw [← take_strlen block, List.take_take, Nat.min_eq_left hindex]
  rw [store, htake, List.append_assoc]
  exact cstr_append_nul fun h => nul_notMem_cstr block (List.mem_of_mem_take h)

/-- A NUL stored behind a text cuts the block there. -/
theorem cstr_store_nul_of_take (hfree : (0 : UInt8) ∉ text) (htake : block.take index = text) :
    cstr (store block index [0]) = text := by
  rw [store, htake, List.append_assoc]
  exact cstr_append_nul hfree

/-- A store behind an index does not touch the bytes before it. -/
theorem drop_store {start : ℕ} (hstart : start ≤ index) (hindex : index ≤ block.length) :
    (store block index bytes).drop start = store (block.drop start) (index - start) bytes := by
  have hlength : (block.take index).length = index := List.length_take_of_le hindex
  rw [store, store, List.append_assoc, List.append_assoc, List.drop_append_of_le_length (by omega),
    List.drop_take, List.drop_drop]
  congr 3
  omega

theorem drop_store_of_length (bytes : List UInt8) (hindex : index ≤ block.length) :
    (store block index bytes).drop (index + bytes.length) = block.drop (index + bytes.length) := by
  have hlength : (block.take index ++ bytes).length = index + bytes.length := by
    rw [List.length_append, List.length_take_of_le hindex]
  rw [store, List.drop_left' hlength]

/-- A text and a NUL stored where the string ends extend it by the text. -/
theorem cstr_store_strlen (hfree : (0 : UInt8) ∉ text) :
    cstr (store block (strlen block) (text ++ [0])) = cstr block ++ text := by
  rw [store, take_strlen]
  -- the text starts where the old NUL was
  have hassoc : cstr block ++ (text ++ [0]) ++ block.drop (strlen block + (text ++ [0]).length) =
      (cstr block ++ text) ++ 0 :: block.drop (strlen block + (text ++ [0]).length) := by
    simp
  rw [hassoc]
  refine cstr_append_nul fun h => ?_
  rcases List.mem_append.mp h with hblock | htext
  · exact nul_notMem_cstr block hblock
  · exact hfree htext

end Stores

/-! ## The C library -/

/-- Fill the first bytes of a block. -/
def memset (block : Block) (value : UInt8) (count : ℕ) : Block :=
  store block 0 (List.replicate count value)

/-- Copy the first bytes of a source to the front of a block. -/
def memcpy (block source : Block) (count : ℕ) : Block := store block 0 (source.take count)

/-- Move bytes inside one block to its front, from an index on. -/
def memmove (block : Block) (index count : ℕ) : Block := store block 0 ((block.drop index).take count)

/-- Copy a string with its NUL to the front of a block. -/
def strcpy (block source : Block) : Block := store block 0 (cstr source ++ [0])

/-- Copy at most `count` bytes of a string, and NULs up to `count`. -/
def strncpy (block source : Block) (count : ℕ) : Block :=
  store block 0 ((cstr source).take count ++ List.replicate (count - strlen source) 0)

/-- Append at most `count` bytes of a string, and a NUL. -/
def strncat (block source : Block) (count : ℕ) : Block :=
  store block (strlen block) ((cstr source).take count ++ [0])

/-- Append a string with its NUL. -/
def strcat (block source : Block) : Block := store block (strlen block) (cstr source ++ [0])

/-- The index of the first occurrence of a character in the string. -/
def strchr (block : Block) (c : UInt8) : Option ℕ := (cstr block).idxOf? c

/-- What a call of `strtok` leaves: the block with the delimiter behind the token
overwritten, where the token starts, and where the next call goes on. -/
structure Token where
  block : Block
  start : ℕ
  next : ℕ

/-- `strtok` with one delimiter, from the place where the last call stopped. -/
def strtok (delimiter : UInt8) (block : Block) (index : ℕ) : Option Token :=
  let text := cstr (block.drop index)
  let start := (text.takeWhile (· == delimiter)).length
  let length := ((text.drop start).takeWhile (· != delimiter)).length
  if length = 0 then none
  else if start + length < text.length then
    some ⟨store block (index + start + length) [0], index + start, index + start + length + 1⟩
  else some ⟨block, index + start, index + start + length⟩

section Library

variable {block source : Block} {count : ℕ}

theorem cstr_memset_nul (hcount : 0 < count) : cstr (memset block 0 count) = [] := by
  obtain ⟨count, rfl⟩ := Nat.exists_eq_succ_of_ne_zero hcount.ne'
  rw [memset, cstr_store_zero (by simp), List.replicate_succ]
  simp [cstr]

/-- Copying `strlen + 1` bytes copies the string. -/
theorem cstr_memcpy_strlen (hnul : (0 : UInt8) ∈ source) :
    cstr (memcpy block source (strlen source + 1)) = cstr source := by
  rw [memcpy, take_strlen_succ hnul, cstr_store_zero (by simp)]
  exact cstr_append_nul (nul_notMem_cstr source)

@[simp] theorem cstr_strcpy (block source : Block) : cstr (strcpy block source) = cstr source := by
  rw [strcpy, cstr_store_zero (by simp)]
  exact cstr_append_nul (nul_notMem_cstr source)

@[simp] theorem cstr_strncat (block source : Block) (count : ℕ) :
    cstr (strncat block source count) = cstr block ++ (cstr source).take count :=
  cstr_store_strlen fun h => nul_notMem_cstr source (List.mem_of_mem_take h)

@[simp] theorem cstr_strcat (block source : Block) :
    cstr (strcat block source) = cstr block ++ cstr source :=
  cstr_store_strlen (nul_notMem_cstr source)

theorem strchr_eq_none_iff {c : UInt8} : strchr block c = none ↔ c ∉ cstr block := by
  rw [strchr, List.idxOf?_eq_none_iff]

/-- A found character splits the string at its first occurrence. -/
theorem eq_append_of_strchr {c : UInt8} {index : ℕ} (hfound : strchr block c = some index) :
    ∃ text rest, cstr block = text ++ c :: rest ∧ c ∉ text ∧ text.length = index := by
  rw [strchr] at hfound
  generalize cstr block = string at hfound
  induction string generalizing index with
  | nil => simp at hfound
  | cons d string ih =>
    by_cases hd : d = c
    · refine ⟨[], string, by simp [hd], by simp, ?_⟩
      simpa [List.idxOf?_cons, hd] using hfound
    · rw [List.idxOf?_cons] at hfound
      simp only [beq_iff_eq, hd, if_false, Option.map_eq_some_iff] at hfound
      obtain ⟨index, hindex, rfl⟩ := hfound
      obtain ⟨text, rest, rfl, htext, rfl⟩ := ih hindex
      exact ⟨d :: text, rest, rfl, by simp [htext, Ne.symm hd], rfl⟩

theorem strchr_of_append {c : UInt8} {text rest : List UInt8}
    (hstring : cstr block = text ++ c :: rest)
    (htext : c ∉ text) : strchr block c = some text.length := by
  rw [strchr, hstring]
  clear hstring
  induction text with
  | nil => simp [List.idxOf?_cons]
  | cons d text ih =>
    have hd : d ≠ c := fun h => htext (by simp [h])
    have hmore : c ∉ text := fun h => htext (by simp [h])
    simp [List.idxOf?_cons, hd, ih hmore]

/-- Moving a string to the front moves it whole when its NUL is moved too. -/
theorem cstr_memmove {index : ℕ} (hnul : (0 : UInt8) ∈ block.drop index)
    (hcount : strlen (block.drop index) < count) :
    cstr (memmove block index count) = cstr (block.drop index) := by
  obtain ⟨more, rfl⟩ := Nat.exists_eq_add_of_lt hcount
  rw [memmove, Nat.add_right_comm, List.take_add, take_strlen_succ hnul,
    cstr_store_zero (by simp), List.append_assoc]
  exact cstr_append_nul (nul_notMem_cstr _)

/-- `strncpy` copies the start of the string as far as it is asked to. -/
theorem take_strncpy {index : ℕ} (hindex : index ≤ count) (hinside : index ≤ strlen source) :
    (strncpy block source count).take index = (cstr source).take index := by
  have hcopied : index ≤ ((cstr source).take count).length := by
    rw [List.length_take]
    exact Nat.le_min.mpr ⟨hindex, hinside⟩
  rw [strncpy, store_zero, List.append_assoc, List.take_append_of_le_length hcopied,
    List.take_take, Nat.min_eq_left hindex]

/-- What `memmove` moved stands at the front. -/
theorem take_memmove {index : ℕ} (hcount : count ≤ (block.drop index).length) :
    (memmove block index count).take count = (block.drop index).take count := by
  rw [memmove, store_zero, List.take_left' (List.length_take_of_le hcount)]

theorem nul_mem_memmove {index : ℕ} (hnul : (0 : UInt8) ∈ block.drop index)
    (hcount : strlen (block.drop index) < count) : (0 : UInt8) ∈ memmove block index count := by
  obtain ⟨more, rfl⟩ := Nat.exists_eq_add_of_lt hcount
  refine mem_store ?_
  rw [Nat.add_right_comm, List.take_add, take_strlen_succ hnul]
  simp

/-! How far the operations of the library write. -/

@[simp] theorem length_memset (block : Block) (value : UInt8) (count : ℕ) :
    (memset block value count).length = max block.length count := by
  rw [memset, length_store (Nat.zero_le _), List.length_replicate, Nat.zero_add]

@[simp] theorem length_strcpy (block source : Block) :
    (strcpy block source).length = max block.length (strlen source + 1) := by
  rw [strcpy, length_store (Nat.zero_le _), List.length_append, List.length_singleton,
    Nat.zero_add, strlen]

@[simp] theorem length_strcat (block source : Block) :
    (strcat block source).length = max block.length (strlen block + strlen source + 1) := by
  rw [strcat, length_store (strlen_le_length block), List.length_append, List.length_singleton,
    ← Nat.add_assoc, strlen, strlen]

@[simp] theorem length_strncat (block source : Block) (count : ℕ) :
    (strncat block source count).length =
      max block.length (strlen block + min count (strlen source) + 1) := by
  rw [strncat, length_store (strlen_le_length block), List.length_append, List.length_singleton,
    List.length_take, ← Nat.add_assoc, strlen, strlen]

theorem memmove_zero (hcount : count ≤ block.length) : memmove block 0 count = block := by
  rw [memmove, store_zero, List.drop_zero, List.length_take_of_le hcount, List.take_append_drop]

end Library

/-! ### Tokens -/

section Tokens

variable {block : Block} {delimiter : UInt8} {index : ℕ} {spaces token rest : List UInt8}

/-- Nothing but delimiters is left. -/
theorem strtok_of_blank (hblank : ∀ c ∈ cstr (block.drop index), c = delimiter) :
    strtok delimiter block index = none := by
  have hall : (cstr (block.drop index)).takeWhile (· == delimiter) = cstr (block.drop index) := by
    rw [List.takeWhile_eq_self_iff]
    simpa using hblank
  simp [strtok, hall]

/-- The next token is cut off at the delimiter behind it, if there is one. -/
theorem strtok_of_token (htext : cstr (block.drop index) = spaces ++ token ++ rest)
    (hspaces : ∀ c ∈ spaces, c = delimiter) (htoken : delimiter ∉ token) (hsome : token ≠ [])
    (hrest : ∀ c ∈ rest.head?, c = delimiter) :
    strtok delimiter block index = some
      (if rest = [] then ⟨block, index + spaces.length, index + spaces.length + token.length⟩
      else ⟨store block (index + spaces.length + token.length) [0], index + spaces.length,
        index + spaces.length + token.length + 1⟩) := by
  have hstart : (spaces ++ token ++ rest).takeWhile (· == delimiter) = spaces := by
    obtain ⟨c, token, rfl⟩ := List.exists_cons_of_ne_nil hsome
    have hc : c ≠ delimiter := fun h => htoken (by simp [h])
    rw [List.append_assoc, List.takeWhile_append_of_pos (by simpa using hspaces)]
    simp [hc]
  have hlength : (token ++ rest).takeWhile (· != delimiter) = token := by
    rw [List.takeWhile_append_of_pos]
    · cases rest with
      | nil => simp
      | cons c rest => simp [hrest c (by simp)]
    · intro c hc
      simpa using fun h : c = delimiter => htoken (h ▸ hc)
  -- the delimiter behind the token is overwritten only if there is one
  have hnonzero : token.length ≠ 0 := fun h => hsome (List.eq_nil_of_length_eq_zero h)
  have hdrop : (spaces ++ token ++ rest).drop spaces.length = token ++ rest := by
    rw [List.append_assoc, List.drop_left]
  simp only [strtok, htext, hstart, hdrop, hlength, if_neg hnonzero]
  cases rest with
  | nil => simp
  | cons c rest => simp

/-- The block a token is read from holds the token, and its NUL. -/
theorem cstr_drop_of_strtok (hnul : (0 : UInt8) ∈ block.drop index)
    (htext : cstr (block.drop index) = spaces ++ token ++ rest)
    (hspaces : ∀ c ∈ spaces, c = delimiter) (htoken : delimiter ∉ token) (hsome : token ≠ [])
    (hrest : ∀ c ∈ rest.head?, c = delimiter) :
    ∃ found, strtok delimiter block index = some found ∧
      cstr (found.block.drop found.start) = token ∧ (0 : UInt8) ∈ found.block.drop found.start := by
  have hlength : strlen (block.drop index) = spaces.length + token.length + rest.length := by
    rw [strlen, htext, List.length_append, List.length_append]
  have hskip : (block.drop index).drop spaces.length = block.drop (index + spaces.length) :=
    List.drop_drop
  have hstart : cstr (block.drop (index + spaces.length)) = token ++ rest := by
    rw [← hskip, cstr_drop (by omega), htext, List.append_assoc, List.drop_left]
  refine ⟨_, strtok_of_token htext hspaces htoken hsome hrest, ?_⟩
  split_ifs with hend
  · rw [hstart, hend, List.append_nil, ← hskip]
    exact ⟨rfl, nul_mem_drop hnul (by omega)⟩
  · have hinside : index + spaces.length + token.length ≤ block.length := by
      have := strlen_le_length (block.drop index)
      rw [List.length_drop] at this
      have : 0 < rest.length := List.length_pos_iff.mpr hend
      omega
    dsimp only
    rw [drop_store (by omega) hinside, Nat.add_sub_cancel_left]
    refine ⟨?_, mem_store (by simp)⟩
    rw [cstr_store_nul (by rw [strlen, hstart, List.length_append]; omega), hstart, List.take_left]

/-- A text splits at its first token, if it has one. -/
theorem exists_first_token {text : List UInt8} (hsome : ¬ ∀ c ∈ text, c = delimiter) :
    ∃ spaces token rest, text = spaces ++ token ++ rest ∧ (∀ c ∈ spaces, c = delimiter) ∧
      delimiter ∉ token ∧ token ≠ [] ∧ (∀ c ∈ rest.head?, c = delimiter) ∧
      token = (text.dropWhile (· == delimiter)).takeWhile (· != delimiter) ∧
      rest = (text.dropWhile (· == delimiter)).dropWhile (· != delimiter) := by
  refine ⟨text.takeWhile (· == delimiter), _, _, ?_, fun c hc => ?_, fun hmem => ?_,
    fun hnone => ?_, fun c hc => ?_, rfl, rfl⟩
  · rw [List.append_assoc, List.takeWhile_append_dropWhile, List.takeWhile_append_dropWhile]
  · simpa using List.mem_takeWhile_imp hc
  · simpa using List.mem_takeWhile_imp hmem
  · -- the byte behind the delimiters starts a token
    have hhead := List.head?_dropWhile_not (· == delimiter) text
    cases hlater : text.dropWhile (· == delimiter) with
    | nil => exact hsome (by simpa using hlater)
    | cons c later =>
      rw [hlater] at hhead hnone
      rw [List.takeWhile_cons_of_pos (by simpa using hhead)] at hnone
      cases hnone
  · have hhead := List.head?_dropWhile_not (· != delimiter) (text.dropWhile (· == delimiter))
    rw [Option.mem_def.mp hc] at hhead
    simpa using hhead

/-- There is no token exactly where there are only delimiters. -/
theorem strtok_eq_none_iff :
    strtok delimiter block index = none ↔ ∀ c ∈ cstr (block.drop index), c = delimiter := by
  refine ⟨fun hnone => ?_, strtok_of_blank⟩
  by_contra hsome
  obtain ⟨spaces, token, rest, htext, hspaces, htoken, hne, hrest, -⟩ := exists_first_token hsome
  rw [strtok_of_token htext hspaces htoken hne hrest] at hnone
  cases hnone

/-- A token starts where the search did or later, and the next search goes on behind it. -/
theorem start_lt_next_of_strtok {found : Token}
    (hfound : strtok delimiter block index = some found) :
    index ≤ found.start ∧ found.start < found.next := by
  simp only [strtok] at hfound
  split_ifs at hfound with hnone hinside
  all_goals
    obtain rfl := Option.some.inj hfound
    dsimp only
    omega

/-- The next search sees what follows the delimiter that was overwritten. -/
theorem cstr_drop_next_of_strtok (htext : cstr (block.drop index) = spaces ++ token ++ rest)
    (hspaces : ∀ c ∈ spaces, c = delimiter) (htoken : delimiter ∉ token) (hsome : token ≠ [])
    (hrest : ∀ c ∈ rest.head?, c = delimiter) :
    ∃ found, strtok delimiter block index = some found ∧
      cstr (found.block.drop found.next) = rest.tail := by
  have hlength : strlen (block.drop index) = spaces.length + token.length + rest.length := by
    rw [strlen, htext, List.length_append, List.length_append]
  have hskip : ∀ n ≤ rest.length,
      cstr (block.drop (index + spaces.length + token.length + n)) = rest.drop n := by
    intro n hn
    rw [Nat.add_assoc, Nat.add_assoc, ← List.drop_drop, cstr_drop (by omega), htext,
      ← Nat.add_assoc, ← List.length_append, List.drop_length_add_append]
  refine ⟨_, strtok_of_token htext hspaces htoken hsome hrest, ?_⟩
  split_ifs with hend
  · have hnothing := hskip 0 (Nat.zero_le _)
    rw [hend] at hnothing ⊢
    exact hnothing
  · have hmore : 0 < rest.length := List.length_pos_iff.mpr hend
    have hinside : index + spaces.length + token.length ≤ block.length := by
      have := strlen_le_length (block.drop index)
      rw [List.length_drop] at this
      omega
    have hstored := drop_store_of_length [0] hinside
    rw [List.length_singleton] at hstored
    dsimp only
    rw [hstored, hskip 1 hmore, List.drop_one]

/-- The first token is no longer than the string. -/
theorem strlen_drop_of_strtok {found : Token} (hfound : strtok delimiter block 0 = some found) :
    strlen (found.block.drop found.start) ≤ strlen block := by
  simp only [strtok, List.drop_zero, Nat.zero_add] at hfound
  generalize hskip : ((cstr block).takeWhile (· == delimiter)).length = start at hfound
  generalize (((cstr block).drop start).takeWhile (· != delimiter)).length = length at hfound
  have hstart : start ≤ strlen block := by
    rw [← hskip, strlen]
    exact (List.takeWhile_prefix _).length_le
  split_ifs at hfound with hnone hinside
  · obtain rfl := Option.some.inj hfound
    have hcut : cstr (store block (start + length) [0]) = (cstr block).take (start + length) :=
      cstr_store_nul hinside.le
    have hlength : strlen (store block (start + length) [0]) = start + length := by
      rw [strlen, hcut, List.length_take, min_eq_left hinside.le]
    have hend : start + length < strlen block := hinside
    dsimp only
    rw [strlen_drop (by omega)]
    omega
  · obtain rfl := Option.some.inj hfound
    rw [strlen_drop hstart]
    exact Nat.sub_le _ _

end Tokens

end EasyForetell.Memory
