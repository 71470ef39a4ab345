import EasyForetell.Memory.Block
import EasyForetell.Theory.StringRewriting
import Mathlib.Data.List.DropRight

/-!
# String utilities (string_utils.c)

Trimming in place, the replacement of one occurrence in a bounded buffer, and
lists of strings that are filled from the front.

A local array starts as the empty block, so that its length tells how far the
function has written into it.

## Main results

* `cstr_strim`, `cstr_memmove_strim`: what trimming in place leaves
* `replaceString_spec`: what `replace_string` does to the string
* `replace_string_within_iff`: when it keeps to its bound
-/

namespace EasyForetell

open Memory Theory

/-- `isspace` in the C locale. -/
def isspace (c : UInt8) : Bool := c == 32 || (9 ≤ c.toNat && c.toNat ≤ 13)

/-- `skip_spaces`: the index of the first byte that is no whitespace. -/
def skipSpaces (str : Block) : ℕ := ((cstr str).takeWhile isspace).length

/-- `strim`: the block with the trailing whitespace cut off, and the index at
which the trimmed string starts. -/
def strim (str : Block) : Block × ℕ :=
  let start := skipSpaces str
  let text := cstr (str.drop start)
  if text.length = 0 then (str, start)
  else (store str (start + (text.rdropWhile isspace).length) [0], start)

/-- `strstr`: the index of the first occurrence of one string in another. -/
def strstr (haystack needle : Block) : Option ℕ := findSub (cstr needle) (cstr haystack)

/-- `replace_string`, with the value it returns. -/
def replaceString (str : Block) (strLength : ℕ) (original replacement : Block) : Block × ℤ :=
  match strstr str original with
  | none => (str, 0)
  | some found =>
    if found ≥ strLength then (str, -1)
    else
      let buffer := store (strncpy [] str found) found [0]
      -- `buffer` holds what stands before the occurrence, so the difference is 0
      if strlen buffer - found + strlen replacement + strlen (str.drop (found + strlen original)) ≥
          strLength then (str, -1)
      else
        let tail := cstr replacement ++ cstr (str.drop (found + strlen original))
        (strcpy str (store buffer found (tail ++ [0])), 1)

/-- The local array `buffer` of `replace_string`, as far as the function has written
into it when it returns. -/
def replaceBuffer (str : Block) (strLength : ℕ) (original replacement : Block) : Block :=
  match strstr str original with
  | none => []
  | some found =>
    if found ≥ strLength then []
    else
      let buffer := store (strncpy [] str found) found [0]
      if strlen buffer - found + strlen replacement + strlen (str.drop (found + strlen original)) ≥
          strLength then buffer
      else
        let tail := cstr replacement ++ cstr (str.drop (found + strlen original))
        store buffer found (tail ++ [0])

/-- `init_string_list`: NULL for an empty list, else an array of NULL pointers. -/
def initStringList (count : ℕ) : Option (List (Option Block)) :=
  if count < 1 then none else some (List.replicate count none)

/-- `dup_string`, when there is memory for it. -/
def dupString (str : Block) : Block := cstr str ++ [0]

/-! ### What strim does to the string -/

/-- A text without the whitespace around it. -/
def trim (text : List UInt8) : List UInt8 := (text.dropWhile isspace).rdropWhile isspace

/-- A text that neither starts nor ends with whitespace. -/
def Trimmed (text : List UInt8) : Prop :=
  (∀ c ∈ text.head?, isspace c = false) ∧ ∀ c ∈ text.getLast?, isspace c = false

instance (text : List UInt8) : Decidable (Trimmed text) :=
  decidable_of_iff (text.head?.all (!isspace ·) = true ∧ text.getLast?.all (!isspace ·) = true)
    (by simp [Trimmed, Option.all_eq_true])

section Trimming

variable {text : List UInt8} {str : Block}

theorem dropWhile_of_trimmed (htext : Trimmed text) : text.dropWhile isspace = text := by
  cases text with
  | nil => rfl
  | cons c text => simp [htext.1 c rfl]

theorem rdropWhile_of_trimmed (htext : Trimmed text) : text.rdropWhile isspace = text := by
  rw [List.rdropWhile_eq_self_iff]
  intro hne
  rw [htext.2 _ (List.getLast?_eq_getLast_of_ne_nil hne)]
  exact Bool.false_ne_true

theorem trim_of_trimmed (htext : Trimmed text) : trim text = text := by
  rw [trim, dropWhile_of_trimmed htext, rdropWhile_of_trimmed htext]

theorem trim_cons_of_space {c : UInt8} (hc : isspace c = true) (text : List UInt8) :
    trim (c :: text) = trim text := by
  rw [trim, List.dropWhile_cons_of_pos hc, trim]

theorem trim_eq_nil_iff : trim text = [] ↔ ∀ c ∈ text, isspace c = true := by
  rw [trim, List.rdropWhile_eq_nil_iff]
  constructor
  · intro hblank c hc
    rw [← List.takeWhile_append_dropWhile (p := isspace) (l := text)] at hc
    rcases List.mem_append.mp hc with hfront | hrest
    · exact List.mem_takeWhile_imp hfront
    · exact hblank c hrest
  · intro hblank c hc
    exact hblank c ((List.dropWhile_suffix isspace).mem hc)

/-- Trailing whitespace of a text is that of its second part, unless that is blank. -/
theorem rdropWhile_append (first second : List UInt8)
    [Decidable (∀ c ∈ second, isspace c = true)] :
    (first ++ second).rdropWhile isspace =
      if ∀ c ∈ second, isspace c = true then first.rdropWhile isspace
      else first ++ second.rdropWhile isspace := by
  have hblank : (second.reverse.dropWhile isspace).isEmpty ↔ ∀ c ∈ second, isspace c = true := by
    simp
  rw [List.rdropWhile, List.reverse_append, List.dropWhile_append]
  simp only [hblank]
  split_ifs
  · rfl
  · rw [List.reverse_append, List.reverse_reverse, List.rdropWhile]

/-- Whitespace around a text does not change what trimming leaves of it. -/
theorem trim_around {front back : List UInt8} (hfront : ∀ c ∈ front, isspace c = true)
    (hback : ∀ c ∈ back, isspace c = true) : trim (front ++ text ++ back) = trim text := by
  rw [trim, List.append_assoc, List.dropWhile_append_of_pos hfront, List.dropWhile_append]
  split_ifs with hblank
  · have hnothing : back.dropWhile isspace = [] := by simpa using hback
    rw [trim, List.isEmpty_iff.mp hblank, hnothing]
  · rw [rdropWhile_append, if_pos hback, trim]

theorem trim_rdropWhile (text : List UInt8) : trim (text.rdropWhile isspace) = trim text := by
  have hback : ∀ c ∈ text.rtakeWhile isspace, isspace c = true :=
    fun c hc => List.mem_rtakeWhile_imp hc
  have hsplit : text.rdropWhile isspace ++ text.rtakeWhile isspace = text :=
    List.rdropWhile_append_rtakeWhile
  have haround := @trim_around (text.rdropWhile isspace) [] _ (List.forall_mem_nil _) hback
  rw [List.nil_append, hsplit] at haround
  exact haround.symm

/-- The trimmed string stands behind the whitespace that was skipped. -/
theorem skipSpaces_add_length_trim_le (str : Block) :
    skipSpaces str + (trim (cstr str)).length ≤ strlen str := by
  have hsplit := congrArg List.length (List.takeWhile_append_dropWhile (p := isspace)
    (l := cstr str))
  have hkept := (List.rdropWhile_prefix isspace ((cstr str).dropWhile isspace)).length_le
  rw [List.length_append] at hsplit
  rw [skipSpaces, trim, strlen]
  omega

theorem cstr_drop_skipSpaces (str : Block) :
    cstr (str.drop (skipSpaces str)) = (cstr str).dropWhile isspace := by
  have hbound := skipSpaces_add_length_trim_le str
  rw [cstr_drop (by omega), skipSpaces, drop_length_takeWhile]

theorem strim_snd (str : Block) : (strim str).2 = skipSpaces str := by
  unfold strim
  dsimp only
  split_ifs <;> rfl

theorem length_le_strim (str : Block) : str.length ≤ (strim str).1.length := by
  have hbound := skipSpaces_add_length_trim_le str
  have htotal := strlen_le_length str
  unfold strim
  dsimp only
  rw [cstr_drop_skipSpaces, ← trim]
  split_ifs
  · exact Nat.le_refl _
  · rw [length_store (by omega)]
    exact Nat.le_max_left _ _

/-- The string that starts where `strim` says is the string trimmed. -/
theorem cstr_strim (hnul : (0 : UInt8) ∈ str) :
    cstr ((strim str).1.drop (strim str).2) = trim (cstr str) ∧
      (0 : UInt8) ∈ (strim str).1.drop (strim str).2 := by
  have hbound := skipSpaces_add_length_trim_le str
  have htext := cstr_drop_skipSpaces str
  have hskipped := nul_mem_drop hnul (show skipSpaces str ≤ strlen str by omega)
  rw [strim_snd]
  unfold strim
  dsimp only
  rw [htext]
  split_ifs with hempty
  · rw [List.length_eq_zero_iff] at hempty
    refine ⟨?_, hskipped⟩
    rw [htext, trim, hempty, List.rdropWhile_nil]
  · -- the NUL goes behind the last byte that is no whitespace
    have htotal := strlen_le_length str
    have hinside : (trim (cstr str)).length ≤ strlen (str.drop (skipSpaces str)) := by
      rw [strlen, htext]
      exact (List.rdropWhile_prefix isspace _).length_le
    rw [← trim, drop_store (Nat.le_add_right _ _) (by omega), Nat.add_sub_cancel_left]
    refine ⟨?_, mem_store (by simp)⟩
    rw [cstr_store_nul hinside, htext]
    exact (List.prefix_iff_eq_take.mp (List.rdropWhile_prefix isspace _)).symm

/-- Moving the trimmed string to the front leaves it there. -/
theorem cstr_memmove_strim (hnul : (0 : UInt8) ∈ str) :
    cstr (memmove (strim str).1 (strim str).2 (strlen str)) = trim (cstr str) ∧
      (0 : UInt8) ∈ memmove (strim str).1 (strim str).2 (strlen str) := by
  obtain ⟨htrim, hmoved⟩ := cstr_strim hnul
  cases hspaces : skipSpaces str with
  | zero =>
    -- the string is in place already
    have hcount : strlen str ≤ (strim str).1.length :=
      (strlen_le_length str).trans (length_le_strim str)
    rw [strim_snd, hspaces, List.drop_zero] at htrim hmoved
    rw [strim_snd, hspaces, memmove_zero hcount]
    exact ⟨htrim, hmoved⟩
  | succ spaces =>
    -- `job_length` counts the spaces too, so the NUL is moved along
    have hshorter : strlen ((strim str).1.drop (strim str).2) < strlen str := by
      have hbound := skipSpaces_add_length_trim_le str
      rw [strlen, htrim]
      omega
    exact ⟨(cstr_memmove hmoved hshorter).trans htrim, nul_mem_memmove hmoved hshorter⟩

end Trimming

/-! ### What replace_string does to the string -/

/-- The two length tests of `replace_string`: what stands before the occurrence,
and the replacement with what stands behind it. -/
def LengthTests (strLength : ℕ) (replacement before after : List UInt8) : Prop :=
  before.length < strLength ∧ replacement.length + after.length < strLength

instance (strLength : ℕ) (replacement before after : List UInt8) :
    Decidable (LengthTests strLength replacement before after) :=
  inferInstanceAs (Decidable (_ ∧ _))

/-- `replace_string` as the strings see it. -/
def replaceText (strLength : ℕ) (original replacement str : List UInt8) : Rewriting UInt8 :=
  rewriteFirst (LengthTests strLength replacement) original replacement str

section Replacing

variable {str original : Block} {before after : List UInt8}

/-- `found + strlen (original)` points to what stands behind the occurrence. -/
theorem cstr_drop_of_split (hsplit : cstr str = before ++ cstr original ++ after) :
    cstr (str.drop (before.length + strlen original)) = after := by
  have hlength : strlen str = before.length + strlen original + after.length := by
    rw [strlen, hsplit, List.length_append, List.length_append, strlen]
  rw [cstr_drop (by omega), hsplit]
  exact List.drop_left' (by rw [List.length_append, strlen])

/-- `buffer` after `strncpy` and the NUL holds what stands before the occurrence. -/
theorem strncpy_of_split (hsplit : cstr str = before ++ cstr original ++ after) :
    store (strncpy [] str before.length) before.length [0] = before ++ [0] ∧
      strlen (before ++ [0]) = before.length := by
  have hlength : strlen str = before.length + strlen original + after.length := by
    rw [strlen, hsplit, List.length_append, List.length_append, strlen]
  constructor
  · have htake : (cstr str).take before.length = before := by
      rw [hsplit, List.append_assoc, List.take_left' rfl]
    have hnone : before.length - strlen str = 0 := by omega
    simp [strncpy, store, htake, hnone]
  · rw [strlen, cstr_append_nul fun hmem => nul_notMem_cstr str (by simp [hsplit, hmem])]

/-- What `replace_string` computes at an occurrence, and leaves in its local array. -/
theorem replaceString_of_found (strLength : ℕ) (replacement : Block)
    (hfound : strstr str original = some before.length)
    (hsplit : cstr str = before ++ cstr original ++ after) :
    replaceString str strLength original replacement =
        (if LengthTests strLength (cstr replacement) before after then
          (strcpy str (before ++ cstr replacement ++ after ++ [0]), 1)
        else (str, -1)) ∧
      replaceBuffer str strLength original replacement =
        if LengthTests strLength (cstr replacement) before after then
          before ++ cstr replacement ++ after ++ [0]
        else if before.length < strLength then before ++ [0] else [] := by
  obtain ⟨hbuffer, hstrlen⟩ := strncpy_of_split hsplit
  have hafter := cstr_drop_of_split hsplit
  have htail : strlen (str.drop (before.length + strlen original)) = after.length := by
    rw [strlen, hafter]
  -- `sprintf` writes behind what stands before the occurrence
  have hwritten : store (before ++ [0]) before.length (cstr replacement ++ after ++ [0]) =
      before ++ cstr replacement ++ after ++ [0] := by
    simp [store]
    omega
  have htests : LengthTests strLength (cstr replacement) before after ↔
      before.length < strLength ∧ strlen replacement + after.length < strLength := Iff.rfl
  simp only [replaceString, replaceBuffer, hfound, hbuffer, hstrlen, htail, hafter, hwritten,
    Nat.sub_self, Nat.zero_add, htests]
  constructor <;> split_ifs <;> first | rfl | omega

/-- No NUL comes into the text by a replacement. -/
theorem nul_notMem_replaced (replacement : Block)
    (hsplit : cstr str = before ++ cstr original ++ after) :
    (0 : UInt8) ∉ before ++ cstr replacement ++ after := by
  intro hmem
  simp only [List.mem_append] at hmem
  rcases hmem with (hmem | hmem) | hmem
  · exact nul_notMem_cstr str (by simp [hsplit, hmem])
  · exact nul_notMem_cstr replacement hmem
  · exact nul_notMem_cstr str (by simp [hsplit, hmem])

/-- `replace_string` does to the string what `replaceText` says, and leaves the
block alone unless it returns 1. -/
theorem replaceString_spec (str : Block) (strLength : ℕ) (original replacement : Block) :
    match replaceText strLength (cstr original) (cstr replacement) (cstr str) with
    | .absent => replaceString str strLength original replacement = (str, 0)
    | .refused => replaceString str strLength original replacement = (str, -1)
    | .rewritten text => cstr (replaceString str strLength original replacement).1 = text ∧
        (replaceString str strLength original replacement).2 = 1 := by
  cases hfound : findSub (cstr original) (cstr str) with
  | none =>
    rw [replaceText, rewriteFirst_of_absent hfound]
    simp [replaceString, strstr, hfound]
  | some index =>
    obtain ⟨before, after, hsplit, rfl⟩ := findSub_eq_some hfound
    have hcase := (replaceString_of_found strLength replacement hfound hsplit).1
    have hfree := nul_notMem_replaced replacement hsplit
    rw [hsplit] at hfound
    rw [replaceText, hsplit, rewriteFirst_of_found hfound, hcase]
    split_ifs with htests
    · refine ⟨?_, rfl⟩
      rw [cstr_strcpy]
      exact cstr_append_nul hfree
    · rfl

end Replacing

/-! ### The bound of replace_string -/

/-- The first occurrence replaced, if the text that makes fits with its NUL. -/
def replaceWithin (strLength : ℕ) (original replacement str : List UInt8) : Rewriting UInt8 :=
  rewriteFirst (fun before after => (before ++ replacement ++ after).length + 1 ≤ strLength)
    original replacement str

/-- `replace_string` replaces the first occurrence if the text that makes fits, leaves
`str` alone otherwise, and writes neither `str` nor its local array beyond
`str_length`. -/
structure ReplacesWithin (str : Block) (strLength : ℕ) (original replacement : Block) : Prop where
  result : match replaceWithin strLength (cstr original) (cstr replacement) (cstr str) with
    | .absent => replaceString str strLength original replacement = (str, 0)
    | .refused => replaceString str strLength original replacement = (str, -1)
    | .rewritten text => cstr (replaceString str strLength original replacement).1 = text ∧
        (replaceString str strLength original replacement).2 = 1
  str_inside : (replaceString str strLength original replacement).1.length ≤ strLength
  buffer_inside : (replaceBuffer str strLength original replacement).length ≤ strLength

section Bound

variable {str original replacement : Block} {strLength : ℕ} {before after : List UInt8}

theorem replacesWithin_of_absent (hsize : str.length ≤ strLength)
    (habsent : findSub (cstr original) (cstr str) = none) :
    ReplacesWithin str strLength original replacement := by
  have hstring : replaceString str strLength original replacement = (str, 0) := by
    simp [replaceString, strstr, habsent]
  refine ⟨?_, by rwa [hstring], by simp [replaceBuffer, strstr, habsent]⟩
  rw [replaceWithin, rewriteFirst_of_absent habsent]
  exact hstring

/-- At an occurrence the tests leave out what stands before it, so they go wrong where
only that makes the text too long. -/
theorem replacesWithin_of_found (hsize : str.length ≤ strLength) (hnul : (0 : UInt8) ∈ str)
    (hfound : findSub (cstr original) (cstr str) = some before.length)
    (hsplit : cstr str = before ++ cstr original ++ after) :
    ReplacesWithin str strLength original replacement ↔
      (strlen replacement + after.length < strLength →
        before.length + strlen replacement + after.length < strLength) := by
  obtain ⟨hstring, hbuffer⟩ := replaceString_of_found strLength replacement hfound hsplit
  have hfree := nul_notMem_replaced replacement hsplit
  have hbefore : before.length < strLength := by
    obtain ⟨rest, hrest⟩ := eq_cstr_append_nul hnul
    have hlength := congrArg List.length hrest
    simp only [hsplit, List.length_append, List.length_cons] at hlength
    omega
  have hmade : (before ++ cstr replacement ++ after).length =
      before.length + strlen replacement + after.length := by
    rw [List.length_append, List.length_append, strlen]
  have hwithin : replaceWithin strLength (cstr original) (cstr replacement) (cstr str) =
      if (before ++ cstr replacement ++ after).length + 1 ≤ strLength then
        .rewritten (before ++ cstr replacement ++ after) else .refused := by
    rw [hsplit] at hfound
    rw [replaceWithin, hsplit, rewriteFirst_of_found hfound]
  by_cases htests : strlen replacement + after.length < strLength
  · -- both tests pass, and the whole text is written
    rw [if_pos ⟨hbefore, htests⟩] at hstring hbuffer
    have hwritten : strlen (before ++ cstr replacement ++ after ++ [0]) =
        before.length + strlen replacement + after.length := by
      rw [strlen, cstr_append_nul hfree, hmade]
    constructor
    · rintro ⟨-, hinside, -⟩ -
      rw [hstring, length_strcpy, hwritten] at hinside
      omega
    · intro hfits
      have hroom := hfits htests
      refine ⟨?_, ?_, ?_⟩
      · rw [hwithin, if_pos (by omega), hstring, cstr_strcpy, cstr_append_nul hfree]
        exact ⟨rfl, rfl⟩
      · rw [hstring, length_strcpy, hwritten]
        omega
      · rw [hbuffer, List.length_append, hmade, List.length_singleton]
        omega
  · -- the second test fails, rightly
    rw [if_neg fun h => htests h.2] at hstring hbuffer
    refine iff_of_true ⟨?_, by rwa [hstring], ?_⟩ fun h => absurd h htests
    · rw [hwithin, if_neg (by omega)]
      exact hstring
    · rw [hbuffer, if_pos hbefore, List.length_append, List.length_singleton]
      omega

end Bound

/-- `replace_string` keeps to its bound if and only if what stands before the first
occurrence is not what makes the text too long. -/
theorem replace_string_within_iff (str : Block) (strLength : ℕ) (original replacement : Block)
    (hsize : str.length ≤ strLength) (hnul : (0 : UInt8) ∈ str) :
    ReplacesWithin str strLength original replacement ↔
      ∀ before after, findSub (cstr original) (cstr str) = some before.length →
        cstr str = before ++ cstr original ++ after →
        strlen replacement + after.length < strLength →
          before.length + strlen replacement + after.length < strLength := by
  constructor
  · intro hwithin before after hfound hsplit
    exact (replacesWithin_of_found hsize hnul hfound hsplit).mp hwithin
  · intro hfits
    cases hfound : findSub (cstr original) (cstr str) with
    | none => exact replacesWithin_of_absent hsize hfound
    | some index =>
      obtain ⟨before, after, hsplit, rfl⟩ := findSub_eq_some hfound
      exact (replacesWithin_of_found hsize hnul hfound hsplit).mpr
        (hfits before after hfound hsplit)

/-- A replacement that fits. -/
theorem replace_string_within_room :
    ReplacesWithin (ascii "ab$" ++ List.replicate 5 0) 8 (ascii "$") (ascii "cd") := by
  refine (replace_string_within_iff _ 8 _ _ (by decide) (by decide)).mpr ?_
  intro before after hfound hsplit _
  -- the occurrence is at index 2 and nothing follows it
  have hbefore : before.length = 2 :=
    (Option.some.inj (hfound.symm.trans (by decide : _ = some 2)))
  have hlength := congrArg List.length hsplit
  simp only [List.length_append] at hlength
  have hstr : (cstr (ascii "ab$" ++ List.replicate 5 0)).length = 3 := by decide
  have horiginal : (cstr (ascii "$")).length = 1 := by decide
  have hreplacement : strlen (ascii "cd") = 2 := by decide
  omega

/-- Four bytes, and a reference replaced by five: the tests see five bytes, and ten are
written into eight. -/
theorem replace_string_overruns :
    ¬ ReplacesWithin (ascii "aaaa$" ++ List.replicate 3 0) 8 (ascii "$") (ascii "bbbbb") := by
  intro hwithin
  have hlength : (replaceString (ascii "aaaa$" ++ List.replicate 3 0) 8 (ascii "$")
      (ascii "bbbbb")).1.length = 10 := by decide
  have := hwithin.str_inside
  omega

end EasyForetell
