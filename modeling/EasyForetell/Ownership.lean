import EasyForetell.Packing
import EasyForetell.Theory.Heap

/-!
# The memory of the lists (string_utils.c, config_utils.c)

The list readers with their pointers. A list is an array of pointers to strings, the array and
every string allocated for themselves, and each of these allocations can fail. A reader that
returns a list leaves its memory to whoever destroys the list; one that returns NULL has to
have freed everything before.

The readers of `Packing` and `ConfigUtils` return the texts; here is where they stand. Messages
are left to these. A line that does not fit in the array in which it is built has no result here:
`sprintf`, `strcpy` and the substitution of a page do not look at the lengths.

## Main results

* `destroyStringList_eq_freeAll`: what is freed with a list
* `packRecords_delivers`: the loop of the readers
* `string_lists_owned`: the readers return the texts, own what they allocate and nothing else
-/

namespace EasyForetell

open Memory Theory

/-- The strings that a loop of `substitute_variables` makes all fit. -/
def replaceLoopFits (strLength : ℕ) (buffers : VariableBuffers) : ℕ → Block → Bool
  | 0, _ => true
  | calls + 1, str =>
    let result := replaceString str strLength buffers.nameBuffer buffers.variableBuffer
    if result.2 = 1 then
      strlen result.1 < strLength && replaceLoopFits strLength buffers calls result.1
    else true

/-- So do those of all its loops, over the slots from the current one on, and the lines that it
copies. -/
def substituteLoopFits (calls strLength : ℕ) : List (Option Block) → VariableBuffers → Block → Bool
  | some line :: lines, buffers, str =>
    let recovered := buffers.recover strLength line
    strlen line < strLength && replaceLoopFits strLength recovered calls str &&
      (replaceLoop strLength recovered calls str).all
        (substituteLoopFits calls strLength lines recovered)
  | _, _, _ => true

/-- A URL fits in `tmp`, and stays there while its variables are substituted. -/
def urlFits (calls : ℕ) (variableList : List (Option Block)) (variableCount : ℕ) (url : Block) :
    Bool :=
  strlen url < maxLineLength &&
    substituteLoopFits calls maxLineLength (variableList.take variableCount) ⟨[], []⟩
      (strcpy [] url)

/-- A line, if there is one, fits in `tmp`. -/
def LineFits (line : Option Block) : Prop := ∀ text ∈ line, text.length ≤ maxLineLength

/-- A pointer in the table of the actions: as `malloc` left it, NULL, or an address. -/
inductive Pointer
  | uninitialised
  | null
  | to (address : ℕ)

/-- What is allocated: a string, an array of strings, an action, or the table of the actions. -/
inductive Cell
  | string (text : Block)
  | list (slots : List (Option ℕ))
  | action (name : Block) (refreshList : Option ℕ) (count : ℕ)
  | table (slots : List Pointer)

/-- The memory of the daemon. -/
abbrev CHeap := Heap Cell

/-- What a list reader returns: the list or NULL, its `count` argument afterwards, and the
memory it leaves. -/
structure ReadList where
  list : Option ℕ
  count : ℕ
  heap : CHeap

namespace CHeap

/-- `init_string_list`; `allocated` tells whether `malloc` gets memory. -/
def initStringList (h : CHeap) (allocated : Bool) (count : ℕ) : Option ℕ × CHeap :=
  if count < 1 then (none, h)
  else if allocated then (some h.fresh, h.alloc (.list (List.replicate count none)))
  else (none, h)

/-- `dup_string`; `allocated` tells whether `malloc` gets memory. -/
def dupString (h : CHeap) (allocated : Bool) (str : Block) : Option ℕ × CHeap :=
  if allocated then (some h.fresh, h.alloc (.string (EasyForetell.dupString str))) else (none, h)

/-- The loop of `destroy_string_list`. It has no result where it reads behind the array. -/
def freeStrings : ℕ → List (Option ℕ) → CHeap → Option CHeap
  | 0, _, h => some h
  | _ + 1, [], _ => none
  | _ + 1, none :: _, h => some h
  | count + 1, some a :: slots, h => (h.free a).bind (freeStrings count slots)

/-- `destroy_string_list`. -/
def destroyStringList (h : CHeap) (list : Option ℕ) (count : ℕ) : Option CHeap :=
  match list with
  | none => some h
  | some a =>
    match h.cell a with
    | some (.list slots) => (freeStrings count slots h).bind fun h => h.free a
    | _ => none

/-- `list[idx] = string`. -/
def storeString (h : CHeap) (list : Option ℕ) (idx : ℕ) (string : Option ℕ) : Option CHeap :=
  match list with
  | none => none
  | some a =>
    match h.cell a with
    | some (.list slots) =>
      if idx < slots.length then h.write a (.list (slots.set idx string)) else none
    | _ => none

/-- The loop of the list readers, for the line of each record: no line when the record is
skipped, and no result when the line does not come out. -/
def packRecords {ρ : Type*} (line : ρ → Option (Option Block)) (allocates : ℕ → Bool)
    (list : Option ℕ) (count : ℕ) : ℕ → List ρ → ℕ → CHeap → Option (Option ℕ × CHeap)
  | _, [], _, h => some (list, h)
  | i, record :: records, idx, h =>
    (line record).bind fun
      | none => packRecords line allocates list count (i + 1) records idx h
      | some text =>
        let copy := dupString h (allocates i) text
        (storeString copy.2 list idx copy.1).bind fun h =>
          if copy.1.isSome then packRecords line allocates list count (i + 1) records (idx + 1) h
          else (destroyStringList h list count).map fun h => (none, h)

/-- Read a list, from `*count = config_setting_length (setting)` on. -/
def readRecords {ρ : Type*} (h : CHeap) (line : ρ → Option (Option Block)) (allocated : Bool)
    (allocates : ℕ → Bool) (records : List ρ) : Option ReadList :=
  let list := initStringList h allocated records.length
  (packRecords line allocates list.1 records.length 0 records 0 list.2).map fun packed =>
    ⟨packed.1, records.length, packed.2⟩

/-- The line of a record as it is built in `tmp`. -/
def builtLine (line : Option Block) : Option (Option Block) :=
  match line with
  | none => some none
  | some text => if text.length ≤ maxLineLength then some (some text) else none

/-- `read_memcached_servers`. -/
def readMemcachedServers (h : CHeap) (allocated : Bool) (allocates : ℕ → Bool)
    (setting : Option (List ServerSetting)) (serverCount : ℕ) : Option ReadList :=
  match setting with
  | none => some ⟨none, serverCount, h⟩
  | some records => readRecords h (fun record => builtLine record.line) allocated allocates records

/-- `read_variable_list`. -/
def readVariableList (h : CHeap) (allocated : Bool) (allocates : ℕ → Bool) (cfg : Config)
    (variableCount maximumCount : ℕ) : Option ReadList :=
  match cfg.cacheVariables with
  | none => some ⟨none, variableCount, h⟩
  | some records =>
    if records.length > maximumCount then some ⟨none, records.length, h⟩
    else readRecords h (fun record => builtLine record.line) allocated allocates records

/-- The copy of a page that `read_url_list` stores, its variables substituted. -/
def pageLine (calls : ℕ) (variableList : List (Option Block)) (variableCount : ℕ)
    (record : PageSetting) : Option (Option Block) :=
  match record.url with
  | none => some none
  | some url =>
    if urlFits calls variableList variableCount url then
      (substituteVariables calls (strcpy [] url) maxLineLength variableList variableCount).map some
    else none

/-- `read_url_list`, for the lines of the variables. -/
def readUrlList (h : CHeap) (calls : ℕ) (allocated : Bool) (allocates : ℕ → Bool) (cfg : Config)
    (urlCount maximumCount : ℕ) (variableList : List (Option Block)) (variableCount : ℕ) :
    Option ReadList :=
  match cfg.cachePages with
  | none => some ⟨none, urlCount, h⟩
  | some records =>
    if records.length > maximumCount then some ⟨none, records.length, h⟩
    else readRecords h (pageLine calls variableList variableCount) allocated allocates records

end CHeap

/-! ### The texts of a list -/

/-- The copy of a page that `read_url_list` stores, wherever it was built. -/
def pageText (calls : ℕ) (variableList : List (Option Block)) (variableCount : ℕ)
    (record : PageSetting) : Option (Option Block) :=
  match record.url with
  | none => some none
  | some url =>
    (substituteVariables calls (strcpy [] url) maxLineLength variableList variableCount).map some

/-- The texts that the readers pack, one after another, or NULL when memory for one runs out. -/
def packLines {ρ : Type*} (line : ρ → Option (Option Block)) (allocates : ℕ → Bool) :
    ℕ → List ρ → List Block → Option (Option (List Block))
  | _, [], done => some (some done)
  | i, record :: records, done =>
    (line record).bind fun
      | none => packLines line allocates (i + 1) records done
      | some text =>
        if allocates i then
          packLines line allocates (i + 1) records (done ++ [dupString text])
        else some none

section Texts

variable {ρ : Type*} {allocates : ℕ → Bool} {i count : ℕ} {packing : Packing} {done : List Block}

/-- The loop that `read_memcached_servers` and `read_variable_list` share packs these texts. -/
theorem packRecords_eq_packLines {line : ρ → Option Block} {skipped : ρ → LogMessage}
    {failure : LogMessage} {records : List ρ} (hslots : packing.slots = packed count done)
    (hidx : packing.idx = done.length) (hroom : done.length + records.length ≤ count) :
    some (packRecords line skipped failure allocates i records packing).1 =
      (packLines (fun record => some (line record)) allocates i records done).map
        (Option.map (packed count)) := by
  induction records generalizing i packing done with
  | nil => simp [packRecords, packLines, hslots]
  | cons record records ih =>
    rw [List.length_cons] at hroom
    cases hline : line record with
    | none =>
      simp only [packRecords, packLines, hline, Option.bind_some]
      exact ih hslots hidx (by omega)
    | some text =>
      by_cases hmemory : allocates i = true
      · simp only [packRecords, packLines, hline, Option.bind_some, if_pos hmemory]
        refine ih (Packing.slots_pack text hslots hidx (by omega)) ?_ ?_
        · simp [Packing.pack, hidx]
        · rw [List.length_append, List.length_singleton]
          omega
      · simp [packRecords, packLines, hline, hmemory]

/-- So does the loop of `read_url_list`. -/
theorem packPages_eq_packLines {calls variableCount : ℕ} {variableList : List (Option Block)}
    {records : List PageSetting} (hslots : packing.slots = packed count done)
    (hidx : packing.idx = done.length) (hroom : done.length + records.length ≤ count) :
    (packPages calls allocates variableList variableCount i records packing).map Prod.fst =
      (packLines (pageText calls variableList variableCount) allocates i records done).map
        (Option.map (packed count)) := by
  induction records generalizing i packing done with
  | nil => simp [packPages, packLines, hslots]
  | cons record records ih =>
    rw [List.length_cons] at hroom
    cases hurl : record.url with
    | none =>
      simp only [packPages, packLines, pageText, hurl, Option.bind_some]
      exact ih hslots hidx (by omega)
    | some url =>
      simp only [packPages, packLines, pageText, hurl]
      cases substituteVariables calls (strcpy [] url) maxLineLength variableList variableCount with
      | none => rfl
      | some tmp =>
        by_cases hmemory : allocates i = true
        · simp only [Option.bind_some, Option.map_some, if_pos hmemory]
          refine ih (Packing.slots_pack tmp hslots hidx (by omega)) ?_ ?_
          · simp [Packing.pack, hidx]
          · rw [List.length_append, List.length_singleton]
            omega
        · simp [hmemory]

end Texts

/-! ### A list in the heap -/

/-- An array in the heap with these strings in its first slots, and nothing in the others. -/
structure ListAt (h : CHeap) (a size : ℕ) (strings : List ℕ) (texts : List Block) : Prop where
  array : h.cell a = some (.list (packed size strings))
  room : strings.length ≤ size
  texts : strings.map h.cell = texts.map fun text => some (.string text)
  nodup : strings.Nodup

namespace ListAt

variable {h h' h₀ : CHeap} {a size idx : ℕ} {strings : List ℕ} {texts : List Block}
  {owned : Set ℕ}

theorem exists_text (hlist : ListAt h a size strings texts) {b : ℕ} (hb : b ∈ strings) :
    ∃ text, h.cell b = some (.string text) := by
  have hmem := List.mem_map_of_mem (f := h.cell) hb
  rw [hlist.texts] at hmem
  obtain ⟨text, -, hcell⟩ := List.mem_map.mp hmem
  exact ⟨text, hcell.symm⟩

/-- A list consists of its array and of strings. -/
theorem cell_cases (hlist : ListAt h a size strings texts) {b : ℕ} (hb : b ∈ a :: strings) :
    (∃ slots, h.cell b = some (.list slots)) ∨ ∃ text, h.cell b = some (.string text) := by
  rcases List.mem_cons.mp hb with rfl | hmem
  · exact Or.inl ⟨_, hlist.array⟩
  · exact Or.inr (hlist.exists_text hmem)

/-- The array is none of its strings. -/
theorem nodup_cons (hlist : ListAt h a size strings texts) : (a :: strings).Nodup := by
  refine List.nodup_cons.mpr ⟨fun hmem => ?_, hlist.nodup⟩
  obtain ⟨text, hcell⟩ := hlist.exists_text hmem
  rw [hlist.array] at hcell
  cases hcell

/-- A list depends on its own cells only. -/
theorem frame (hlist : ListAt h a size strings texts)
    (hsame : ∀ b ∈ a :: strings, h'.cell b = h.cell b) : ListAt h' a size strings texts where
  array := (hsame a (by simp)).trans hlist.array
  room := hlist.room
  texts := by
    rw [← hlist.texts]
    exact List.map_congr_left fun b hb => hsame b (by simp [hb])
  nodup := hlist.nodup

/-- What is allocated later leaves a list alone. -/
theorem of_grown (hlist : ListAt h a size strings texts) (hgrown : Heap.Grown h h' owned) :
    ListAt h' a size strings texts := by
  refine hlist.frame fun b hb => hgrown.live_of_live ?_
  rcases hlist.cell_cases hb with ⟨slots, hcell⟩ | ⟨text, hcell⟩ <;> simp [hcell]

/-! ### Destroying it -/

/-- The loop frees what stands before the first NULL. -/
theorem freeStrings_packed (hroom : strings.length ≤ size) :
    CHeap.freeStrings size (packed size strings) h = h.freeAll strings := by
  induction strings generalizing size h with
  | nil => cases size <;> rfl
  | cons a strings ih =>
    obtain ⟨size, rfl⟩ : ∃ n, size = n + 1 := ⟨size - 1, by simp at hroom; omega⟩
    have hrest : packed (size + 1) (a :: strings) = some a :: packed size strings := by
      simp [packed]
    rw [hrest, CHeap.freeStrings, Heap.freeAll, List.foldlM_cons]
    exact congrArg (h.free a).bind (funext fun h => ih (by simpa using hroom))

/-- With a list its strings are freed, and then the array. -/
theorem destroyStringList_eq_freeAll (hlist : ListAt h a size strings texts) :
    CHeap.destroyStringList h (some a) size = h.freeAll (strings ++ [a]) := by
  simp only [CHeap.destroyStringList, hlist.array, freeStrings_packed hlist.room]
  rw [Heap.freeAll, Heap.freeAll, List.foldlM_append]
  simp

/-- Destroying a list frees what it consists of, and nothing else. -/
theorem exists_destroy (hlist : ListAt h a size strings texts) (hgrown : Heap.Grown h₀ h owned)
    (howned : ∀ b ∈ a :: strings, b ∈ owned) :
    ∃ h', CHeap.destroyStringList h (some a) size = some h' ∧
      Heap.Grown h₀ h' (owned \ {b | b ∈ a :: strings}) ∧
      ∀ b ∉ a :: strings, h'.cell b = h.cell b := by
  have hperm : (strings ++ [a]).Perm (a :: strings) := List.perm_append_singleton a strings
  obtain ⟨h', hfreed, hleft, hsame⟩ := hgrown.freeAll (hperm.nodup_iff.mpr hlist.nodup_cons)
    fun b hb => howned b (hperm.mem_iff.mp hb)
  simp only [hperm.mem_iff] at hleft
  refine ⟨h', hlist.destroyStringList_eq_freeAll.trans hfreed, hleft, fun b hb => hsame b ?_⟩
  rwa [hperm.mem_iff]

/-! ### Filling it -/

/-- A store into the first free slot. -/
theorem exists_store (hlist : ListAt h a size strings texts) (hgrown : Heap.Grown h₀ h owned)
    (ha : a ∈ owned) (hroom : strings.length < size) (string : Option ℕ) :
    ∃ h', CHeap.storeString h (some a) strings.length string = some h' ∧
      Heap.Grown h₀ h' owned ∧ h'.cell = Function.update h.cell a
        (some (.list ((packed size strings).set strings.length string))) := by
  obtain ⟨h', hwrite, hgrown', hcell⟩ :=
    hgrown.write ha (.list ((packed size strings).set strings.length string))
  refine ⟨h', ?_, hgrown', hcell⟩
  simp only [CHeap.storeString, hlist.array, length_packed hlist.room, if_pos hroom, hwrite]

/-- A line is packed. -/
theorem exists_pack (hlist : ListAt h a size strings texts)
    (hgrown : Heap.Grown h₀ h {b | b ∈ a :: strings}) (hroom : strings.length < size)
    (text : Block) :
    ∃ h', CHeap.storeString (h.alloc (.string text)) (some a) strings.length (some h.fresh) =
        some h' ∧
      ListAt h' a size (strings ++ [h.fresh]) (texts ++ [text]) ∧
      Heap.Grown h₀ h' {b | b ∈ a :: (strings ++ [h.fresh])} := by
  have halloc := Heap.Grown.alloc h (.string text)
  -- what is allocated is none of what is owned already
  have hnew : h.fresh ∉ a :: strings := by
    intro hmem
    refine hgrown.live h.fresh hmem (h.unused _ le_rfl)
  have howned : Heap.Grown h₀ (h.alloc (.string text)) {b | b ∈ a :: (strings ++ [h.fresh])} :=
    (hgrown.trans halloc).congr fun b => by
      simp only [Set.mem_union, Set.mem_singleton_iff, Set.mem_ofPred_eq, List.mem_cons,
        List.mem_append, List.not_mem_nil, or_false]
      tauto
  obtain ⟨h', hstore, hgrown', hcell⟩ := (hlist.of_grown halloc).exists_store
    howned (by simp) hroom (some h.fresh)
  have hkept : ∀ b ∈ strings, h'.cell b = h.cell b := by
    intro b hb
    have hne : b ≠ a := by
      rintro rfl
      exact (List.nodup_cons.mp hlist.nodup_cons).1 hb
    obtain ⟨text', hlive⟩ := hlist.exists_text hb
    rw [hcell, Function.update_of_ne hne, Heap.cell_alloc_of_live _ (by simp [hlive])]
  have hadded : h'.cell h.fresh = some (.string text) := by
    have hne : h.fresh ≠ a := fun hsame => hnew (by simp [hsame])
    rw [hcell, Function.update_of_ne hne, Heap.cell_alloc_self]
  refine ⟨h', hstore, ⟨?_, ?_, ?_, ?_⟩, hgrown'⟩
  · rw [hcell, Function.update_self, set_packed _ hroom]
  · rw [List.length_append, List.length_singleton]
    exact hroom
  · rw [List.map_append, List.map_append, List.map_congr_left hkept, hlist.texts]
    simp [hadded]
  · rw [List.nodup_append]
    refine ⟨hlist.nodup, by simp, fun b hb c hc => ?_⟩
    obtain rfl := List.mem_singleton.mp hc
    rintro rfl
    exact hnew (by simp [hb])

/-- A list is given up when memory for a line runs out. -/
theorem exists_giveUp (hlist : ListAt h a size strings texts)
    (hgrown : Heap.Grown h₀ h {b | b ∈ a :: strings}) (hroom : strings.length < size) :
    ∃ h', ((CHeap.storeString h (some a) strings.length none).bind fun h =>
      CHeap.destroyStringList h (some a) size) = some h' ∧ Heap.Grown h₀ h' ∅ := by
  obtain ⟨h', hstore, hgrown', hcell⟩ := hlist.exists_store hgrown (by simp) hroom none
  have hlist' : ListAt h' a size strings texts := by
    refine hlist.frame fun b _ => ?_
    rw [hcell, set_packed_none hroom, ← hlist.array, Function.update_eq_self]
  obtain ⟨h'', hdestroy, hleft, -⟩ := hlist'.exists_destroy hgrown' fun b hb => by simpa using hb
  refine ⟨h'', ?_, hleft.congr fun b => by simp⟩
  rw [hstore]
  exact hdestroy

end ListAt

/-! ### The readers -/

/-- What a reader leaves in a heap: a list of the texts, and nothing else that was not there
before; or, when there is no list, nothing at all. -/
def Delivers (h : CHeap) (size : ℕ) (texts : Option (List Block)) (list : Option ℕ)
    (h' : CHeap) : Prop :=
  match texts with
  | none => list = none ∧ Heap.Grown h h' ∅
  | some texts => ∃ a strings, list = some a ∧ ListAt h' a size strings texts ∧
      Heap.Grown h h' {b | b ∈ a :: strings}

section Readers

variable {ρ : Type*} {line : ρ → Option (Option Block)} {allocates : ℕ → Bool} {h h₀ : CHeap}
  {a i size : ℕ} {strings : List ℕ} {texts : List Block}

/-- The loop of the readers leaves the list of the lines it packs, when they come out. -/
theorem packRecords_delivers (i : ℕ) {records : List ρ} (hlist : ListAt h a size strings texts)
    (hgrown : Heap.Grown h₀ h {b | b ∈ a :: strings})
    (hroom : strings.length + records.length ≤ size) :
    match packLines line allocates i records texts with
    | none => CHeap.packRecords line allocates (some a) size i records strings.length h = none
    | some packed => ∃ list h',
        CHeap.packRecords line allocates (some a) size i records strings.length h =
          some (list, h') ∧ Delivers h₀ size packed list h' := by
  induction records generalizing i h strings texts with
  | nil => exact ⟨some a, h, rfl, a, strings, rfl, hlist, hgrown⟩
  | cons record records ih =>
    rw [List.length_cons] at hroom
    rw [packLines, CHeap.packRecords]
    cases line record with
    | none => rfl
    | some text =>
      cases text with
      -- a record that brings no line is skipped
      | none => exact ih (i + 1) hlist hgrown (by omega)
      | some text =>
        simp only [Option.bind_some, CHeap.dupString]
        by_cases hmemory : allocates i = true
        · obtain ⟨h', hstore, hlist', hgrown'⟩ :=
            hlist.exists_pack hgrown (by omega) (dupString text)
          simp only [if_pos hmemory, hstore, Option.bind_some, Option.isSome_some, if_true]
          have hnext := ih (i + 1) hlist' hgrown' (by
            rw [List.length_append, List.length_singleton]
            omega)
          rwa [List.length_append, List.length_singleton] at hnext
        · -- the list is given up, with what is packed so far
          obtain ⟨h', hgive, hleft⟩ := hlist.exists_giveUp hgrown (by omega)
          obtain ⟨emptied, hstore, hdestroy⟩ := Option.bind_eq_some_iff.mp hgive
          simp only [if_neg hmemory]
          exact ⟨none, h', by simp [hstore, hdestroy], rfl, hleft⟩

/-- A list as it is when nothing is packed yet. -/
theorem listAt_initStringList (h : CHeap) (size : ℕ) :
    ListAt (h.alloc (.list (List.replicate size none))) h.fresh size [] [] where
  array := Heap.cell_alloc_self h _
  room := Nat.zero_le _
  texts := rfl
  nodup := List.nodup_nil

/-- The readers, when there is memory for the array. -/
theorem readRecords_delivers (line : ρ → Option (Option Block)) (allocates : ℕ → Bool) (h : CHeap)
    {records : List ρ} (hsome : records ≠ []) :
    match packLines line allocates 0 records [] with
    | none => CHeap.readRecords h line true allocates records = none
    | some packed => ∃ r, CHeap.readRecords h line true allocates records = some r ∧
        r.count = records.length ∧ Delivers h records.length packed r.list r.heap := by
  have hcount : ¬ records.length < 1 := Nat.not_lt_of_le (List.length_pos_iff.mpr hsome)
  have hloop : match packLines line allocates 0 records [] with
      | none => CHeap.packRecords line allocates (some h.fresh) records.length 0 records 0
          (h.alloc (.list (List.replicate records.length none))) = none
      | some packed => ∃ list h', CHeap.packRecords line allocates (some h.fresh) records.length 0
          records 0 (h.alloc (.list (List.replicate records.length none))) = some (list, h') ∧
            Delivers h records.length packed list h' :=
    packRecords_delivers 0 (listAt_initStringList h records.length)
      (by simpa using Heap.Grown.alloc h _) (Nat.zero_add _).le
  simp only [CHeap.readRecords, CHeap.initStringList, if_neg hcount, if_true]
  cases hpacked : packLines line allocates 0 records [] with
  | none =>
    rw [hpacked] at hloop
    exact Option.map_eq_none_iff.mpr hloop
  | some packed =>
    rw [hpacked] at hloop
    obtain ⟨list, h', hrun, hdelivers⟩ := hloop
    exact ⟨⟨list, records.length, h'⟩, congrArg (Option.map _) hrun, rfl, hdelivers⟩

/-- Without an array the loop stores through NULL, unless there is no line. -/
theorem packRecords_null (count idx : ℕ) (records : List ρ) :
    CHeap.packRecords line allocates none count i records idx h =
      if ∀ record ∈ records, line record = some none then some (none, h) else none := by
  induction records generalizing i with
  | nil => rfl
  | cons record records ih =>
    rw [CHeap.packRecords]
    cases hline : line record with
    | none => simp [hline]
    | some text =>
      cases text with
      | none => simp [ih, hline]
      | some text => simp [CHeap.storeString, hline]

theorem readRecords_without_array (h : CHeap) (records : List ρ) :
    CHeap.readRecords h line false allocates records =
      if ∀ record ∈ records, line record = some none then some ⟨none, records.length, h⟩
      else none := by
  have hlist : CHeap.initStringList h false records.length = (none, h) := by
    simp [CHeap.initStringList]
  simp only [CHeap.readRecords, hlist, packRecords_null]
  split_ifs <;> rfl

/-- A reader with its pointers returns what the one without them returns. -/
structure Owns (h : CHeap) (value : StringList) (r : ReadList) : Prop where
  count_eq : r.count = value.count
  delivers : ∃ texts : Option (List Block), value.list = texts.map (packed r.count) ∧
    Delivers h r.count texts r.list r.heap

/-- No list, and nothing allocated. -/
theorem owns_null (h : CHeap) {value : StringList} (hlist : value.list = none) :
    Owns h value ⟨none, value.count, h⟩ :=
  ⟨rfl, none, hlist, rfl, .refl h⟩

theorem Owns.exists_grown {value : StringList} {r : ReadList} (howns : Owns h value r) :
    ∃ owned, Heap.Grown h r.heap owned := by
  obtain ⟨texts, -, hdelivers⟩ := howns.delivers
  cases texts with
  | none => exact ⟨_, hdelivers.2⟩
  | some texts =>
    obtain ⟨a, strings, -, -, hgrown⟩ := hdelivers
    exact ⟨_, hgrown⟩

/-- Whatever was allocated after it, a list can be destroyed, and then there is nothing left of
what its reader allocated. -/
theorem Owns.exists_destroy {value : StringList} {r : ReadList} (howns : Owns h value r)
    {later : CHeap} {more : Set ℕ} (hmore : Heap.Grown r.heap later more) :
    ∃ h', CHeap.destroyStringList later r.list r.count = some h' ∧ Heap.Grown h h' more := by
  obtain ⟨texts, -, hdelivers⟩ := howns.delivers
  cases texts with
  | none =>
    obtain ⟨hlist, hgrown⟩ := hdelivers
    rw [hlist]
    exact ⟨later, rfl, Set.empty_union more ▸ hgrown.trans hmore⟩
  | some texts =>
    obtain ⟨a, strings, hlist, hat, hgrown⟩ := hdelivers
    rw [hlist]
    obtain ⟨h', hdestroy, hleft, -⟩ := (hat.of_grown hmore).exists_destroy (hgrown.trans hmore)
      fun b hb => Or.inl hb
    refine ⟨h', hdestroy, hleft.congr fun b => ?_⟩
    constructor
    · rintro ⟨hmem | hmem, hnot⟩
      · exact absurd hmem hnot
      · exact hmem
    · exact fun hmem => ⟨Or.inr hmem, fun hother => hgrown.notMem_of_trans hmore hother hmem⟩

/-- What a reader with its pointers makes of what the one without them returns: the same, owned by
the list; and nothing where that one does not return. -/
def ReadsAlike (h : CHeap) (value : Option StringList) (read : Option ReadList) : Prop :=
  match value with
  | none => read = none
  | some value => ∃ r, read = some r ∧ Owns h value r

theorem ReadsAlike.exists_of_eq_some {value : Option StringList} {read : Option ReadList}
    (hreads : ReadsAlike h value read) {r : ReadList} (hread : read = some r) :
    ∃ v, value = some v ∧ Owns h v r := by
  cases value with
  | none => cases hread.symm.trans hreads
  | some v =>
    obtain ⟨r', hread', howns⟩ := hreads
    obtain rfl := Option.some.inj (hread'.symm.trans hread)
    exact ⟨v, rfl, howns⟩

/-- A list that is not read owns nothing. -/
theorem reads_null (h : CHeap) (count : ℕ) (logs : List LogMessage) :
    ReadsAlike h (some ⟨none, count, logs⟩) (some ⟨none, count, h⟩) := ⟨_, rfl, owns_null h rfl⟩

/-- Where every record is skipped nothing is packed. -/
theorem packLines_of_skipped {records : List ρ}
    (hskipped : ∀ record ∈ records, line record = some none) (i : ℕ) (done : List Block) :
    packLines line allocates i records done = some (some done) := by
  induction records generalizing i with
  | nil => rfl
  | cons record records ih =>
    obtain ⟨hfirst, hrest⟩ := List.forall_mem_cons.mp hskipped
    rw [packLines, hfirst]
    exact ih hrest (i + 1)

/-- With its pointers a reader does what it does without them, with memory for the array or not,
when its loops pack the same lines. -/
theorem readRecords_readsAlike {records : List ρ} {value : Option StringList}
    {texts : ρ → Option Block} (h : CHeap) (allocated : Bool)
    (hcount : ∀ v ∈ value, v.count = records.length)
    (hempty : records = [] → ∃ v ∈ value, v.list = none)
    (hpacked : records ≠ [] → value.map StringList.list =
      (packLines line allocates 0 records []).map (Option.map (packed records.length)))
    (hskipped : ∀ record, texts record = none ↔ line record = some none) :
    ReadsAlike h (withArray allocated records texts value)
      (CHeap.readRecords h line allocated allocates records) := by
  by_cases hsome : records = []
  · subst hsome
    obtain ⟨⟨list, count, logs⟩, rfl, hlist⟩ := hempty rfl
    obtain rfl : list = none := hlist
    obtain rfl : count = 0 := hcount _ rfl
    cases allocated <;> exact reads_null h 0 logs
  have hlist := hpacked hsome
  cases allocated with
  | true =>
    have hread := readRecords_delivers line allocates h hsome
    rw [withArray, if_pos rfl]
    cases hlines : packLines line allocates 0 records [] with
    | none =>
      rw [hlines] at hlist hread
      obtain rfl := Option.map_eq_none_iff.mp hlist
      exact hread
    | some lines =>
      rw [hlines] at hlist hread
      obtain ⟨v, rfl, hv⟩ := Option.map_eq_some_iff.mp hlist
      obtain ⟨r, hr, hrcount, hdelivers⟩ := hread
      rw [← hrcount] at hv hdelivers
      exact ⟨r, hr, hrcount.trans (hcount v rfl).symm, lines, hv, hdelivers⟩
  | false =>
    rw [withArray, if_neg Bool.false_ne_true, readRecords_without_array]
    by_cases hall : ∀ record ∈ records, line record = some none
    · -- every record is skipped, and the list stays NULL
      have htexts : (records.all fun record => (texts record).isNone) = true := by
        simpa [hskipped] using hall
      rw [packLines_of_skipped hall] at hlist
      obtain ⟨v, rfl, -⟩ := Option.map_eq_some_iff.mp hlist
      rw [if_pos hall, if_pos htexts, Option.map_some, hcount v rfl]
      exact reads_null h _ _
    · have htexts : ¬ (records.all fun record => (texts record).isNone) = true := by
        simpa [hskipped] using hall
      rw [if_neg hall, if_neg htexts]
      exact rfl

/-- A reader whose lines come out where those of another one do returns what that one returns. -/
theorem readRecords_mono {other : ρ → Option (Option Block)}
    (hline : ∀ record text, line record = some text → other record = some text) {h : CHeap}
    {allocated : Bool} {records : List ρ} {r : ReadList}
    (hread : CHeap.readRecords h line allocated allocates records = some r) :
    CHeap.readRecords h other allocated allocates records = some r := by
  have hloop : ∀ {list : Option ℕ} {count i idx : ℕ} {records : List ρ} {h : CHeap}
      {result : Option ℕ × CHeap},
      CHeap.packRecords line allocates list count i records idx h = some result →
        CHeap.packRecords other allocates list count i records idx h = some result := by
    intro list count i idx records h result hrun
    induction records generalizing i idx h with
    | nil => exact hrun
    | cons record records ih =>
      rw [CHeap.packRecords] at hrun ⊢
      obtain ⟨text, htext, hrun⟩ := Option.bind_eq_some_iff.mp hrun
      rw [hline record text htext, Option.bind_some]
      cases text with
      | none => exact ih hrun
      | some text =>
        obtain ⟨stored, hstore, hrun⟩ := Option.bind_eq_some_iff.mp hrun
        dsimp only at hrun ⊢
        rw [hstore, Option.bind_some]
        split_ifs at hrun ⊢ with hcopied
        · exact ih hrun
        · exact hrun
  obtain ⟨result, hrun, rfl⟩ := Option.map_eq_some_iff.mp hread
  exact Option.map_eq_some_iff.mpr ⟨result, hloop hrun, rfl⟩

/-- Readers whose lines are the same return the same. -/
theorem readRecords_congr {other : ρ → Option (Option Block)} (h : CHeap) (allocated : Bool)
    {records : List ρ} (hline : ∀ record ∈ records, line record = other record) :
    CHeap.readRecords h line allocated allocates records =
      CHeap.readRecords h other allocated allocates records := by
  have hloop : ∀ (list : Option ℕ) (count i idx : ℕ) (h : CHeap),
      CHeap.packRecords line allocates list count i records idx h =
        CHeap.packRecords other allocates list count i records idx h := by
    induction records with
    | nil => exact fun _ _ _ _ _ => rfl
    | cons record records ih =>
      obtain ⟨hfirst, hrest⟩ := List.forall_mem_cons.mp hline
      intro list count i idx h
      simp only [CHeap.packRecords, hfirst, ih hrest]
  rw [CHeap.readRecords, hloop]
  rfl

/-- A line that is built is the line of its record. -/
theorem eq_of_builtLine {line : Option Block} {text : Option Block}
    (hbuilt : CHeap.builtLine line = some text) : line = text := by
  cases line with
  | none => exact Option.some.inj hbuilt
  | some text' =>
    simp only [CHeap.builtLine, Option.ite_none_right_eq_some] at hbuilt
    exact Option.some.inj hbuilt.2

theorem LineFits.builtLine {line : Option Block} (hfits : LineFits line) :
    CHeap.builtLine line = some line := by
  cases line with
  | none => rfl
  | some text => exact if_pos (hfits text rfl)

theorem pageText_of_pageLine {calls variableCount : ℕ} {variableList : List (Option Block)}
    {record : PageSetting} {text : Option Block}
    (hline : CHeap.pageLine calls variableList variableCount record = some text) :
    pageText calls variableList variableCount record = some text := by
  cases hurl : record.url with
  | none => simpa only [CHeap.pageLine, pageText, hurl] using hline
  | some url =>
    simp only [CHeap.pageLine, hurl, Option.ite_none_right_eq_some] at hline
    simpa only [pageText, hurl] using hline.2

theorem pageLine_of_urlFits {calls variableCount : ℕ} {variableList : List (Option Block)}
    {record : PageSetting}
    (hfits : ∀ url ∈ record.url, urlFits calls variableList variableCount url) :
    CHeap.pageLine calls variableList variableCount record =
      pageText calls variableList variableCount record := by
  cases hurl : record.url with
  | none => simp only [CHeap.pageLine, pageText, hurl]
  | some url => simp only [CHeap.pageLine, pageText, hurl, hfits url hurl, if_true]

/-! ### The three readers -/

/-- The servers, wherever their lines are built. -/
theorem readMemcachedServers_reads_texts (h : CHeap) (allocated : Bool) (allocates : ℕ → Bool)
    (records : List ServerSetting) (serverCount : ℕ) :
    ReadsAlike h (readMemcachedServersIn allocated allocates (some records) serverCount)
      (CHeap.readRecords h (fun record => some record.line) allocated allocates records) := by
  rw [readMemcachedServersIn, Option.getD_some]
  refine readRecords_readsAlike h allocated ?_ ?_ (fun hsome => ?_) (by simp)
  · intro v hv
    obtain rfl := Option.some.inj hv
    simp only [readMemcachedServers]
    cases initStringList records.length <;> rfl
  · rintro rfl
    exact ⟨_, rfl, rfl⟩
  · simp only [readMemcachedServers, initStringList_of_ne_nil hsome, packServers_eq]
    exact packRecords_eq_packLines packed_nil.symm rfl (Nat.zero_add _).le

/-- The variables, wherever their lines are built. -/
theorem readVariableList_reads_texts (h : CHeap) (allocated : Bool) (allocates : ℕ → Bool)
    {cfg : Config} {records : List VariableSetting} (hcfg : cfg.cacheVariables = some records)
    (variableCount : ℕ) {maximumCount : ℕ} (hmaximum : ¬ records.length > maximumCount) :
    ReadsAlike h (readVariableListIn allocated allocates cfg variableCount maximumCount)
      (CHeap.readRecords h (fun record => some record.line) allocated allocates records) := by
  have hrecords : recordsRead cfg.cacheVariables maximumCount = records := by
    simp [recordsRead, hcfg, hmaximum]
  rw [readVariableListIn, hrecords]
  refine readRecords_readsAlike h allocated ?_ ?_ (fun hsome => ?_) (by simp)
  · intro v hv
    obtain rfl := Option.some.inj hv
    simp only [readVariableList, hcfg, if_neg hmaximum]
    cases initStringList records.length <;> rfl
  · rintro rfl
    exact ⟨_, rfl, by simp [readVariableList, hcfg, initStringList]⟩
  · simp only [readVariableList, hcfg, if_neg hmaximum, initStringList_of_ne_nil hsome,
      packVariables_eq]
    exact packRecords_eq_packLines packed_nil.symm rfl (Nat.zero_add _).le

/-- The pages, wherever they are built. -/
theorem readUrlList_reads_texts (h : CHeap) (calls : ℕ) (allocated : Bool) (allocates : ℕ → Bool)
    {cfg : Config} {records : List PageSetting} (hcfg : cfg.cachePages = some records)
    (urlCount : ℕ) {maximumCount : ℕ} (hmaximum : ¬ records.length > maximumCount)
    (variableList : List (Option Block)) (variableCount : ℕ) :
    ReadsAlike h (readUrlListIn calls allocated allocates cfg urlCount maximumCount variableList
        variableCount)
      (CHeap.readRecords h (pageText calls variableList variableCount) allocated allocates
        records) := by
  have hrecords : recordsRead cfg.cachePages maximumCount = records := by
    simp [recordsRead, hcfg, hmaximum]
  rw [readUrlListIn, hrecords]
  refine readRecords_readsAlike h allocated ?_ ?_ (fun hsome => ?_) fun record => ?_
  · intro v hv
    simp only [readUrlList, hcfg, if_neg hmaximum] at hv
    cases hlist : initStringList records.length with
    | none =>
      rw [hlist] at hv
      obtain rfl := Option.some.inj hv
      rfl
    | some slots =>
      rw [hlist] at hv
      obtain ⟨pages, -, rfl⟩ := Option.map_eq_some_iff.mp hv
      rfl
  · rintro rfl
    exact ⟨⟨none, 0, []⟩, by simp [readUrlList, hcfg, initStringList], rfl⟩
  · simp only [readUrlList, hcfg, if_neg hmaximum, initStringList_of_ne_nil hsome, Option.map_map]
    exact packPages_eq_packLines packed_nil.symm rfl (Nat.zero_add _).le
  · cases hurl : record.url <;> simp [pageText, hurl]

/-- More variables than there is room for are counted, and nothing is read. -/
theorem readVariableList_reads_many (h : CHeap) (allocated : Bool) (allocates : ℕ → Bool)
    {cfg : Config} {records : List VariableSetting} (hcfg : cfg.cacheVariables = some records)
    (variableCount : ℕ) {maximumCount : ℕ} (hmaximum : records.length > maximumCount) :
    ReadsAlike h (readVariableListIn allocated allocates cfg variableCount maximumCount)
      (some ⟨none, records.length, h⟩) := by
  simp only [readVariableListIn, readVariableList, recordsRead, hcfg, hmaximum, if_true,
    Option.getD_some]
  cases allocated <;> exact reads_null h _ _

/-- So it is with the pages. -/
theorem readUrlList_reads_many (h : CHeap) (calls : ℕ) (allocated : Bool) (allocates : ℕ → Bool)
    {cfg : Config} {records : List PageSetting} (hcfg : cfg.cachePages = some records)
    (urlCount : ℕ) {maximumCount : ℕ} (hmaximum : records.length > maximumCount)
    (variableList : List (Option Block)) (variableCount : ℕ) :
    ReadsAlike h (readUrlListIn calls allocated allocates cfg urlCount maximumCount variableList
        variableCount) (some ⟨none, records.length, h⟩) := by
  simp only [readUrlListIn, readUrlList, recordsRead, hcfg, hmaximum, if_true, Option.getD_some]
  cases allocated <;> exact reads_null h _ _

theorem readMemcachedServers_reads (h : CHeap) (allocated : Bool) (allocates : ℕ → Bool)
    {setting : Option (List ServerSetting)} (serverCount : ℕ)
    (hfits : ∀ records ∈ setting, ∀ record ∈ records, LineFits (ServerSetting.line record)) :
    ReadsAlike h (readMemcachedServersIn allocated allocates setting serverCount)
      (CHeap.readMemcachedServers h allocated allocates setting serverCount) := by
  cases setting with
  | none => cases allocated <;> exact reads_null h _ _
  | some records =>
    rw [CHeap.readMemcachedServers, readRecords_congr h allocated fun record hrecord =>
      (hfits records rfl record hrecord).builtLine]
    exact readMemcachedServers_reads_texts h allocated allocates records serverCount

theorem readVariableList_reads (h : CHeap) (allocated : Bool) (allocates : ℕ → Bool) {cfg : Config}
    (variableCount maximumCount : ℕ)
    (hfits : ∀ records ∈ cfg.cacheVariables, ∀ record ∈ records,
      LineFits (VariableSetting.line record)) :
    ReadsAlike h (readVariableListIn allocated allocates cfg variableCount maximumCount)
      (CHeap.readVariableList h allocated allocates cfg variableCount maximumCount) := by
  cases hcfg : cfg.cacheVariables with
  | none =>
    simp only [CHeap.readVariableList, readVariableListIn, readVariableList, recordsRead, hcfg]
    cases allocated <;> exact reads_null h _ _
  | some records =>
    by_cases hmaximum : records.length > maximumCount
    · simp only [CHeap.readVariableList, hcfg, if_pos hmaximum]
      exact readVariableList_reads_many h allocated allocates hcfg variableCount hmaximum
    · simp only [CHeap.readVariableList, hcfg, if_neg hmaximum]
      rw [readRecords_congr h allocated fun record hrecord =>
        (hfits records hcfg record hrecord).builtLine]
      exact readVariableList_reads_texts h allocated allocates hcfg variableCount hmaximum

theorem readUrlList_reads (h : CHeap) (calls : ℕ) (allocated : Bool) (allocates : ℕ → Bool)
    {cfg : Config} (urlCount maximumCount : ℕ) {variableList : List (Option Block)}
    {variableCount : ℕ}
    (hfits : ∀ records ∈ cfg.cachePages, ∀ record ∈ records, ∀ url ∈ PageSetting.url record,
      urlFits calls variableList variableCount url) :
    ReadsAlike h (readUrlListIn calls allocated allocates cfg urlCount maximumCount variableList
        variableCount)
      (CHeap.readUrlList h calls allocated allocates cfg urlCount maximumCount variableList
        variableCount) := by
  cases hcfg : cfg.cachePages with
  | none =>
    simp only [CHeap.readUrlList, readUrlListIn, readUrlList, recordsRead, hcfg]
    cases allocated <;> exact reads_null h _ _
  | some records =>
    by_cases hmaximum : records.length > maximumCount
    · simp only [CHeap.readUrlList, hcfg, if_pos hmaximum]
      exact readUrlList_reads_many h calls allocated allocates hcfg urlCount hmaximum variableList
        variableCount
    · simp only [CHeap.readUrlList, hcfg, if_neg hmaximum]
      rw [readRecords_congr h allocated fun record hrecord =>
        pageLine_of_urlFits (hfits records hcfg record hrecord)]
      exact readUrlList_reads_texts h calls allocated allocates hcfg urlCount hmaximum variableList
        variableCount

/-- A reader of the variables that returns returns what it does without the pointers. -/
theorem readVariableList_owned {allocated : Bool} {cfg : Config} {variableCount maximumCount : ℕ}
    {r : ReadList}
    (hread : CHeap.readVariableList h allocated allocates cfg variableCount maximumCount = some r) :
    ∃ value, readVariableListIn allocated allocates cfg variableCount maximumCount = some value ∧
      Owns h value r := by
  cases hcfg : cfg.cacheVariables with
  | none =>
    refine (readVariableList_reads h allocated allocates variableCount maximumCount ?_
      ).exists_of_eq_some hread
    simp [hcfg]
  | some records =>
    by_cases hmaximum : records.length > maximumCount
    · simp only [CHeap.readVariableList, hcfg, if_pos hmaximum] at hread
      exact (readVariableList_reads_many h allocated allocates hcfg variableCount hmaximum
        ).exists_of_eq_some hread
    · simp only [CHeap.readVariableList, hcfg, if_neg hmaximum] at hread
      refine (readVariableList_reads_texts h allocated allocates hcfg variableCount hmaximum
        ).exists_of_eq_some (readRecords_mono (fun record text hbuilt => ?_) hread)
      rw [eq_of_builtLine hbuilt]

/-- So does the reader of the pages. -/
theorem readUrlList_owned {allocated : Bool} {calls : ℕ} {cfg : Config}
    {urlCount maximumCount : ℕ} {variableList : List (Option Block)} {variableCount : ℕ}
    {r : ReadList}
    (hread : CHeap.readUrlList h calls allocated allocates cfg urlCount maximumCount variableList
      variableCount = some r) :
    ∃ value, readUrlListIn calls allocated allocates cfg urlCount maximumCount variableList
      variableCount = some value ∧ Owns h value r := by
  cases hcfg : cfg.cachePages with
  | none =>
    refine (readUrlList_reads h calls allocated allocates urlCount maximumCount ?_
      ).exists_of_eq_some hread
    simp [hcfg]
  | some records =>
    by_cases hmaximum : records.length > maximumCount
    · simp only [CHeap.readUrlList, hcfg, if_pos hmaximum] at hread
      exact (readUrlList_reads_many h calls allocated allocates hcfg urlCount hmaximum variableList
        variableCount).exists_of_eq_some hread
    · simp only [CHeap.readUrlList, hcfg, if_neg hmaximum] at hread
      exact (readUrlList_reads_texts h calls allocated allocates hcfg urlCount hmaximum variableList
        variableCount).exists_of_eq_some
          (readRecords_mono (fun record text => pageText_of_pageLine) hread)

end Readers

/-- Whichever allocations fail, each reader does with its pointers what it does without them, as
long as the lines fit in the arrays in which they are built: it returns the same list, allocated
anew, and when it returns NULL all it allocated is freed again. However the memory grew since,
`destroy_string_list` then frees what the reader allocated, once, and nothing else. Where the
array gets no memory a reader stores a line through NULL, if it has one. -/
theorem string_lists_owned (h : CHeap) (allocated : Bool) (allocates : ℕ → Bool) :
    (∀ setting serverCount,
      (∀ records ∈ setting, ∀ record ∈ records, LineFits (ServerSetting.line record)) →
      ReadsAlike h (readMemcachedServersIn allocated allocates setting serverCount)
        (CHeap.readMemcachedServers h allocated allocates setting serverCount)) ∧
    (∀ cfg variableCount maximumCount,
      (∀ records ∈ Config.cacheVariables cfg, ∀ record ∈ records,
        LineFits (VariableSetting.line record)) →
      ReadsAlike h (readVariableListIn allocated allocates cfg variableCount maximumCount)
        (CHeap.readVariableList h allocated allocates cfg variableCount maximumCount)) ∧
    (∀ calls cfg urlCount maximumCount variableList variableCount,
      (∀ records ∈ Config.cachePages cfg, ∀ record ∈ records, ∀ url ∈ PageSetting.url record,
        urlFits calls variableList variableCount url) →
      ReadsAlike h (readUrlListIn calls allocated allocates cfg urlCount maximumCount variableList
          variableCount)
        (CHeap.readUrlList h calls allocated allocates cfg urlCount maximumCount variableList
          variableCount)) ∧
    (∀ value r later more, Owns h value r → Heap.Grown r.heap later more →
      ∃ h', CHeap.destroyStringList later r.list r.count = some h' ∧ Heap.Grown h h' more) ∧
    (∀ records serverCount,
      (CHeap.readMemcachedServers h false allocates (some records) serverCount).isSome ↔
        ∀ record ∈ records, ServerSetting.line record = none) := by
  refine ⟨fun setting serverCount => readMemcachedServers_reads h allocated allocates serverCount,
    fun cfg => readVariableList_reads h allocated allocates,
    fun calls cfg urlCount maximumCount variableList variableCount =>
      readUrlList_reads h calls allocated allocates urlCount maximumCount,
    fun value r later more howns hmore => howns.exists_destroy hmore,
    fun records serverCount => ?_⟩
  have hbuilt : ∀ line, CHeap.builtLine line = some none ↔ line = none :=
    fun line => ⟨eq_of_builtLine, fun hnone => by rw [hnone, CHeap.builtLine]⟩
  simp only [CHeap.readMemcachedServers, readRecords_without_array, hbuilt]
  split_ifs with hnone
  · simpa using hnone
  · simpa using hnone

/-- The list of a server is freed with all that it holds. -/
theorem string_lists_owned_one_server :
    let setting := some [ServerSetting.mk (some (ascii "localhost")) (some 11211)]
    ∃ r h', CHeap.readMemcachedServers .empty true (fun _ => true) setting 0 = some r ∧
      r.count = 1 ∧ CHeap.destroyStringList r.heap r.list r.count = some h' ∧
      h'.cell = (Heap.empty : CHeap).cell := by
  intro setting
  obtain ⟨hservers, -, -, hdestroy, -⟩ := string_lists_owned .empty true fun _ => true
  have hfits : ∀ records ∈ setting, ∀ record ∈ records, LineFits (ServerSetting.line record) := by
    intro records hrecords record hrecord text htext
    obtain rfl := Option.some.inj hrecords
    obtain rfl := List.mem_singleton.mp hrecord
    obtain rfl := Option.some.inj htext
    decide
  have hreads : ReadsAlike .empty (some (readMemcachedServers (fun _ => true) setting 0))
      (CHeap.readMemcachedServers .empty true (fun _ => true) setting 0) := hservers setting 0 hfits
  obtain ⟨r, hread, howns⟩ := hreads
  obtain ⟨h', hfreed, hleft⟩ := hdestroy _ r r.heap ∅ howns (.refl _)
  exact ⟨r, h', hread, howns.count_eq, hfreed, hleft.cell_eq⟩

end EasyForetell
