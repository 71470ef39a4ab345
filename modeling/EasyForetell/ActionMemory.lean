import EasyForetell.ActionTable
import EasyForetell.Ownership

/-!
# The memory of the actions (action.c)

The table of the actions with its pointers. Each action is allocated for itself, and owns the
list of its pages; the list of its variables is destroyed again before `load_action` returns.
`destroy_actions` goes over the table up to the first NULL and takes with it what it meets.

Behind the table stands whatever is there: `behind` tells whether it reads as NULL, all along.
What is stored there otherwise damages the heap, and has no result.

## Main results

* `Entry.At.exists_free`: what is freed with an action
* `TableAt.exists_destroy`: what is freed with a table, and what is left
-/

namespace EasyForetell

open Memory Theory

namespace CHeap

/-- `create_actions`; `allocated` tells whether `malloc` gets memory. -/
def createActions (h : CHeap) (allocated : Bool) (fileCount : ℕ) : Option ℕ × CHeap :=
  if fileCount > 0 ∧ allocated = true then
    (some h.fresh, h.alloc (.table ((List.replicate fileCount .uninitialised).set 0 .null)))
  else (none, h)

/-- `create_action`; `allocated` tells whether `malloc` gets memory. -/
def createAction (h : CHeap) (allocated : Bool) (name : Block) : Option ℕ × CHeap :=
  if allocated then (some h.fresh, h.alloc (.action (strcpy [] name) none 0)) else (none, h)

/-- `actions[index] = pointer`. -/
def storeAction (h : CHeap) (actions index : ℕ) (pointer : Pointer) : Option CHeap :=
  match h.cell actions with
  | some (.table slots) =>
    if index < slots.length then h.write actions (.table (slots.set index pointer)) else none
  | _ => none

/-- `if (actions[index]) actions[index] = NULL`. Whatever a slot of the table holds, it is NULL
afterwards. -/
def clearAction (h : CHeap) (behind : Bool) (actions index : ℕ) : Option CHeap :=
  match h.cell actions with
  | some (.table slots) =>
    if index < slots.length then h.write actions (.table (slots.set index .null))
    else if behind then some h else none
  | _ => none

/-- What a slot of a list reads as, with a string behind its pointer. -/
def textAt (h : CHeap) : Option ℕ → Option (Option Block)
  | none => some none
  | some string =>
    match h.cell string with
    | some (.string text) => some (some text)
    | _ => none

/-- What a list reads as. -/
def textsAt (h : CHeap) (list : ℕ) : Option (List (Option Block)) :=
  match h.cell list with
  | some (.list slots) => slots.mapM (textAt h)
  | _ => none

/-- Give an action its pages. -/
def storePages (h : CHeap) (action : ℕ) (refreshList : Option ℕ) (count : ℕ) : Option CHeap :=
  match h.cell action with
  | some (.action name _ _) => h.write action (.action name refreshList count)
  | _ => none

/-- `load_action`, from `read_variable_list` on: the value returned and the memory. -/
def loadPages (h : CHeap) (calls : ℕ) (allocates : Allocations) (cfg : Config) (action : ℕ) :
    Option (ℤ × CHeap) :=
  (readVariableList h allocates.lineArray allocates.lines cfg 0 variableMaxCount).bind
    fun lines =>
      match lines.list with
      | none => some (0, lines.heap)
      | some list =>
        (textsAt lines.heap list).bind fun variableList =>
          (readUrlList lines.heap calls allocates.urlArray allocates.urls cfg 0 urlMaxCount
            variableList lines.count).bind fun urls =>
              (storePages urls.heap action urls.list urls.count).bind fun h =>
                (destroyStringList h lines.list lines.count).map fun h => (1, h)

/-- `load_action`. An action that gets no memory is read through NULL. -/
def loadAction (h : CHeap) (behind : Bool) (calls : ℕ) (allocates : Allocations) (actions : ℕ)
    (includeFile : IncludeFile) (index : ℕ) (version : Block) : Option (ℤ × CHeap) :=
  match (loadConfig includeFile).1 with
  | none => some (0, h)
  | some cfg =>
    if (checkVersion cfg version).1 = -1 then some (0, h)
    else
      match (readString cfg.cacheName "cache.name" argumentMaxLength).1 with
      | none => some (0, h)
      | some name =>
        let created := createAction h allocates.record name
        match created.1 with
        | none => none
        | some action =>
          (storeAction created.2 actions index (.to action)).bind fun h =>
            (clearAction h behind actions (index + 1)).bind fun h =>
              loadPages h calls allocates cfg action

/-- An action with its pages, as the loop of `destroy_actions` frees it. -/
def freeAction (h : CHeap) (action : ℕ) : Option CHeap :=
  match h.cell action with
  | some (.action _ refreshList count) =>
    (destroyStringList h refreshList count).bind fun h => h.free action
  | _ => none

/-- The loop of `destroy_actions`. It has no result where it follows a pointer that was never
written, or what stands behind the table. -/
def freeActions (behind : Bool) : List Pointer → CHeap → Option CHeap
  | [], h => if behind then some h else none
  | .uninitialised :: _, _ => none
  | .null :: _, h => some h
  | .to action :: slots, h => (freeAction h action).bind (freeActions behind slots)

/-- `destroy_actions`. -/
def destroyActions (h : CHeap) (behind : Bool) (actions : Option ℕ) : Option CHeap :=
  match actions with
  | none => some h
  | some table =>
    match h.cell table with
    | some (.table slots) => (freeActions behind slots h).bind fun h => h.free table
    | _ => none

/-- The loop of `main` over the include files, from an index on. -/
def loadFiles (behind : Bool) (calls : ℕ) (version : Block) (actions : ℕ) :
    List (IncludeFile × Allocations) → ℕ → CHeap → Option CHeap
  | [], _, h => some h
  | (includeFile, allocates) :: files, index, h =>
    (loadAction h behind calls allocates actions includeFile index version).bind fun result =>
      if result.1 = -1 then none
      else loadFiles behind calls version actions files (index + 1) result.2

/-- The table after `main` loaded the include files, and the memory; `allocated` tells whether
`malloc` gets memory for the table. -/
def loadTable (h : CHeap) (behind : Bool) (calls : ℕ) (allocated : Bool) (version : Block)
    (files : List (IncludeFile × Allocations)) : Option (ℕ × CHeap) :=
  let created := createActions h allocated files.length
  created.1.bind fun actions =>
    (loadFiles behind calls version actions files 0 created.2).map fun h => (actions, h)

end CHeap

/-- A list reads as its texts. -/
theorem textsAt_of_listAt {h : CHeap} {a size : ℕ} {strings : List ℕ} {texts : List Block}
    (hlist : ListAt h a size strings texts) : CHeap.textsAt h a = some (packed size texts) := by
  have htexts : (strings.map some).mapM (CHeap.textAt h) = some (texts.map some) := by
    have hcells := hlist.texts
    clear hlist
    induction strings generalizing texts with
    | nil =>
      obtain rfl : texts = [] := by simpa using hcells.symm
      rfl
    | cons string strings ih =>
      cases texts with
      | nil => cases hcells
      | cons text texts =>
        obtain ⟨hcell, hcells⟩ := List.cons.inj hcells
        simp [CHeap.textAt, hcell, ih hcells]
  have hfree : ∀ n, (List.replicate n none).mapM (CHeap.textAt h) =
      some (List.replicate n none) := by
    intro n
    induction n with
    | zero => rfl
    | succ n ih => simp [List.replicate_succ, CHeap.textAt, ih]
  have hlength : strings.length = texts.length := by
    simpa using congrArg List.length hlist.texts
  simp only [CHeap.textsAt, hlist.array]
  rw [packed, List.mapM_append, htexts, hfree, packed, hlength]
  rfl

/-! ### A table in the heap -/

/-- A slot of the table: its pointer, the slot it stands for, and what it owns. -/
structure Entry where
  pointer : Pointer
  slot : Slot
  owned : Set ℕ

namespace Entry

/-- The entry of a slot that holds NULL. -/
def null : Entry := ⟨.null, .null, ∅⟩

/-- The entry of a slot as `malloc` left it. -/
def uninitialised : Entry := ⟨.uninitialised, .uninitialised, ∅⟩

/-- The entry stands in the heap: an action without a list of pages owns its record, and one
with a list owns the list, too. -/
inductive At (h : CHeap) : Entry → Prop
  | null : At h null
  | uninitialised : At h uninitialised
  | bare {a : ℕ} {action : Action} (hlist : action.refreshList = none)
      (hcell : h.cell a = some (.action action.name none action.count)) :
      At h ⟨.to a, .action action, {a}⟩
  | pages {a l : ℕ} {strings : List ℕ} {texts : List Block} {action : Action}
      (hlist : action.refreshList = some (packed action.count texts))
      (hcell : h.cell a = some (.action action.name (some l) action.count))
      (hat : ListAt h l action.count strings texts) :
      At h ⟨.to a, .action action, {b | b ∈ a :: l :: strings}⟩

/-- A pointer to an action. -/
def IsAction (e : Entry) : Prop := ∃ a, e.pointer = .to a ∧ a ∈ e.owned

variable {h h' h₀ : CHeap} {e : Entry} {total : Set ℕ}

/-- An entry depends on what it owns only. -/
theorem At.frame (he : e.At h) (hsame : ∀ b ∈ e.owned, h'.cell b = h.cell b) : e.At h' := by
  cases he with
  | null => exact .null
  | uninitialised => exact .uninitialised
  | bare hlist hcell => exact .bare hlist ((hsame _ rfl).trans hcell)
  | pages hlist hcell hat =>
    refine .pages hlist ((hsame _ (by simp)).trans hcell) (hat.frame fun b hb => hsame b ?_)
    exact List.mem_cons_of_mem _ hb

/-- What an entry owns is allocated, and is no table. -/
theorem At.cell_ne (he : e.At h) {b : ℕ} (hb : b ∈ e.owned) :
    h.cell b ≠ none ∧ ∀ slots, h.cell b ≠ some (.table slots) := by
  cases he with
  | null | uninitialised => cases hb
  | bare hlist hcell =>
    obtain rfl := Set.mem_singleton_iff.mp hb
    simp [hcell]
  | pages hlist hcell hat =>
    rcases List.mem_cons.mp hb with rfl | hb
    · simp [hcell]
    · rcases hat.cell_cases hb with ⟨slots, hother⟩ | ⟨text, hother⟩ <;> simp [hother]

/-- An entry owns something exactly when it is an action. -/
theorem At.isAction_iff (he : e.At h) : e.IsAction ↔ e.owned.Nonempty := by
  refine ⟨fun ⟨a, _, ha⟩ => ⟨a, ha⟩, fun ⟨b, hb⟩ => ?_⟩
  cases he with
  | null | uninitialised => cases hb
  | bare => exact ⟨_, rfl, rfl⟩
  | pages => exact ⟨_, rfl, by simp⟩

/-- The loop of `destroy_actions` frees what an action owns, and nothing else. -/
theorem At.exists_free (he : e.At h) (hgrown : Heap.Grown h₀ h total) (hsub : e.owned ⊆ total)
    {a : ℕ} (ha : e.pointer = .to a) :
    ∃ h', CHeap.freeAction h a = some h' ∧ Heap.Grown h₀ h' (total \ e.owned) ∧
      ∀ b ∉ e.owned, h'.cell b = h.cell b := by
  cases he with
  | null | uninitialised => cases ha
  | @bare a action hlist hcell =>
    obtain rfl := Pointer.to.inj ha
    obtain ⟨h', hfree, hleft, hsame⟩ := hgrown.free (hsub rfl)
    refine ⟨h', ?_, hleft, fun b hb => hsame b hb⟩
    simpa only [CHeap.freeAction, hcell, CHeap.destroyStringList, Option.bind_some] using hfree
  | @pages a l strings texts action hlist hcell hat =>
    obtain rfl := Pointer.to.inj ha
    have hapart : a ∉ l :: strings := by
      intro hmem
      rcases hat.cell_cases hmem with ⟨slots, hother⟩ | ⟨text, hother⟩
      all_goals
        rw [hcell] at hother
        cases hother
    obtain ⟨emptied, hdestroy, hrest, hkept⟩ :=
      hat.exists_destroy hgrown fun b hb => hsub (List.mem_cons_of_mem _ hb)
    obtain ⟨h', hfree, hleft, hsame⟩ := hrest.free ⟨hsub (by simp), hapart⟩
    refine ⟨h', ?_, hleft.congr fun b => ?_, fun b hb => ?_⟩
    · simpa only [CHeap.freeAction, hcell, hdestroy, Option.bind_some] using hfree
    · simp only [Set.mem_sdiff, Set.mem_singleton_iff, Set.mem_ofPred_eq, List.mem_cons]
      tauto
    · have hb : b ≠ a ∧ b ∉ l :: strings := by simpa using hb
      rw [hsame b hb.1, hkept b hb.2]

end Entry

/-- A table in the heap `h` whose entries own what they consist of, each for itself. Together
with the table that is all that was allocated since `h₀`. -/
structure TableAt (h₀ h : CHeap) (t : ℕ) (entries : List Entry) : Prop where
  table : h.cell t = some (.table (entries.map Entry.pointer))
  stands : ∀ e ∈ entries, e.At h
  apart : entries.Pairwise fun e f => ∀ b ∈ e.owned, b ∉ f.owned
  grown : Heap.Grown h₀ h {b | b = t ∨ ∃ e ∈ entries, b ∈ e.owned}

section Destroy

variable {h h₀ : CHeap} {t : ℕ} {front back : List Entry} {total : Set ℕ} {behind : Bool}

/-- The loop frees the actions before the first NULL, which may stand behind the table. -/
theorem exists_freeActions (hfront : ∀ e ∈ front, e.IsAction)
    (hback : ∀ e ∈ back.head?, e = .null) (hbehind : back = [] → behind = true)
    (hstands : ∀ e ∈ front, e.At h)
    (hapart : front.Pairwise fun e f => ∀ b ∈ e.owned, b ∉ f.owned)
    (hgrown : Heap.Grown h₀ h total) (hsub : ∀ e ∈ front, e.owned ⊆ total) :
    ∃ h', CHeap.freeActions behind ((front ++ back).map Entry.pointer) h = some h' ∧
      Heap.Grown h₀ h' (total \ {b | ∃ e ∈ front, b ∈ e.owned}) ∧
      ∀ b, (∀ e ∈ front, b ∉ e.owned) → h'.cell b = h.cell b := by
  induction front generalizing h total with
  | nil =>
    refine ⟨h, ?_, hgrown.congr fun b => by simp, fun _ _ => rfl⟩
    cases back with
    | nil => exact if_pos (hbehind rfl)
    | cons e back =>
      obtain rfl := hback e rfl
      rfl
  | cons e front ih =>
    obtain ⟨hfirst, hrest⟩ := List.forall_mem_cons.mp hfront
    obtain ⟨hstand, hstands⟩ := List.forall_mem_cons.mp hstands
    obtain ⟨howned, hsub⟩ := List.forall_mem_cons.mp hsub
    obtain ⟨hnew, hapart⟩ := List.pairwise_cons.mp hapart
    obtain ⟨a, ha, -⟩ := hfirst
    obtain ⟨h₁, hfree, hgrown₁, hkept₁⟩ := hstand.exists_free hgrown howned ha
    -- the other entries are where they were
    have hother : ∀ f ∈ front, ∀ b ∈ f.owned, b ∉ e.owned :=
      fun f hf b hb hmem => hnew f hf b hmem hb
    obtain ⟨h', hloop, hleft, hkept⟩ := ih hrest
      (fun f hf => (hstands f hf).frame fun b hb => hkept₁ b (hother f hf b hb)) hapart hgrown₁
      fun f hf b hb => ⟨hsub f hf hb, hother f hf b hb⟩
    refine ⟨h', ?_, hleft.congr fun b => ?_, fun b hb => ?_⟩
    · rw [List.cons_append, List.map_cons, ha, CHeap.freeActions, hfree]
      exact hloop
    · simp only [Set.mem_sdiff, Set.mem_ofPred_eq, List.exists_mem_cons_iff, not_or]
      exact and_assoc
    · obtain ⟨hfirst, hlater⟩ := List.forall_mem_cons.mp hb
      rw [hkept b hlater, hkept₁ b hfirst]

/-- Destroying a table leaves what its entries behind the first NULL own. -/
theorem TableAt.exists_destroy (htable : TableAt h₀ h t (front ++ back))
    (hfront : ∀ e ∈ front, e.IsAction) (hback : ∀ e ∈ back.head?, e = .null)
    (hbehind : back = [] → behind = true) :
    ∃ h', CHeap.destroyActions h behind (some t) = some h' ∧
      Heap.Grown h₀ h' {b | ∃ e ∈ back, b ∈ e.owned} := by
  obtain ⟨hfirst, -, hcross⟩ := List.pairwise_append.mp htable.apart
  have hclear : ∀ e ∈ front ++ back, t ∉ e.owned :=
    fun e he hmem => ((htable.stands e he).cell_ne hmem).2 _ htable.table
  obtain ⟨emptied, hloop, hleft, -⟩ := exists_freeActions hfront hback hbehind
    (fun e he => htable.stands e (by simp [he])) hfirst htable.grown
    fun e he b hb => Or.inr ⟨e, by simp [he], hb⟩
  obtain ⟨h', hfree, hrest, -⟩ := hleft.free (a := t)
    ⟨Or.inl rfl, fun ⟨e, he, hmem⟩ => hclear e (by simp [he]) hmem⟩
  refine ⟨h', ?_, hrest.congr fun b => ?_⟩
  · simpa only [CHeap.destroyActions, htable.table, hloop, Option.bind_some] using hfree
  · constructor
    · rintro ⟨⟨rfl | ⟨e, he, hmem⟩, hnot⟩, hne⟩
      · exact absurd rfl hne
      · rcases List.mem_append.mp he with hf | hb
        · exact absurd ⟨e, hf, hmem⟩ hnot
        · exact ⟨e, hb, hmem⟩
    · rintro ⟨e, he, hmem⟩
      refine ⟨⟨Or.inr ⟨e, by simp [he], hmem⟩, ?_⟩, ?_⟩
      · rintro ⟨f, hf, hother⟩
        exact hcross f hf e he _ hother hmem
      · rintro rfl
        exact hclear e (by simp [he]) hmem

/-- Nothing is left of a table exactly when no action stands behind the first NULL. -/
theorem cell_eq_iff {h' : CHeap} (hstands : ∀ e ∈ back, e.At h)
    (hleft : Heap.Grown h₀ h' {b | ∃ e ∈ back, b ∈ e.owned}) :
    h'.cell = h₀.cell ↔ ∀ e ∈ back, ¬ e.IsAction := by
  constructor
  · intro hsame e he hactive
    obtain ⟨b, hb⟩ := (hstands e he).isAction_iff.mp hactive
    refine hleft.live b ⟨e, he, hb⟩ ?_
    rw [hsame]
    exact hleft.new b ⟨e, he, hb⟩
  · intro hnone
    refine (hleft.congr fun b => ?_).cell_eq
    refine iff_of_false ?_ (Set.notMem_empty b)
    rintro ⟨e, he, hb⟩
    exact hnone e he ((hstands e he).isAction_iff.mpr ⟨b, hb⟩)

end Destroy

end EasyForetell
