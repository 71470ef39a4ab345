import Mathlib.Data.List.Forall2
import EasyForetell.ActionMemory

/-!
# What the include files allocate (action.c, main)

A file that fails before it declares a name allocates nothing that stays, and every other one an
action. So far as no file fails early, the actions stand one behind another, and
`destroy_actions` comes to all of them. The last file looks behind the table when it declares a
name.

## Main results

* `loadAction_adds`: what a file allocates
* `TableAt.loadFiles`: what all of them do
* `actions_freed_iff`: when nothing is left of it
-/

namespace EasyForetell

open Memory Theory

/-! ### What a file allocates -/

section Load

variable {h h' h₀ : CHeap} {a : ℕ} {total : Set ℕ}

/-- The list that a reader returned, owned by an action. -/
theorem Owns.exists_entry {value : StringList} {r : ReadList} (howns : Owns h value r)
    (action : Action) (hlive : h.cell a ≠ none)
    (hlist : action.refreshList = value.list) (hcount : action.count = r.count)
    (hcell : h'.cell a = some (.action action.name r.list r.count))
    (hsame : ∀ b, h.cell b = none → r.heap.cell b ≠ none → h'.cell b = r.heap.cell b) :
    ∃ owned, a ∈ owned ∧ Entry.At h' ⟨.to a, .action action, owned⟩ ∧
      Heap.Grown h r.heap (owned \ {a}) := by
  obtain ⟨texts, htexts, hdelivers⟩ := howns.delivers
  cases texts with
  | none =>
    obtain ⟨hnull, hgrown⟩ := hdelivers
    refine ⟨{a}, rfl, .bare (hlist.trans htexts) ?_, hgrown.congr fun b => by simp⟩
    rw [hcell, hnull, hcount]
  | some texts =>
    obtain ⟨l, strings, hl, hat, hgrown⟩ := hdelivers
    have hapart : a ∉ l :: strings := fun hmem => hlive (hgrown.new a hmem)
    have hat' : ListAt h' l action.count strings texts := by
      rw [hcount]
      exact hat.frame fun b hb => hsame b (hgrown.new b hb) (hgrown.live b hb)
    refine ⟨{b | b ∈ a :: l :: strings}, by simp, .pages ?_ ?_ hat', hgrown.congr fun b => ?_⟩
    · rw [hlist, htexts, hcount]
      rfl
    · rw [hcell, hl, hcount]
    · have hne : b ∈ l :: strings → b ≠ a := by
        rintro hmem rfl
        exact hapart hmem
      simp only [Set.mem_sdiff, Set.mem_singleton_iff, Set.mem_ofPred_eq, List.mem_cons] at hne ⊢
      tauto

/-- What the readers make of an action without their pointers. -/
def PagesLoaded (calls : ℕ) (allocates : Allocations) (cfg : Config) (action : Action) (res : ℤ) :
    Prop :=
  ∃ lines, readVariableListIn allocates.lineArray allocates.lines cfg 0 variableMaxCount =
      some lines ∧
    match lines.list with
    | none => action.refreshList = none ∧ action.count = 0 ∧ res = 0
    | some variableList =>
      ∃ urls, readUrlListIn calls allocates.urlArray allocates.urls cfg 0 urlMaxCount variableList
          lines.count = some urls ∧
        action.refreshList = urls.list ∧ action.count = urls.count ∧ res = 1

/-- The pages are stored with their action, and the variables are destroyed. -/
theorem exists_storePages {lines urls : CHeap} {l size : ℕ} {strings : List ℕ} {texts : List Block}
    {new : Set ℕ} {name : Block} (hgrown : Heap.Grown h₀ h total) (ha : a ∈ total)
    (hcell : h.cell a = some (.action name none 0)) (hat : ListAt lines l size strings texts)
    (hlist : Heap.Grown h lines {b | b ∈ l :: strings}) (hgrew : Heap.Grown lines urls new)
    (refreshList : Option ℕ) (count : ℕ) :
    ∃ stored h', CHeap.storePages urls a refreshList count = some stored ∧
      CHeap.destroyStringList stored (some l) size = some h' ∧
      Heap.Grown h₀ h' ((total ∪ {b | b ∈ l :: strings} ∪ new) \ {b | b ∈ l :: strings}) ∧
      h'.cell a = some (.action name refreshList count) ∧
      ∀ b ∉ l :: strings, b ≠ a → h'.cell b = urls.cell b := by
  -- the record is as it was when the pages are stored
  have hlive : lines.cell a = some (.action name none 0) :=
    (hlist.live_of_live (by simp [hcell])).trans hcell
  have hrecord : urls.cell a = some (.action name none 0) :=
    (hgrew.live_of_live (by simp [hlive])).trans hlive
  have hapart : ∀ b ∈ l :: strings, b ≠ a := by
    rintro b hb rfl
    exact absurd (hlist.new b hb) (by simp [hcell])
  obtain ⟨stored, hwrite, hstored, hchanged⟩ := ((hgrown.trans hlist).trans hgrew).write
    (Or.inl (Or.inl ha)) (.action name refreshList count)
  -- the variables are still there
  have hat' : ListAt stored l size strings texts := (hat.of_grown hgrew).frame fun b hb => by
    rw [hchanged, Function.update_of_ne (hapart b hb)]
  obtain ⟨h', hdestroy, hleft, hkept⟩ := hat'.exists_destroy hstored fun b hb => Or.inl (Or.inr hb)
  refine ⟨stored, h', ?_, hdestroy, hleft, ?_, fun b hb hne => ?_⟩
  · simpa only [CHeap.storePages, hrecord] using hwrite
  · rw [hkept a fun hmem => hapart a hmem rfl, hchanged, Function.update_self]
  · rw [hkept b hb, hchanged, Function.update_of_ne hne]

/-- From `read_variable_list` on the action gets its pages, and the variables are gone again. -/
theorem loadPages_spec {calls : ℕ} {allocates : Allocations} {cfg : Config} {name : Block}
    {res : ℤ} (hgrown : Heap.Grown h₀ h total) (ha : a ∈ total)
    (hcell : h.cell a = some (.action name none 0))
    (hload : CHeap.loadPages h calls allocates cfg a = some (res, h')) :
    res ≠ -1 ∧ ∃ (action : Action) (owned : Set ℕ), action.name = name ∧ a ∈ owned ∧
      Entry.At h' ⟨.to a, .action action, owned⟩ ∧ Heap.Grown h₀ h' (total ∪ owned) ∧
      (∀ b, h.cell b ≠ none → b ≠ a → h'.cell b = h.cell b) ∧
      (∀ b ∈ owned, b ≠ a → h.cell b = none) ∧ PagesLoaded calls allocates cfg action res := by
  obtain ⟨lines, hlines, hrest⟩ := Option.bind_eq_some_iff.mp hload
  obtain ⟨value, hvalue, howns⟩ := readVariableList_owned hlines
  obtain ⟨texts, htexts, hdelivers⟩ := howns.delivers
  cases texts with
  | none =>
    -- without variables the action stays without pages
    obtain ⟨hnull, hsame⟩ := hdelivers
    rw [hnull] at hrest
    obtain ⟨rfl, rfl⟩ := Prod.mk.inj (Option.some.inj hrest)
    refine ⟨by decide, ⟨name, none, 0⟩, {a}, rfl, rfl, .bare rfl ?_, ?_, ?_, ?_, ?_⟩
    · rw [hsame.cell_eq, hcell]
    · refine (hgrown.trans hsame).congr fun b => ⟨fun hb => Or.inl (by simpa using hb), ?_⟩
      rintro (hb | rfl)
      · exact Or.inl hb
      · exact Or.inl ha
    · intro b _ _
      rw [hsame.cell_eq]
    · intro b hb hne
      exact absurd hb hne
    · refine ⟨value, hvalue, ?_⟩
      rw [htexts]
      exact ⟨rfl, rfl, rfl⟩
  | some texts =>
    obtain ⟨l, strings, hl, hat, hlist⟩ := hdelivers
    rw [hl] at hrest
    dsimp only at hrest
    rw [textsAt_of_listAt hat, Option.bind_some] at hrest
    obtain ⟨urls, hurls, hrest⟩ := Option.bind_eq_some_iff.mp hrest
    obtain ⟨pages, hread, hpages⟩ := readUrlList_owned hurls
    obtain ⟨new, hgrew⟩ := hpages.exists_grown
    obtain ⟨stored, h'', hstore, hdestroy, hleft, hrecord, hother⟩ :=
      exists_storePages hgrown ha hcell hat hlist hgrew urls.list urls.count
    simp only [hstore, hdestroy, Option.bind_some, Option.map_some, Option.some.injEq,
      Prod.mk.injEq] at hrest
    obtain ⟨rfl, rfl⟩ := hrest
    have hlive : lines.heap.cell a ≠ none := by
      rw [hlist.live_of_live (by simp [hcell])]
      simp [hcell]
    have hgone : ∀ b, lines.heap.cell b = none → b ∉ l :: strings :=
      fun b hnone hmem => hlist.live b hmem hnone
    have hnew : ∀ b, lines.heap.cell b = none → b ≠ a := by
      rintro b hnone rfl
      exact hlive hnone
    obtain ⟨owned, howned, hstand, hentry⟩ := hpages.exists_entry ⟨name, pages.list, urls.count⟩
      hlive rfl rfl hrecord fun b hnone _ => hother b (hgone b hnone) (hnew b hnone)
    refine ⟨by decide, _, owned, rfl, howned, hstand, hleft.congr fun b => ?_, fun b hb hne => ?_,
      fun b hb hne => ?_, value, hvalue, ?_⟩
    · -- what is left is what was there before and what the action owns
      have hnew' : b ∈ new ↔ b ∈ owned \ {a} := hgrew.mem_iff.trans hentry.mem_iff.symm
      have hkeep : b ∈ total → b ∉ l :: strings :=
        fun hb hmem => hgrown.live b hb (hlist.new b hmem)
      constructor
      · rintro ⟨(hb | hb) | hb, hnot⟩
        · exact Or.inl hb
        · exact absurd hb hnot
        · exact Or.inr (hnew'.mp hb).1
      · rintro (hb | hb)
        · exact ⟨Or.inl (Or.inl hb), hkeep hb⟩
        · by_cases hsame : b = a
          · rw [hsame] at hkeep ⊢
            exact ⟨Or.inl (Or.inl ha), hkeep ha⟩
          · exact ⟨Or.inr (hnew'.mpr ⟨hb, hsame⟩), hgone b (hentry.new b ⟨hb, hsame⟩)⟩
    · have hmiddle := hlist.live_of_live hb
      rw [hother b (fun hmem => hb (hlist.new b hmem)) hne, hgrew.live_of_live (by rwa [hmiddle]),
        hmiddle]
    · by_contra hlive'
      exact hlive' ((hlist.live_of_live hlive').symm.trans (hentry.new b ⟨hb, hne⟩))
    · rw [htexts, ← howns.count_eq]
      exact ⟨pages, hread, rfl, hpages.count_eq, rfl⟩

/-- A store into a table, and NULL into the slot behind. -/
theorem set_set_null {α : Type*} (f : Entry → α) {front back : List Entry} (e new : Entry) :
    (((front ++ e :: back).map f).set front.length (f new)).set (front.length + 1) (f .null) =
      (front ++ new :: back.set 0 .null).map f := by
  have hlength : front.length = (front.map f).length := by simp
  rw [List.map_append, hlength, List.set_append_right _ _ le_rfl, Nat.sub_self, List.map_cons,
    List.set_cons_zero, List.set_append_right _ _ (Nat.le_add_right _ 1), Nat.add_sub_cancel_left,
    List.set_cons_succ]
  cases back <;> simp

variable {t : ℕ} {behind : Bool} {front back : List Entry} {e : Entry}

/-- An action that owns what was allocated for it takes the place of an entry that owns
nothing. -/
theorem TableAt.add (htable : TableAt h₀ h t (front ++ e :: back)) (hempty : e.owned = ∅)
    (hback : ∀ f ∈ back, f.owned = ∅) {new : Entry} (hstand : new.At h')
    (hcell : h'.cell t = some (.table ((front ++ new :: back.set 0 .null).map Entry.pointer)))
    (hsame : ∀ b, h.cell b ≠ none → b ≠ t → h'.cell b = h.cell b)
    (hnew : ∀ b ∈ new.owned, h.cell b = none)
    (hgrown : Heap.Grown h₀ h'
      ({b | b = t ∨ ∃ f ∈ front ++ e :: back, b ∈ f.owned} ∪ new.owned)) :
    TableAt h₀ h' t (front ++ new :: back.set 0 .null) := by
  have hset : ∀ f ∈ back.set 0 .null, f.owned = ∅ := by
    intro f hf
    rcases List.mem_or_eq_of_mem_set hf with hmem | rfl
    · exact hback f hmem
    · rfl
  -- what the actions in front own is neither new nor the table
  have hfront : ∀ f ∈ front, f.At h' := by
    intro f hf
    have hf' := htable.stands f (by simp [hf])
    refine hf'.frame fun b hb => hsame b (hf'.cell_ne hb).1 ?_
    rintro rfl
    exact (hf'.cell_ne hb).2 _ htable.table
  refine ⟨hcell, fun f hf => ?_, ?_, hgrown.congr fun b => ?_⟩
  · rcases List.mem_append.mp hf with hmem | hmem
    · exact hfront f hmem
    · rcases List.mem_cons.mp hmem with rfl | hmem
      · exact hstand
      · rcases List.mem_or_eq_of_mem_set hmem with hmem | rfl
        · refine (htable.stands f (by simp [hmem])).frame fun b hb => ?_
          rw [hback f hmem] at hb
          cases hb
        · exact .null
  · -- nothing is owned twice
    obtain ⟨hapart, -, -⟩ := List.pairwise_append.mp htable.apart
    refine List.pairwise_append.mpr ⟨hapart, List.pairwise_cons.mpr ⟨fun f hf => ?_, ?_⟩,
      fun f hf g hg => ?_⟩
    · rw [hset f hf]
      exact fun b _ => Set.notMem_empty b
    · refine List.pairwise_of_forall_mem_list fun f hf g hg => ?_
      rw [hset f hf]
      exact fun b hb => absurd hb (Set.notMem_empty b)
    · rcases List.mem_cons.mp hg with rfl | hg
      · -- what was allocated for the action is none of what was there
        have hf' := htable.stands f (by simp [hf])
        exact fun b hb hb' => (hf'.cell_ne hb).1 (hnew b hb')
      · rw [hset g hg]
        exact fun b _ => Set.notMem_empty b
  · -- what the heap grew by is the table and what its entries own
    simp only [Set.mem_union, Set.mem_ofPred_eq, List.mem_append, List.mem_cons]
    constructor
    · rintro ((rfl | ⟨f, hf | rfl | hf, hb⟩) | hb)
      · exact Or.inl rfl
      · exact Or.inr ⟨f, Or.inl hf, hb⟩
      · rw [hempty] at hb
        cases hb
      · rw [hback f hf] at hb
        cases hb
      · exact Or.inr ⟨new, Or.inr (Or.inl rfl), hb⟩
    · rintro (rfl | ⟨f, hf | rfl | hf, hb⟩)
      · exact Or.inl (Or.inl rfl)
      · exact Or.inl (Or.inr ⟨f, Or.inl hf, hb⟩)
      · exact Or.inr hb
      · rw [hset f hf] at hb
        cases hb

/-- A store into the table changes that only. -/
theorem exists_storeAction {slots : List Pointer} (hgrown : Heap.Grown h₀ h total) (ht : t ∈ total)
    (htable : h.cell t = some (.table slots)) {index : ℕ} (hindex : index < slots.length)
    (pointer : Pointer) :
    ∃ h', CHeap.storeAction h t index pointer = some h' ∧ Heap.Grown h₀ h' total ∧
      h'.cell = Function.update h.cell t (some (.table (slots.set index pointer))) := by
  obtain ⟨h', hwrite, hstored⟩ := hgrown.write ht (.table (slots.set index pointer))
  refine ⟨h', ?_, hstored⟩
  simpa only [CHeap.storeAction, htable, if_pos hindex] using hwrite

/-- So does NULL in the slot behind, which may stand behind the table. -/
theorem clearAction_spec {slots : List Pointer} (hgrown : Heap.Grown h₀ h total) (ht : t ∈ total)
    (htable : h.cell t = some (.table slots)) (behind : Bool) (index : ℕ) :
    ((CHeap.clearAction h behind t index).isSome ↔ index < slots.length ∨ behind = true) ∧
      ∀ h', CHeap.clearAction h behind t index = some h' → Heap.Grown h₀ h' total ∧
        h'.cell = Function.update h.cell t (some (.table (slots.set index .null))) := by
  by_cases hindex : index < slots.length
  · obtain ⟨h', hwrite, hstored⟩ := hgrown.write ht (.table (slots.set index .null))
    have hclear : CHeap.clearAction h behind t index = some h' := by
      simpa only [CHeap.clearAction, htable, if_pos hindex] using hwrite
    rw [hclear]
    refine ⟨iff_of_true rfl (Or.inl hindex), fun h'' hsame => ?_⟩
    obtain rfl := Option.some.inj hsame
    exact hstored
  · simp only [CHeap.clearAction, htable, if_neg hindex]
    refine ⟨by simp [hindex], fun h' hclear => ?_⟩
    -- what is there is NULL already
    obtain ⟨-, hsame⟩ := Option.ite_none_right_eq_some.mp hclear
    obtain rfl := Option.some.inj hsame
    rw [List.set_eq_of_length_le (Nat.le_of_not_lt hindex), ← htable, Function.update_eq_self]
    exact ⟨hgrown, rfl⟩

/-- A new action and NULL behind it are stored into the table. -/
theorem TableAt.exists_storeActions (htable : TableAt h₀ h t (front ++ e :: back)) (name : Block)
    (behind : Bool) :
    ∃ h₂, CHeap.storeAction (h.alloc (.action name none 0)) t front.length (.to h.fresh) = some h₂ ∧
      ((CHeap.clearAction h₂ behind t (front.length + 1)).isSome ↔ back ≠ [] ∨ behind = true) ∧
      ∀ h₃, CHeap.clearAction h₂ behind t (front.length + 1) = some h₃ →
        Heap.Grown h₀ h₃ ({b | b = t ∨ ∃ f ∈ front ++ e :: back, b ∈ f.owned} ∪ {h.fresh}) ∧
        h₃.cell t = some (.table ((((front ++ e :: back).map Entry.pointer).set front.length
          (.to h.fresh)).set (front.length + 1) .null)) ∧
        ∀ b ≠ t, h₃.cell b = (h.alloc (.action name none 0)).cell b := by
  have halloc := Heap.Grown.alloc h (.action name none 0)
  have hlive : h.cell t ≠ none := by simp [htable.table]
  obtain ⟨h₂, hfirst, hgrown₂, hcell₂⟩ := exists_storeAction (htable.grown.trans halloc)
    (Or.inl (Or.inl rfl)) ((halloc.live_of_live hlive).trans htable.table)
    (show front.length < _ by simp) (.to h.fresh)
  obtain ⟨hiff, hclear⟩ := clearAction_spec hgrown₂ (Or.inl (Or.inl rfl))
    (by rw [hcell₂, Function.update_self]) behind (front.length + 1)
  refine ⟨h₂, hfirst, hiff.trans ?_, fun h₃ hsecond => ?_⟩
  · refine or_congr_left ?_
    rw [List.length_set, List.length_map, List.length_append, List.length_cons,
      ← List.length_pos_iff]
    omega
  · obtain ⟨hgrown₃, hcell₃⟩ := hclear h₃ hsecond
    refine ⟨hgrown₃, ?_, fun b hb => ?_⟩
    · rw [hcell₃, Function.update_self]
    · rw [hcell₃, Function.update_of_ne hb, hcell₂, Function.update_of_ne hb]

/-- From `create_action` on. -/
theorem createdAction_adds {calls : ℕ} {allocates : Allocations} {cfg : Config} {name : Block}
    {res : ℤ} (htable : TableAt h₀ h t (front ++ e :: back)) (hempty : e.owned = ∅)
    (hback : ∀ f ∈ back, f.owned = ∅)
    (hload : (match (CHeap.createAction h allocates.record name).1 with
      | none => none
      | some action =>
        (CHeap.storeAction (CHeap.createAction h allocates.record name).2 t front.length
          (.to action)).bind fun h =>
            (CHeap.clearAction h behind t (front.length + 1)).bind fun h =>
              CHeap.loadPages h calls allocates cfg action) = some (res, h')) :
    res ≠ -1 ∧ (back ≠ [] ∨ behind = true) ∧ allocates.record = true ∧
      ∃ new : Entry, new.IsAction ∧ TableAt h₀ h' t (front ++ new :: back.set 0 .null) ∧
        ∃ action : Action, new.slot = .action action ∧ action.name = strcpy [] name ∧
          PagesLoaded calls allocates cfg action res := by
  cases hrecord : allocates.record with
  | false =>
    simp [CHeap.createAction, hrecord] at hload
  | true =>
    simp only [CHeap.createAction, hrecord, if_true] at hload
    obtain ⟨h₂, hfirst, hiff, hstored⟩ := htable.exists_storeActions (strcpy [] name) behind
    simp only [hfirst, Option.bind_some] at hload
    obtain ⟨h₃, hsecond, hload⟩ := Option.bind_eq_some_iff.mp hload
    obtain ⟨hgrown₃, hcell₃, hkept⟩ := hstored h₃ hsecond
    have halloc := Heap.Grown.alloc h (.action (strcpy [] name) none 0)
    have hlive : h.cell t ≠ none := by simp [htable.table]
    have hne : t ≠ h.fresh := Nat.ne_of_lt (Heap.lt_fresh hlive)
    have hlive₃ : h₃.cell t ≠ none := by simp [hcell₃]
    obtain ⟨hres, action, owned, hname, howned, hstand, hgrown', hsame, hnew, hpages⟩ :=
      loadPages_spec hgrown₃ (Or.inr rfl) (by rw [hkept _ hne.symm, Heap.cell_alloc_self]) hload
    refine ⟨hres, hiff.mp (by simp [hsecond]), rfl, ⟨.to h.fresh, .action action, owned⟩,
      ⟨_, rfl, howned⟩, htable.add hempty hback hstand ?_ (fun b hb hbt => ?_) (fun b hb => ?_)
        (hgrown'.congr fun b => ?_), action, rfl, hname, hpages⟩
    · rw [hsame t hlive₃ hne, hcell₃, ← set_set_null Entry.pointer e]
      rfl
    · have hold := (hkept b hbt).trans (halloc.live_of_live hb)
      rw [hsame b (by rwa [hold]) (Nat.ne_of_lt (Heap.lt_fresh hb)), hold]
    · by_cases hfresh : b = h.fresh
      · exact hfresh ▸ h.unused _ le_rfl
      · have hnone := hnew b hb hfresh
        have hbt : b ≠ t := by
          rintro rfl
          exact hlive₃ hnone
        rwa [hkept b hbt, Heap.cell_alloc_of_ne _ hfresh] at hnone
    · -- the record is part of what the action owns
      have hfresh : b = h.fresh → b ∈ owned := by
        rintro rfl
        exact howned
      simp only [Set.mem_union, Set.mem_singleton_iff]
      tauto

/-- What `load_action` does without its pointers, from `create_action` on. -/
theorem PagesLoaded.exists_logs {calls : ℕ} {allocates : Allocations} {cfg : Config} {name : Block}
    {action : Action} {res : ℤ} {slots : List Slot} {index : ℕ} {loading : LogMessage}
    (hname : action.name = strcpy [] name) (hpages : PagesLoaded calls allocates cfg action res) :
    ∃ logs, ((readVariableListIn allocates.lineArray allocates.lines cfg 0 variableMaxCount).bind
      fun stored =>
        match stored.list with
        | none => some ⟨(slots.set index (.action (newAction name))).set (index + 1) .null, 0,
            loading :: stored.logs⟩
        | some variableList =>
          (readUrlListIn calls allocates.urlArray allocates.urls cfg (newAction name).count
            urlMaxCount variableList stored.count).map fun urls =>
              ⟨((slots.set index (.action (newAction name))).set (index + 1) .null).set index
                (.action { newAction name with refreshList := urls.list, count := urls.count }), 1,
                loading :: stored.logs ++ urls.logs⟩) =
      some (⟨(slots.set index (.action action)).set (index + 1) .null, res, logs⟩ :
        LoadResult) := by
  obtain ⟨stored, refreshList, count⟩ := action
  obtain rfl : stored = strcpy [] name := hname
  obtain ⟨lines, hlines, hpages⟩ := hpages
  rw [hlines, Option.bind_some]
  cases hlist : lines.list with
  | none =>
    rw [hlist] at hpages
    obtain ⟨rfl, rfl, rfl⟩ := hpages
    exact ⟨_, rfl⟩
  | some variableList =>
    rw [hlist] at hpages
    obtain ⟨urls, hurls, rfl, rfl, rfl⟩ := hpages
    refine ⟨loading :: lines.logs ++ urls.logs, ?_⟩
    -- the action is stored again, with its pages, in the same slot
    simp only [newAction, hurls, Option.map_some]
    rw [List.set_comm _ _ (Nat.succ_ne_self index), List.set_set]

/-- The lines of a file fit in the arrays in which they are built, and so do its pages with the
variables that are read. -/
def IncludeFile.Fits (calls : ℕ) (allocates : Allocations) : IncludeFile → Prop
  | .broken _ => True
  | .parsed cfg =>
    (∀ records ∈ cfg.cacheVariables, ∀ record ∈ records, LineFits (VariableSetting.line record)) ∧
      ∀ lines ∈ readVariableListIn allocates.lineArray allocates.lines cfg 0 variableMaxCount,
        ∀ variableList ∈ lines.list, ∀ records ∈ cfg.cachePages, ∀ record ∈ records,
          ∀ url ∈ PageSetting.url record, urlFits calls variableList lines.count url

/-- Where the lines fit the action gets its pages when they come out. -/
theorem isSome_loadPages {calls : ℕ} {allocates : Allocations} {cfg : Config} {name : Block}
    (hgrown : Heap.Grown h₀ h total) (ha : a ∈ total)
    (hcell : h.cell a = some (.action name none 0))
    (hfits : (IncludeFile.parsed cfg).Fits calls allocates)
    (hpages : ∃ lines, readVariableListIn allocates.lineArray allocates.lines cfg 0
        variableMaxCount = some lines ∧ ∀ variableList ∈ lines.list,
          (readUrlListIn calls allocates.urlArray allocates.urls cfg 0 urlMaxCount variableList
            lines.count).isSome) :
    (CHeap.loadPages h calls allocates cfg a).isSome := by
  obtain ⟨hvariables, hurls⟩ := hfits
  obtain ⟨value, hvalue, hpages⟩ := hpages
  have hread := readVariableList_reads h allocates.lineArray allocates.lines 0 variableMaxCount
    hvariables
  rw [hvalue] at hread
  obtain ⟨lines, hlines, howns⟩ := hread
  obtain ⟨texts, htexts, hdelivers⟩ := howns.delivers
  rw [CHeap.loadPages, hlines, Option.bind_some]
  cases texts with
  | none => simp [hdelivers.1]
  -- with the list of the variables the pages are read as they are without the pointers
  | some texts =>
    obtain ⟨l, strings, hl, hat, hlist⟩ := hdelivers
    have hread := readUrlList_reads lines.heap calls allocates.urlArray allocates.urls 0
      urlMaxCount (hurls value hvalue _ htexts)
    obtain ⟨pages, hpages⟩ := Option.isSome_iff_exists.mp (hpages _ htexts)
    rw [hpages, ← howns.count_eq] at hread
    obtain ⟨urls, hread', howns'⟩ := hread
    obtain ⟨new, hgrew⟩ := howns'.exists_grown
    obtain ⟨stored, h', hstore, hdestroy, -⟩ :=
      exists_storePages hgrown ha hcell hat hlist hgrew urls.list urls.count
    simp [hl, textsAt_of_listAt hat, hread', hstore, hdestroy]

/-- The table that `load_action` leaves is the one it leaves without its pointers. A file that
fails before it declares a name allocates nothing that stays, and every other one an action,
with what it owns; that one looks at the slot behind its own. -/
theorem loadAction_adds {calls : ℕ} {allocates : Allocations} {includeFile : IncludeFile}
    {version : Block} {res : ℤ} (htable : TableAt h₀ h t (front ++ e :: back))
    (hempty : e.owned = ∅) (hback : ∀ f ∈ back, f.owned = ∅)
    (hload : CHeap.loadAction h behind calls allocates t includeFile front.length version =
      some (res, h')) :
    res ≠ -1 ∧ ∃ entries, TableAt h₀ h' t entries ∧
      (match (loadOutcome version includeFile allocates).declared with
        | none => entries = front ++ e :: back
        | some _ => (back ≠ [] ∨ behind = true) ∧
            ∃ new : Entry, new.IsAction ∧ entries = front ++ new :: back.set 0 .null) ∧
      ∃ logs, loadAction calls allocates ((front ++ e :: back).map Entry.slot) includeFile
        front.length version = some ⟨entries.map Entry.slot, res, logs⟩ := by
  cases includeFile with
  | broken message =>
    obtain ⟨rfl, rfl⟩ := Prod.mk.inj (Option.some.inj hload)
    exact ⟨by decide, _, htable, rfl, _, rfl⟩
  | parsed cfg =>
    simp only [CHeap.loadAction, loadOutcome, loadAction, loadConfig] at hload ⊢
    by_cases hversion : (checkVersion cfg version).1 = -1
    · rw [if_pos hversion] at hload ⊢
      obtain ⟨rfl, rfl⟩ := Prod.mk.inj (Option.some.inj hload)
      exact ⟨by decide, _, htable, rfl, _, if_pos hversion⟩
    · rw [if_neg hversion] at hload ⊢
      simp only [if_neg hversion]
      rcases hname : readString cfg.cacheName "cache.name" argumentMaxLength with ⟨_ | name, logs⟩
      · -- without a name nothing is allocated
        rw [hname] at hload
        obtain ⟨rfl, rfl⟩ := Prod.mk.inj (Option.some.inj hload)
        exact ⟨by decide, _, htable, rfl, _, rfl⟩
      · rw [hname] at hload
        dsimp only at hload ⊢
        -- the name is declared, whatever becomes of the two lists
        have hdeclared : ∀ outcome : LoadOutcome, outcome = (
            if (readVariableListIn allocates.lineArray allocates.lines cfg 0
                variableMaxCount).bind StringList.list = none then .late (cstr name)
            else .loaded (cstr name)) → outcome.declared = some (cstr name) := by
          rintro outcome rfl
          split_ifs <;> rfl
        obtain ⟨hres, hinside, hrecord, new, haction, hadded, action, hslot, hstored, hpages⟩ :=
          createdAction_adds htable hempty hback hload
        refine ⟨hres, _, hadded, ?_, ?_⟩
        · rw [hdeclared _ rfl]
          exact ⟨hinside, new, haction, rfl⟩
        · rw [← set_set_null Entry.slot e, hslot, createAction, hrecord, if_pos rfl]
          exact PagesLoaded.exists_logs hstored hpages

/-- Where its lines fit a file is loaded when it is without the pointers, and either fails before
it declares a name or may look at the slot behind its own. -/
theorem isSome_loadAction {calls : ℕ} {allocates : Allocations} {includeFile : IncludeFile}
    {version : Block} {slots : List Slot} (htable : TableAt h₀ h t (front ++ e :: back))
    (hfits : includeFile.Fits calls allocates)
    (hinside : loadOutcome version includeFile allocates ≠ .early → back ≠ [] ∨ behind = true)
    (hvalue : (loadAction calls allocates slots includeFile front.length version).isSome) :
    (CHeap.loadAction h behind calls allocates t includeFile front.length version).isSome := by
  cases includeFile with
  | broken message => rfl
  | parsed cfg =>
    simp only [CHeap.loadAction, loadAction, loadOutcome, loadConfig] at hvalue hinside ⊢
    by_cases hversion : (checkVersion cfg version).1 = -1
    · rw [if_pos hversion]
      rfl
    · rw [if_neg hversion] at hvalue hinside ⊢
      rcases hname : readString cfg.cacheName "cache.name" argumentMaxLength with ⟨_ | name, logs⟩
      · rfl
      · rw [hname] at hvalue hinside
        dsimp only at hvalue hinside ⊢
        cases hrecord : allocates.record with
        | false => simp [createAction, hrecord] at hvalue
        | true =>
          obtain ⟨h₂, hfirst, hiff, hstored⟩ := htable.exists_storeActions (strcpy [] name) behind
          obtain ⟨h₃, hsecond⟩ := Option.isSome_iff_exists.mp
            (hiff.mpr (hinside (by split_ifs <;> simp)))
          obtain ⟨hgrown₃, hcell₃, hkept⟩ := hstored h₃ hsecond
          have hlive : h.cell t ≠ none := by simp [htable.table]
          have hne : t ≠ h.fresh := Nat.ne_of_lt (Heap.lt_fresh hlive)
          simp only [CHeap.createAction, if_true, hfirst, hsecond, Option.bind_some]
          refine isSome_loadPages hgrown₃ (Or.inr rfl)
            (by rw [hkept _ hne.symm, Heap.cell_alloc_self]) hfits ?_
          simp only [createAction, hrecord, if_true] at hvalue
          obtain ⟨result, hresult⟩ := Option.isSome_iff_exists.mp hvalue
          obtain ⟨lines, hlines, hpages⟩ := Option.bind_eq_some_iff.mp hresult
          refine ⟨lines, hlines, fun variableList hlist => ?_⟩
          rw [show lines.list = some variableList from hlist] at hpages
          obtain ⟨urls, hurls, -⟩ := Option.map_eq_some_iff.mp hpages
          exact Option.isSome_of_eq_some hurls

end Load

/-! ### The loop of main -/

section Files

variable {h h' h₀ : CHeap} {t calls : ℕ} {behind : Bool} {version : Block}
  {files : List (IncludeFile × Allocations)} {front back : List Entry}

/-- What the slots of the files hold in the end: an action for every file that declares a name,
and up to the first other one there is no other slot, and that one is NULL. -/
structure Filled (outcomes : List LoadOutcome) (entries : List Entry) : Prop where
  actions : List.Forall₂ (fun (e : Entry) outcome => e.IsAction ↔ outcome ≠ .early) entries outcomes
  leading : ∃ lead rest, entries = lead ++ rest ∧ (∀ e ∈ lead, e.IsAction) ∧
    ∀ e ∈ rest.head?, e = .null

theorem not_isAction_of_owned {e : Entry} (hempty : e.owned = ∅) : ¬ e.IsAction := by
  rintro ⟨a, -, ha⟩
  rw [hempty] at ha
  cases ha

/-- A file fills its slot, and those behind it still own nothing. The slot holds an action, with
NULL behind it, or what it held before. -/
theorem loadAction_fills {file : IncludeFile × Allocations} {e : Entry} {res : ℤ}
    (htable : TableAt h₀ h t (front ++ e :: back)) (hempty : ∀ f ∈ e :: back, f.owned = ∅)
    (hload : CHeap.loadAction h behind calls file.2 t file.1 front.length version =
      some (res, h')) :
    res ≠ -1 ∧ (loadOutcome version file.1 file.2 ≠ .early → back ≠ [] ∨ behind = true) ∧
      ∃ new back', TableAt h₀ h' t ((front ++ [new]) ++ back') ∧
        back'.length = back.length ∧ (∀ f ∈ back', f.owned = ∅) ∧
        (new.IsAction ↔ loadOutcome version file.1 file.2 ≠ .early) ∧
        (new.IsAction ∧ (∀ f ∈ back'.head?, f = .null) ∨ new = e) ∧
        ∃ logs, loadAction calls file.2 ((front ++ e :: back).map Entry.slot) file.1 front.length
          version = some ⟨((front ++ [new]) ++ back').map Entry.slot, res, logs⟩ := by
  obtain ⟨hfirst, hrest⟩ := List.forall_mem_cons.mp hempty
  obtain ⟨hres, entries, hadded, hoccurs, hvalue⟩ := loadAction_adds htable hfirst hrest hload
  refine ⟨hres, ?_⟩
  cases hdeclared : (loadOutcome version file.1 file.2).declared with
  | none =>
    rw [hdeclared] at hoccurs
    obtain rfl : entries = (front ++ [e]) ++ back := by simpa using hoccurs
    have hearly := LoadOutcome.declared_eq_none_iff.mp hdeclared
    exact ⟨absurd hearly, e, back, hadded, rfl, hrest,
      iff_of_false (not_isAction_of_owned hfirst) (not_not_intro hearly), Or.inr rfl, hvalue⟩
  | some name =>
    rw [hdeclared] at hoccurs
    obtain ⟨hinside, new, hnew, hentries⟩ := hoccurs
    obtain rfl : entries = (front ++ [new]) ++ back.set 0 .null := by simpa using hentries
    have hdeclares : loadOutcome version file.1 file.2 ≠ .early := by
      intro hearly
      rw [LoadOutcome.declared_eq_none_iff.mpr hearly] at hdeclared
      cases hdeclared
    refine ⟨fun _ => hinside, new, back.set 0 .null, hadded, List.length_set, fun f hf => ?_,
      iff_of_true hnew hdeclares, Or.inl ⟨hnew, ?_⟩, hvalue⟩
    · rcases List.mem_or_eq_of_mem_set hf with hmem | rfl
      · exact hrest f hmem
      · rfl
    · cases back <;> simp

/-- The last file fails before it declares a name, or may look behind the table. -/
def LastInside (behind : Bool) (outcomes : List LoadOutcome) : Prop :=
  behind = true ∨ ∀ outcome ∈ outcomes.getLast?, outcome = .early

/-- That is said of the last one of two files and more by the others. -/
theorem lastInside_cons {outcome : LoadOutcome} {outcomes : List LoadOutcome} :
    LastInside behind (outcome :: outcomes) ↔
      (outcome ≠ .early → outcomes ≠ [] ∨ behind = true) ∧ LastInside behind outcomes := by
  cases outcomes with
  | nil =>
    simp only [LastInside, List.getLast?_singleton, Option.mem_some_iff, forall_eq', ne_eq,
      not_true_eq_false, false_or, List.getLast?_nil, Option.not_mem_none, false_imp_iff,
      implies_true, or_true, and_true]
    tauto
  | cons first outcomes => simp [LastInside, List.getLast?_cons]

/-- The files fill the slots behind an entry, in their order. -/
theorem TableAt.loadFiles (htable : TableAt h₀ h t (front ++ back))
    (hroom : back.length = files.length) (hempty : ∀ e ∈ back, e.owned = ∅)
    (hload : CHeap.loadFiles behind calls version t files front.length h = some h') :
    LastInside behind (loadOutcomes version files) ∧
    ∃ entries, TableAt h₀ h' t (front ++ entries) ∧
      List.Forall₂ (fun (e : Entry) outcome => e.IsAction ↔ outcome ≠ .early) entries
        (loadOutcomes version files) ∧
      ((∀ e ∈ back.head?, e = .null) → Filled (loadOutcomes version files) entries) ∧
      loadFiles calls version files front.length ((front ++ back).map Entry.slot) =
        some ((front ++ entries).map Entry.slot) := by
  induction files generalizing h front back with
  | nil =>
    obtain rfl := Option.some.inj hload
    obtain rfl := List.length_eq_zero_iff.mp hroom
    exact ⟨Or.inr (by simp [loadOutcomes]), [], htable, .nil,
      fun _ => ⟨.nil, [], [], rfl, by simp, by simp⟩, rfl⟩
  | cons file files ih =>
    cases back with
    | nil => cases hroom
    | cons e back =>
      obtain ⟨result, hresult, hnext⟩ := Option.bind_eq_some_iff.mp hload
      obtain ⟨hres, hinside, new, back', hadded, hlength, hempty', haction, hslot, logs, hvalue⟩ :=
        loadAction_fills htable hempty hresult
      have hindex : front.length + 1 = (front ++ [new]).length := by simp
      have hrest : back.length = files.length := Nat.succ.inj hroom
      rw [if_neg hres, hindex] at hnext
      obtain ⟨hlast, more, htable', hmore, hfilled, hvalues⟩ :=
        ih hadded (hlength.trans hrest) hempty' hnext
      refine ⟨lastInside_cons.mpr ⟨fun hdeclares => ?_, hlast⟩, new :: more, by simpa using htable',
        .cons haction hmore, fun hnull => ⟨.cons haction hmore, ?_⟩, ?_⟩
      · refine (hinside hdeclares).imp_left fun hsome => ?_
        rw [← List.length_pos_iff] at hsome ⊢
        simpa [loadOutcomes, hrest] using hsome
      · -- the file left an action, or its slot is the first that stays empty
        rcases hslot with ⟨hnew, hnull'⟩ | rfl
        · obtain ⟨lead, rest, rfl, hlead, hrest⟩ := (hfilled hnull').leading
          exact ⟨new :: lead, rest, rfl, List.forall_mem_cons.mpr ⟨hnew, hlead⟩, hrest⟩
        · exact ⟨[], new :: more, rfl, by simp, by simpa using hnull⟩
      · rw [EasyForetell.loadFiles, hvalue, Option.bind_some, if_neg hres, hindex]
        simpa using hvalues

/-- Where their lines fit the files are loaded when they are without the pointers, if the last one
may look behind the table or does not. -/
theorem TableAt.isSome_loadFiles (htable : TableAt h₀ h t (front ++ back))
    (hroom : back.length = files.length) (hempty : ∀ e ∈ back, e.owned = ∅)
    (hfits : ∀ file ∈ files, IncludeFile.Fits calls file.2 file.1)
    (hlast : LastInside behind (loadOutcomes version files))
    (hvalue : (EasyForetell.loadFiles calls version files front.length
      ((front ++ back).map Entry.slot)).isSome) :
    (CHeap.loadFiles behind calls version t files front.length h).isSome := by
  induction files generalizing h front back with
  | nil => rfl
  | cons file files ih =>
    cases back with
    | nil => cases hroom
    | cons e back =>
      obtain ⟨hfile, hfits⟩ := List.forall_mem_cons.mp hfits
      obtain ⟨hinside, hlast⟩ := lastInside_cons.mp hlast
      have hrest : back.length = files.length := Nat.succ.inj hroom
      rw [EasyForetell.loadFiles] at hvalue
      have hloads :
          (CHeap.loadAction h behind calls file.2 t file.1 front.length version).isSome := by
        refine isSome_loadAction htable hfile (fun hdeclares => ?_)
          (Option.isSome_of_isSome_bind hvalue)
        refine (hinside hdeclares).imp_left fun hsome => ?_
        rw [← List.length_pos_iff] at hsome ⊢
        simpa [loadOutcomes, hrest] using hsome
      obtain ⟨⟨res, h₁⟩, hresult⟩ := Option.isSome_iff_exists.mp hloads
      obtain ⟨hres, -, new, back', hadded, hlength, hempty', -, -, logs, hstep⟩ :=
        loadAction_fills htable hempty hresult
      have hindex : front.length + 1 = (front ++ [new]).length := by simp
      rw [hstep, Option.bind_some, if_neg hres, hindex] at hvalue
      rw [CHeap.loadFiles, hresult, Option.bind_some, if_neg hres, hindex]
      exact ih hadded (hlength.trans hrest) hempty' hfits hlast hvalue

/-- The entries that `create_actions` leaves own nothing. -/
theorem owned_createActions (n : ℕ) :
    ∀ e ∈ (List.replicate n Entry.uninitialised).set 0 .null, e.owned = ∅ := by
  intro e he
  rcases List.mem_or_eq_of_mem_set he with hmem | rfl
  · rw [List.eq_of_mem_replicate hmem]
    rfl
  · rfl

theorem loadTable_eq_loadFiles (hsome : files.length > 0) :
    loadTable calls version files = loadFiles calls version files 0
      (((List.replicate files.length Entry.uninitialised).set 0 .null).map Entry.slot) := by
  rw [loadTable, createActions, if_pos hsome, Option.bind_some, List.map_set, List.map_replicate]
  rfl

/-- The table that `create_actions` leaves: NULL in the first slot, and nothing in the others. -/
theorem tableAt_createActions (h : CHeap) (n : ℕ) :
    TableAt h (h.alloc (.table ((List.replicate n .uninitialised).set 0 .null))) h.fresh
      ([] ++ (List.replicate n Entry.uninitialised).set 0 .null) := by
  have howned := owned_createActions n
  refine ⟨?_, fun e he => ?_, ?_, (Heap.Grown.alloc h _).congr fun b => ?_⟩
  · rw [Heap.cell_alloc_self, List.nil_append, List.map_set, List.map_replicate]
    rfl
  · rcases List.mem_or_eq_of_mem_set he with hmem | rfl
    · rw [List.eq_of_mem_replicate hmem]
      exact .uninitialised
    · exact .null
  · refine List.pairwise_of_forall_mem_list fun e he f hf => ?_
    rw [howned e he]
    exact fun b hb => absurd hb (Set.notMem_empty b)
  · refine ⟨fun hb => Or.inl hb, ?_⟩
    rintro (rfl | ⟨e, he, hb⟩)
    · rfl
    · rw [howned e he] at hb
      cases hb

/-- The slots without an action are those of the files that fail early. -/
theorem Filled.map_eq {outcomes : List LoadOutcome} {entries : List Entry}
    (hfilled : Filled outcomes entries) :
    entries.map (fun e => ¬ e.IsAction) = outcomes.map (· = .early) := by
  rw [← List.forall₂_eq_eq_eq, List.forall₂_map_left_iff, List.forall₂_map_right_iff]
  exact hfilled.actions.imp fun e outcome hiff => propext (not_iff_comm.mp hiff.symm)

/-- Behind the first NULL there is no action exactly when no file that declares a name comes
behind one that fails early. -/
theorem Filled.forall_not_isAction_iff {outcomes : List LoadOutcome} {lead rest : List Entry}
    (hfilled : Filled outcomes (lead ++ rest)) (hlead : ∀ e ∈ lead, e.IsAction)
    (hrest : ∀ e ∈ rest.head?, e = .null) :
    (∀ e ∈ rest, ¬ e.IsAction) ↔
      outcomes.Pairwise fun first later => first = .early → later = .early := by
  have hpairs := List.pairwise_map (f := fun outcome : LoadOutcome => outcome = .early)
    (R := fun p q => p → q) (l := outcomes)
  rw [← hfilled.map_eq, List.pairwise_map, List.pairwise_append] at hpairs
  rw [← hpairs]
  constructor
  · intro hnone
    refine ⟨List.pairwise_of_forall_mem_list fun e he f hf hnot => absurd (hlead e he) hnot,
      List.pairwise_of_forall_mem_list fun e _ f hf _ => hnone f hf,
      fun e he f _ hnot => absurd (hlead e he) hnot⟩
  · rintro ⟨-, hpairs, -⟩
    cases rest with
    | nil => simp
    | cons e rest =>
      obtain rfl := hrest e rfl
      have hnull : ¬ Entry.null.IsAction := not_isAction_of_owned rfl
      exact List.forall_mem_cons.mpr
        ⟨hnull, fun f hf => (List.pairwise_cons.mp hpairs).1 f hf hnull⟩

/-- What `main` has in memory once the include files are loaded. -/
theorem loadTable_filled {allocated : Bool} {actions : ℕ}
    (hload : CHeap.loadTable h behind calls allocated version files = some (actions, h')) :
    LastInside behind (loadOutcomes version files) ∧ ∃ entries, TableAt h h' actions entries ∧
      Filled (loadOutcomes version files) entries ∧
      loadTable calls version files = some (entries.map Entry.slot) := by
  by_cases hcreated : files.length > 0 ∧ allocated = true
  · simp only [CHeap.loadTable, CHeap.createActions, if_pos hcreated, Option.bind_some] at hload
    obtain ⟨h₁, hloaded, hend⟩ := Option.map_eq_some_iff.mp hload
    obtain ⟨rfl, rfl⟩ := Prod.mk.inj hend
    obtain ⟨hlast, entries, hfinal, -, hfilled, hvalue⟩ :=
      (tableAt_createActions h files.length).loadFiles (by simp) (owned_createActions _) hloaded
    refine ⟨hlast, entries, hfinal, hfilled ?_, ?_⟩
    · cases files <;> simp [List.replicate_succ]
    · rw [loadTable_eq_loadFiles hcreated.1]
      exact hvalue
  · simp only [CHeap.loadTable, CHeap.createActions, if_neg hcreated] at hload
    cases hload

/-- Where there is an entry for the last file, and it stays empty, `destroy_actions` does not get
to the end of the table. -/
theorem Filled.behind_of_lead {outcomes : List LoadOutcome} {lead : List Entry}
    (hfilled : Filled outcomes lead) (hlead : ∀ e ∈ lead, e.IsAction) (hsome : outcomes ≠ [])
    (hlast : LastInside behind outcomes) : behind = true := by
  refine hlast.resolve_right fun hearly => ?_
  obtain ⟨front, outcome, rfl⟩ := (List.eq_nil_or_concat' outcomes).resolve_left hsome
  have hmem : (outcome = .early) ∈ lead.map fun e => ¬ e.IsAction := by
    rw [hfilled.map_eq]
    exact List.mem_map.mpr ⟨outcome, by simp, rfl⟩
  obtain ⟨e, he, hsame⟩ := List.mem_map.mp hmem
  exact hsame.mpr (hearly outcome (by simp)) (hlead e he)

end Files

/-- When the include files are loaded the table is the one that they leave without the pointers,
and `destroy_actions` frees what they allocated, and nothing else, each once, unless a file that
declares a name comes behind one that fails before it does: the actions of those stay behind.
With memory for the table and lines that fit, the files are loaded when they are without the
pointers, and what stands behind the table reads as NULL or the last file fails before it
declares a name. -/
theorem actions_freed_iff (h : CHeap) (behind : Bool) (calls : ℕ) (version : Block)
    (files : List (IncludeFile × Allocations)) :
    (∀ allocated actions h₁,
      CHeap.loadTable h behind calls allocated version files = some (actions, h₁) →
        (∃ entries, TableAt h h₁ actions entries ∧
          loadTable calls version files = some (entries.map Entry.slot)) ∧
        ∃ h₂, CHeap.destroyActions h₁ behind (some actions) = some h₂ ∧
          (∀ a, h.cell a ≠ none → h₂.cell a = h.cell a) ∧
          (h₂.cell = h.cell ↔ (loadOutcomes version files).Pairwise
            fun first later => first = .early → later = .early)) ∧
    ((∀ file ∈ files, IncludeFile.Fits calls file.2 file.1) →
      ((CHeap.loadTable h behind calls true version files).isSome ↔
        (loadTable calls version files).isSome ∧ (behind = true ∨
          ∀ outcome ∈ (loadOutcomes version files).getLast?, outcome = .early))) := by
  constructor
  · intro allocated actions h₁ hload
    obtain ⟨hlast, entries, htable, hfilled, hvalue⟩ := loadTable_filled hload
    refine ⟨⟨entries, htable, hvalue⟩, ?_⟩
    -- the actions are freed up to the first entry that is none
    obtain ⟨lead, rest, rfl, hlead, hrest⟩ := hfilled.leading
    have hbehind : rest = [] → behind = true := by
      rintro rfl
      rw [List.append_nil] at hfilled
      refine hfilled.behind_of_lead hlead ?_ hlast
      rintro hnone
      have hfiles : files = [] := List.map_eq_nil_iff.mp hnone
      rw [hfiles] at hvalue
      cases hvalue
    obtain ⟨h₂, hdestroy, hleft⟩ := htable.exists_destroy hlead hrest hbehind
    refine ⟨h₂, hdestroy, fun a ha => hleft.live_of_live ha, ?_⟩
    rw [← hfilled.forall_not_isAction_iff hlead hrest]
    exact cell_eq_iff (fun e he => htable.stands e (by simp [he])) hleft
  · intro hfits
    constructor
    · intro hload
      obtain ⟨⟨actions, h₁⟩, hload⟩ := Option.isSome_iff_exists.mp hload
      obtain ⟨hlast, entries, -, -, hvalue⟩ := loadTable_filled hload
      exact ⟨Option.isSome_of_eq_some hvalue, hlast⟩
    · rintro ⟨hvalue, hlast⟩
      have hsome : files.length > 0 := by
        by_contra hnone
        obtain rfl := List.length_eq_zero_iff.mp (Nat.eq_zero_of_not_pos hnone)
        cases hvalue
      rw [loadTable_eq_loadFiles hsome] at hvalue
      have hloads := (tableAt_createActions h files.length).isSome_loadFiles (by simp)
        (owned_createActions _) hfits hlast hvalue
      simpa [CHeap.loadTable, CHeap.createActions, hsome] using hloads

/-- The action of a file behind one that cannot be parsed is never freed. -/
theorem action_left_behind :
    let files := [(.broken (ascii "syntax error"), Allocations.whole), (exampleFile, .whole)]
    ∃ actions h₁ h₂,
      CHeap.loadTable .empty true 0 true (ascii "1.0") files = some (actions, h₁) ∧
        CHeap.destroyActions h₁ true (some actions) = some h₂ ∧
        h₂.cell ≠ (Heap.empty : CHeap).cell := by
  intro files
  obtain ⟨⟨actions, h₁⟩, hload⟩ := Option.isSome_iff_exists.mp
    (show (CHeap.loadTable .empty true 0 true (ascii "1.0") files).isSome by decide +kernel)
  obtain ⟨-, h₂, hdestroy, -, hiff⟩ :=
    (actions_freed_iff .empty true 0 (ascii "1.0") files).1 true actions h₁ hload
  refine ⟨actions, h₁, h₂, hload, hdestroy, fun hsame => ?_⟩
  exact absurd (hiff.mp hsame) (by decide)

end EasyForetell
