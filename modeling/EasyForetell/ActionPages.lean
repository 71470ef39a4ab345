import EasyForetell.ActionTable

/-!
# The pages of the loaded actions (action.c, config_utils.c)

An action carries its pages as a list and a count, and the UPDATE branch and
`destroy_string_list` walk the list up to the count. `read_url_list` stores the count
before it knows whether it will return a list: when there are too many pages, or memory
for their array or for one of them runs out, the count stays and the list is NULL.

## Main results

* `walkable_readUrlListIn_iff`: when `read_url_list` leaves a list that bears its count
* `actions_walkable_iff`: when every action in the table can be walked
-/

namespace EasyForetell

open Memory

/-- The pages of a configuration are counted and then not returned: there are too many of
them, there is no memory for their array, or memory for one runs out. -/
def Config.LosesPages (cfg : Config) (urlArray : Bool) (urls : ℕ → Bool) : Prop :=
  ∃ records, cfg.cachePages = some records ∧
    (urlMaxCount < records.length ∨ (urlArray = false ∧ records ≠ []) ∨
      ∃ i record, records[i]? = some record ∧ record.url.isSome ∧ urls i = false)

/-- A call of `load_action`. -/
structure LoadCall where
  index : ℕ
  includeFile : IncludeFile
  allocates : Allocations

/-- The call gets as far as the pages of its file, and loses them. -/
def LoadCall.LosesPages (version : Block) (load : LoadCall) : Prop :=
  (∃ name, loadOutcome version load.includeFile load.allocates = .loaded name) ∧
    ∃ cfg, load.includeFile = .parsed cfg ∧
      cfg.LosesPages load.allocates.urlArray load.allocates.urls

/-- The table after a sequence of calls; `none` when one does not return. -/
def loadAll (calls : ℕ) (version : Block) (table : List Slot) (loads : List LoadCall) :
    Option (List Slot) :=
  loads.foldlM (fun table load =>
    (loadAction calls load.allocates table load.includeFile load.index version).map
      LoadResult.actions) table

/-! ### What read_url_list leaves -/

section Pages

variable {calls : ℕ} {allocates : ℕ → Bool} {variableList : List (Option Block)}
  {variableCount : ℕ}

/-- What holds of an element and its place holds of the first one or of one behind it. -/
theorem exists_getElem?_cons {α : Type*} {a : α} {l : List α} {p : ℕ → α → Prop} :
    (∃ j b, (a :: l)[j]? = some b ∧ p j b) ↔ p 0 a ∨ ∃ j b, l[j]? = some b ∧ p (j + 1) b := by
  constructor
  · rintro ⟨_ | j, b, hb, hp⟩
    · obtain rfl : a = b := Option.some.inj hb
      exact Or.inl hp
    · exact Or.inr ⟨j, b, hb, hp⟩
  · rintro (hp | ⟨j, b, hb, hp⟩)
    · exact ⟨0, a, rfl, hp⟩
    · exact ⟨j + 1, b, hb, hp⟩

/-- The list is lost if and only if memory for a page runs out, and it keeps its slots
otherwise. -/
theorem packPages_inv {i : ℕ} {records : List PageSetting} {packing : Packing}
    {packed : Option (List (Option Block)) × List LogMessage}
    (hpacked : packPages calls allocates variableList variableCount i records packing =
      some packed) :
    (packed.1 = none ↔
        ∃ j record, records[j]? = some record ∧ record.url.isSome ∧ allocates (i + j) = false) ∧
      ∀ slots, packed.1 = some slots → slots.length = packing.slots.length := by
  induction records generalizing i packing with
  | nil =>
    obtain rfl := Option.some.inj hpacked
    simp
  | cons record records ih =>
    have hplace : ∀ j, i + 1 + j = i + (j + 1) := fun j => by omega
    rw [exists_getElem?_cons
      (p := fun j (other : PageSetting) => other.url.isSome ∧ allocates (i + j) = false)]
    cases hurl : record.url with
    | none =>
      -- a record without a URL is skipped
      simp only [packPages, hurl] at hpacked
      obtain ⟨hlost, hslots⟩ := ih hpacked
      simp only [hplace] at hlost
      exact ⟨hlost.trans (or_iff_right (by simp)).symm, hslots⟩
    | some url =>
      simp only [packPages, hurl] at hpacked
      obtain ⟨tmp, -, hrest⟩ := Option.bind_eq_some_iff.mp hpacked
      split_ifs at hrest with hmemory
      · obtain ⟨hlost, hslots⟩ := ih hrest
        simp only [hplace] at hlost
        refine ⟨hlost.trans (or_iff_right (by simp [hmemory])).symm, fun slots hsome => ?_⟩
        rw [hslots slots hsome, Packing.pack, List.length_set]
      · -- memory for this page runs out
        obtain rfl := Option.some.inj hrest
        refine ⟨iff_of_true rfl (Or.inl ⟨rfl, by simpa using hmemory⟩), ?_⟩
        exact fun slots hsome => by cases hsome

/-- An action that counts pages needs a list. -/
theorem not_walkable_of_null {name : Block} {count : ℕ} (hcount : 0 < count) :
    ¬ (Action.mk name none count).Walkable := by
  rintro (hzero | ⟨slots, hslots, -⟩)
  · exact hcount.ne' hzero
  · cases hslots

/-- With memory for its array `read_url_list` leaves a list that bears its count unless it loses
the pages. -/
theorem walkable_readUrlList_iff {cfg : Config} {urls : StringList}
    (hurls : readUrlList calls allocates cfg 0 urlMaxCount variableList variableCount =
      some urls) (name : Block) :
    (Action.mk name urls.list urls.count).Walkable ↔ ¬ cfg.LosesPages true allocates := by
  unfold Config.LosesPages
  cases hpages : cfg.cachePages with
  | none =>
    simp only [readUrlList, hpages] at hurls
    obtain rfl := Option.some.inj hurls
    exact iff_of_true (Or.inl rfl) (by simp)
  | some records =>
    simp only [readUrlList, hpages, initStringList] at hurls
    simp only [Option.some.injEq, exists_eq_left', Bool.true_eq_false, false_and, false_or]
    split_ifs at hurls with hmany hnone
    · -- the count is stored before the test
      obtain rfl := Option.some.inj hurls
      exact iff_of_false (not_walkable_of_null (Nat.zero_lt_of_lt hmany))
        (not_not.mpr (Or.inl hmany))
    · -- an empty list has nothing to walk
      obtain rfl := Option.some.inj hurls
      have hempty : records = [] := List.eq_nil_of_length_eq_zero (by omega)
      exact iff_of_true (Or.inl (by simp [hempty])) (by simp [hempty])
    · obtain ⟨packed, hpacked, rfl⟩ := Option.map_eq_some_iff.mp hurls
      obtain ⟨hlost, hslots⟩ := packPages_inv hpacked
      simp only [Nat.zero_add] at hlost
      rw [← hlost]
      cases hlist : packed.1 with
      -- the list is given up, and its count stays
      | none => exact iff_of_false (not_walkable_of_null (Nat.le_of_not_lt hnone)) (by simp)
      | some slots =>
        have hlength := hslots slots hlist
        rw [List.length_replicate] at hlength
        exact iff_of_true (Or.inr ⟨slots, rfl, hlength.ge⟩) (by simpa [hlist] using hmany)

/-- `read_url_list` counts the records, whatever it returns. -/
theorem count_readUrlList {cfg : Config} {urls : StringList} {urlCount maximumCount : ℕ}
    (hurls : readUrlList calls allocates cfg urlCount maximumCount variableList variableCount =
      some urls) : urls.count = (cfg.cachePages.map List.length).getD urlCount := by
  cases hpages : cfg.cachePages with
  | none =>
    simp only [readUrlList, hpages] at hurls
    obtain rfl := Option.some.inj hurls
    rfl
  | some records =>
    simp only [readUrlList, hpages, initStringList] at hurls
    split_ifs at hurls
    · obtain rfl := Option.some.inj hurls
      rfl
    · obtain rfl := Option.some.inj hurls
      rfl
    · obtain ⟨packed, -, rfl⟩ := Option.map_eq_some_iff.mp hurls
      rfl

/-- `read_url_list` leaves a list that bears its count unless it loses the pages. -/
theorem walkable_readUrlListIn_iff {allocated : Bool} {cfg : Config} {urls : StringList}
    (hurls : readUrlListIn calls allocated allocates cfg 0 urlMaxCount variableList variableCount =
      some urls) (name : Block) :
    (Action.mk name urls.list urls.count).Walkable ↔ ¬ cfg.LosesPages allocated allocates := by
  cases allocated with
  | true => exact walkable_readUrlList_iff hurls name
  | false =>
    -- without an array there is no list, and the action can be walked if nothing is counted
    simp only [readUrlListIn, withArray, Bool.false_eq_true, if_false,
      Option.ite_none_right_eq_some] at hurls
    obtain ⟨-, hurls⟩ := hurls
    obtain ⟨counted, hcounted, rfl⟩ := Option.map_eq_some_iff.mp hurls
    have hcount := count_readUrlList hcounted
    unfold Config.LosesPages
    cases hpages : cfg.cachePages with
    | none =>
      rw [hpages] at hcount
      exact iff_of_true (Or.inl hcount) (by simp)
    | some records =>
      rw [hpages] at hcount
      have hlength : counted.count = records.length := hcount
      simp only [Option.some.injEq, exists_eq_left', true_and]
      by_cases hempty : records = []
      · subst hempty
        exact iff_of_true (Or.inl hlength) (by simp)
      · refine iff_of_false (not_walkable_of_null ?_) (not_not.mpr (Or.inr (Or.inl hempty)))
        exact hlength ▸ List.length_pos_iff.mpr hempty

end Pages

/-! ### The table -/

section Table

variable {calls : ℕ} {version : Block} {table : List Slot} {load : LoadCall}

theorem length_loadAction {allocates : Allocations} {includeFile : IncludeFile} {index : ℕ}
    {result : LoadResult}
    (hresult : loadAction calls allocates table includeFile index version = some result) :
    result.actions.length = table.length := by
  rcases loadAction_inv hresult with ⟨-, hactions, -⟩ | ⟨name, -, hactions, -⟩ |
    ⟨cfg, name, variableList, variableCount, urls, -, -, -, hactions, -⟩
  · rw [hactions]
  · rw [hactions, List.length_set, List.length_set]
  · rw [hactions, List.length_set, List.length_set]

/-- The actions of a table with one stored in a slot and NULL behind it. -/
theorem forall_mem_stored_iff {a : Action} {index : ℕ} (hindex : index < table.length)
    (hwalkable : ∀ other, .action other ∈ table → other.Walkable) :
    (∀ other, .action other ∈ (table.set index (.action a)).set (index + 1) .null →
      other.Walkable) ↔ a.Walkable := by
  constructor
  · intro hall
    refine hall a (List.mem_of_getElem? (i := index) ?_)
    rw [List.getElem?_set_ne (Nat.succ_ne_self index), List.getElem?_set_self hindex]
  · intro hstored other hother
    rcases List.mem_or_eq_of_mem_set hother with hother | hnull
    · rcases List.mem_or_eq_of_mem_set hother with hother | hsame
      · exact hwalkable other hother
      · obtain rfl := Slot.action.inj hsame
        exact hstored
    · cases hnull

/-- A call keeps the actions walkable unless it loses the pages of its file. -/
theorem LoadCall.walkable_iff {result : LoadResult} (hindex : load.index < table.length)
    (hresult : loadAction calls load.allocates table load.includeFile load.index version =
      some result) (hwalkable : ∀ a, .action a ∈ table → a.Walkable) :
    (∀ a, .action a ∈ result.actions → a.Walkable) ↔ ¬ load.LosesPages version := by
  rcases loadAction_inv hresult with ⟨houtcome, hactions, -⟩ | ⟨name, houtcome, hactions, -⟩ |
    ⟨cfg, name, variableList, variableCount, urls, hfile, houtcome, hurls, hactions, -⟩
  · rw [hactions]
    refine iff_of_true hwalkable ?_
    rintro ⟨⟨name, hloaded⟩, -⟩
    cases houtcome.symm.trans hloaded
  · -- an action that failed late has no pages
    rw [hactions, forall_mem_stored_iff hindex hwalkable]
    refine iff_of_true (Or.inl rfl) ?_
    rintro ⟨⟨name, hloaded⟩, -⟩
    cases houtcome.symm.trans hloaded
  · have hloses : load.LosesPages version ↔
        cfg.LosesPages load.allocates.urlArray load.allocates.urls := by
      constructor
      · rintro ⟨-, other, hother, hloses⟩
        obtain rfl := IncludeFile.parsed.inj (hfile.symm.trans hother)
        exact hloses
      · exact fun hloses => ⟨⟨_, houtcome⟩, cfg, hfile, hloses⟩
    rw [hactions, forall_mem_stored_iff hindex hwalkable, hloses]
    exact walkable_readUrlListIn_iff hurls (newAction name).name

theorem length_loadAll {final : List Slot} {loads : List LoadCall}
    (hfinal : loadAll calls version table loads = some final) : final.length = table.length := by
  induction loads generalizing table with
  | nil =>
    obtain rfl := Option.some.inj hfinal
    rfl
  | cons load loads ih =>
    rw [loadAll, List.foldlM_cons] at hfinal
    obtain ⟨next, hnext, hrest⟩ := Option.bind_eq_some_iff.mp hfinal
    obtain ⟨result, hresult, rfl⟩ := Option.map_eq_some_iff.mp hnext
    exact (ih hrest).trans (length_loadAction hresult)

/-- The last call of a sequence keeps the actions walkable unless it loses the pages of
its file. -/
theorem walkable_loadAll_succ {loads : List LoadCall} {n : ℕ} {after : List Slot}
    (hload : loads[n]? = some load) (hindex : load.index < table.length)
    (hafter : loadAll calls version table (loads.take (n + 1)) = some after) :
    ∃ before, loadAll calls version table (loads.take n) = some before ∧
      ((∀ a, .action a ∈ before → a.Walkable) →
        ((∀ a, .action a ∈ after → a.Walkable) ↔ ¬ load.LosesPages version)) := by
  rw [loadAll, List.take_add_one, hload, Option.toList_some, List.foldlM_append] at hafter
  obtain ⟨before, hbefore, hlast⟩ := Option.bind_eq_some_iff.mp hafter
  rw [List.foldlM_cons] at hlast
  obtain ⟨next, hnext, hsame⟩ := Option.bind_eq_some_iff.mp hlast
  obtain rfl := Option.some.inj hsame
  obtain ⟨result, hresult, rfl⟩ := Option.map_eq_some_iff.mp hnext
  refine ⟨before, hbefore, LoadCall.walkable_iff ?_ hresult⟩
  rwa [length_loadAll hbefore]

end Table

/-- After every sequence of `load_action` calls on a created table every action can be
walked if and only if no call of it loses the pages of its file. -/
theorem actions_walkable_iff (calls : ℕ) (version : Block) (fileCount : ℕ) (fresh : List Slot)
    (hcreated : createActions fileCount = some fresh) (loads : List LoadCall)
    (hindex : ∀ load ∈ loads, load.index < fileCount) :
    (∀ n table, loadAll calls version fresh (loads.take n) = some table →
        ∀ a, .action a ∈ table → a.Walkable) ↔
      ∀ (n : ℕ) (load : LoadCall) table, loads[n]? = some load →
        loadAll calls version fresh (loads.take (n + 1)) = some table →
          ¬ load.LosesPages version := by
  obtain ⟨hlength, hnone⟩ : fresh.length = fileCount ∧ ∀ a, Slot.action a ∉ fresh := by
    unfold createActions at hcreated
    split_ifs at hcreated
    obtain rfl := Option.some.inj hcreated
    refine ⟨by simp, fun a ha => ?_⟩
    rcases List.mem_or_eq_of_mem_set ha with ha | ha
    · cases List.eq_of_mem_replicate ha
    · cases ha
  have hinside : ∀ {n : ℕ} {load : LoadCall}, loads[n]? = some load →
      load.index < fresh.length := by
    intro n load hload
    rw [hlength]
    exact hindex load (List.mem_of_getElem? hload)
  constructor
  · intro hwalkable n load table hload htable
    obtain ⟨before, hbefore, hstep⟩ := walkable_loadAll_succ hload (hinside hload) htable
    exact (hstep (hwalkable n before hbefore)).mp (hwalkable (n + 1) table htable)
  · intro hkeeps n
    induction n with
    | zero =>
      intro table htable a ha
      obtain rfl : fresh = table := Option.some.inj htable
      exact absurd ha (hnone a)
    | succ n ih =>
      intro table htable
      cases hload : loads[n]? with
      | none =>
        -- the sequence is over already
        have hover := List.getElem?_eq_none_iff.mp hload
        rw [List.take_of_length_le (Nat.le_succ_of_le hover)] at htable
        rw [List.take_of_length_le hover] at ih
        exact ih table htable
      | some load =>
        obtain ⟨before, hbefore, hstep⟩ := walkable_loadAll_succ hload (hinside hload) htable
        exact (hstep (ih before hbefore)).mpr (hkeeps n load table hload htable)

/-- A file that configures a cache with one variable and some pages. -/
def pagesFile (pages : List PageSetting) : IncludeFile :=
  .parsed ⟨some (ascii "1.0"), some (ascii "a"), some [⟨some (ascii "v"), some (ascii "w")⟩],
    some pages⟩

/-- A page that is complete and one that is not can be walked. -/
theorem actions_walkable_two_pages :
    ∃ table, loadAll 1 (ascii "1.0") [.null]
        [⟨0, pagesFile [⟨some (ascii "u")⟩, ⟨none⟩], .whole⟩] = some table ∧
      ∀ a, .action a ∈ table → a.Walkable := by
  refine ⟨_, rfl, (actions_walkable_iff 1 (ascii "1.0") 1 [.null] rfl
    [⟨0, pagesFile [⟨some (ascii "u")⟩, ⟨none⟩], .whole⟩]
    (by simp)).mpr ?_ 1 _ rfl⟩
  rintro n load table hload - ⟨-, cfg, hfile, records, hrecords, hlost⟩
  obtain rfl := List.mem_singleton.mp (List.mem_of_getElem? hload)
  obtain rfl := IncludeFile.parsed.inj hfile
  obtain rfl := Option.some.inj hrecords
  rcases hlost with hmany | ⟨hfails, -⟩ | ⟨i, record, -, -, hfails⟩
  · exact absurd hmany (by decide)
  · cases hfails
  · cases hfails

/-- A file with 33 pages loads, with the count 33 and no list. -/
theorem action_not_walkable_with_many_pages :
    ∃ table, loadAll 0 (ascii "1.0") [.null]
        [⟨0, pagesFile (List.replicate 33 ⟨some (ascii "u")⟩), .whole⟩] = some table ∧
      ∃ a, .action a ∈ table ∧ ¬ a.Walkable :=
  ⟨_, rfl, _, List.mem_cons_self, not_walkable_of_null (by decide)⟩

end EasyForetell
