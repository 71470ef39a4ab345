import EasyForetell.ActionTable

/-!
# What a failed load leaves behind (action.c)

`load_action` registers the action of a file between its checks. A file that fails
before that leaves the table alone. One that fails behind it, in `read_variable_list`,
leaves an action without pages in its slot and NULL in the next one, and that shows
unless `find_action` does not get there or finds the same anyway.

## Main results

* `returns_iff`: which actions `find_action` can return
* `failed_load_keeps_actions_iff`: when a failed load keeps them
-/

namespace EasyForetell

open Memory

/-- `find_action` can return the action, from its slot. -/
def Returns (actions : List Slot) (index : ℕ) (a : Action) : Prop :=
  ∃ name, findAction (some actions) name = .found index a

/-- Every slot before an index holds an action of another name. -/
def FreshName (actions : List Slot) (index : ℕ) (name : List UInt8) : Prop :=
  ∀ j < index, ∃ a, actions[j]? = some (.action a) ∧ cstr a.name ≠ name

/-- What a file leaves in its slot that declares a name and fails for its variables. -/
def emptyAction (name : List UInt8) : Action := ⟨name ++ [0], none, 0⟩

theorem newAction_eq (name : Block) : newAction name = emptyAction (cstr name) := by
  rw [newAction, emptyAction, strcpy, store_zero, List.drop_nil, List.append_nil]

section Scan

variable {actions : List Slot} {index : ℕ} {a : Action}

theorem freshName_cons {slot : Slot} {name : List UInt8} :
    FreshName (slot :: actions) (index + 1) name ↔
      (∃ a, slot = .action a ∧ cstr a.name ≠ name) ∧ FreshName actions index name := by
  unfold FreshName
  rw [Nat.forall_lt_succ_left]
  simp

/-- The scan finds the first action of the name, if no slot before it is without an
action. -/
theorem findActionFrom_eq_found_iff (name : Block) {start place : ℕ} :
    findActionFrom name actions start = .found place a ↔
      ∃ index, place = start + index ∧ actions[index]? = some (.action a) ∧
        cstr a.name = cstr name ∧ FreshName actions index (cstr name) := by
  induction actions generalizing start with
  | nil => simp [findActionFrom]
  | cons slot actions ih =>
    cases slot with
    | uninitialised | null =>
      -- the scan ends here
      refine iff_of_false (fun hfound => by cases hfound) ?_
      rintro ⟨_ | index, -, hslot, -, hfresh⟩
      · cases hslot
      · obtain ⟨⟨b, hb, -⟩, -⟩ := freshName_cons.mp hfresh
        cases hb
    | action b =>
      by_cases hname : cstr b.name = cstr name
      · simp only [findActionFrom, if_pos hname, Lookup.found.injEq]
        constructor
        · rintro ⟨rfl, rfl⟩
          exact ⟨0, rfl, rfl, hname, fun j hj => absurd hj (Nat.not_lt_zero j)⟩
        · rintro ⟨_ | index, rfl, hslot, -, hfresh⟩
          · exact ⟨rfl, Slot.action.inj (Option.some.inj hslot)⟩
          · obtain ⟨⟨c, hc, hother⟩, -⟩ := freshName_cons.mp hfresh
            obtain rfl := Slot.action.inj hc
            exact absurd hname hother
      · simp only [findActionFrom, if_neg hname]
        rw [ih]
        constructor
        · rintro ⟨index, rfl, hslot, hsame, hfresh⟩
          exact ⟨index + 1, by omega, hslot, hsame, freshName_cons.mpr ⟨⟨b, rfl, hname⟩, hfresh⟩⟩
        · rintro ⟨_ | index, rfl, hslot, hsame, hfresh⟩
          · obtain rfl := Slot.action.inj (Option.some.inj hslot)
            exact absurd hsame hname
          · exact ⟨index, by omega, hslot, hsame, (freshName_cons.mp hfresh).2⟩

/-- `find_action` can return an action when all slots before it hold actions of other
names. -/
theorem returns_iff :
    Returns actions index a ↔
      actions[index]? = some (.action a) ∧ FreshName actions index (cstr a.name) := by
  constructor
  · rintro ⟨name, hfound⟩
    obtain ⟨place, hplace, hslot, hname, hfresh⟩ := (findActionFrom_eq_found_iff name).mp hfound
    obtain rfl : index = place := by omega
    exact ⟨hslot, hname ▸ hfresh⟩
  · rintro ⟨hslot, hfresh⟩
    exact ⟨a.name, (findActionFrom_eq_found_iff a.name).mpr
      ⟨index, (Nat.zero_add index).symm, hslot, rfl, hfresh⟩⟩

end Scan

section Stored

variable {actions : List Slot} {index i : ℕ} {a new : Action}

theorem getElem?_stored_of_lt (hi : i < index) :
    ((actions.set index (.action new)).set (index + 1) .null)[i]? = actions[i]? := by
  rw [List.getElem?_set_ne (by omega), List.getElem?_set_ne (by omega)]

/-- What is found before a slot does not depend on the slots from there on. -/
theorem returns_stored_of_lt (hi : i < index) :
    Returns ((actions.set index (.action new)).set (index + 1) .null) i a ↔
      Returns actions i a := by
  rw [returns_iff, returns_iff, getElem?_stored_of_lt hi]
  refine and_congr_right fun _ => forall₂_congr fun j hj => ?_
  rw [getElem?_stored_of_lt (hj.trans hi)]

/-- The action stored is found unless a slot before it is without an action or has one of
its name. -/
theorem returns_stored_self (hindex : index < actions.length) :
    Returns ((actions.set index (.action new)).set (index + 1) .null) index a ↔
      a = new ∧ FreshName actions index (cstr new.name) := by
  rw [returns_iff, List.getElem?_set_ne (by omega), List.getElem?_set_self hindex]
  simp only [Option.some.injEq, Slot.action.injEq, eq_comm (a := new)]
  refine and_congr_right ?_
  rintro rfl
  refine forall₂_congr fun j hj => ?_
  rw [getElem?_stored_of_lt hj]

/-- Nothing is found behind it. -/
theorem not_returns_stored (hi : index < i) :
    ¬ Returns ((actions.set index (.action new)).set (index + 1) .null) i a := by
  rw [returns_iff]
  rintro ⟨hslot, hfresh⟩
  have hnull : ∀ b, ((actions.set index (.action new)).set (index + 1) .null)[index + 1]? ≠
      some (.action b) := by
    intro b
    rw [List.getElem?_set_self']
    cases (actions.set index (.action new))[index + 1]? <;> nofun
  rcases (Nat.succ_le_of_lt hi).eq_or_lt with rfl | hlater
  · exact hnull a hslot
  · obtain ⟨b, hb, -⟩ := hfresh (index + 1) hlater
    exact hnull b hb

/-- Storing an action and NULL behind it keeps what `find_action` can return in two
cases: it gets to the slot, where it finds the same action already and none behind it;
or it does not, and finds none from the slot on. -/
theorem returns_stored_iff (hindex : index < actions.length) :
    (∀ i a, Returns ((actions.set index (.action new)).set (index + 1) .null) i a ↔
        Returns actions i a) ↔
      (Returns actions index new ∧ ∀ i a, Returns actions i a → i ≤ index) ∨
        (¬ FreshName actions index (cstr new.name) ∧ ∀ i a, Returns actions i a → i < index) := by
  constructor
  · intro hsame
    -- behind the NULL that ends the table nothing is found any more
    have hbounded : ∀ i a, Returns actions i a → i ≤ index := by
      intro i a hreturns
      by_contra hbehind
      exact not_returns_stored (Nat.lt_of_not_le hbehind) ((hsame i a).mpr hreturns)
    by_cases hfresh : FreshName actions index (cstr new.name)
    · exact Or.inl ⟨(hsame index new).mp ((returns_stored_self hindex).mpr ⟨rfl, hfresh⟩),
        hbounded⟩
    · refine Or.inr ⟨hfresh, fun i a hreturns => lt_of_le_of_ne (hbounded i a hreturns) ?_⟩
      rintro rfl
      exact hfresh ((returns_stored_self hindex).mp ((hsame _ a).mpr hreturns)).2
  · intro hcases i a
    rcases lt_trichotomy i index with hbefore | rfl | hbehind
    · exact returns_stored_of_lt hbefore
    · rw [returns_stored_self hindex]
      rcases hcases with ⟨hnew, -⟩ | ⟨hfresh, hbounded⟩
      · -- the slot holds the same action before and after
        rw [returns_iff] at hnew ⊢
        constructor
        · rintro ⟨rfl, -⟩
          exact hnew
        · rintro ⟨hslot, -⟩
          obtain rfl := Slot.action.inj (Option.some.inj (hnew.1.symm.trans hslot))
          exact ⟨rfl, hnew.2⟩
      · exact iff_of_false (fun h => hfresh h.2) fun h => Nat.lt_irrefl _ (hbounded _ a h)
    · -- behind the slot there was nothing to find before either
      refine iff_of_false (not_returns_stored hbehind) fun hreturns => ?_
      rcases hcases with ⟨-, hbounded⟩ | ⟨-, hbounded⟩
      · exact absurd (hbounded i a hreturns) (Nat.not_le_of_lt hbehind)
      · exact absurd (hbounded i a hreturns).le (Nat.not_le_of_lt hbehind)

end Stored

/-- A call of `load_action` that returns 0 keeps the actions that `find_action` can
return, with their lists, if and only if the file fails before it declares a name; or
the slot of the file already holds what the call leaves there and nothing behind it is
found; or an earlier slot is without an action, or has one of the name, and nothing from
the slot of the file on is found. -/
theorem failed_load_keeps_actions_iff (calls : ℕ) (allocates : Allocations) (actions : List Slot)
    (includeFile : IncludeFile) (index : ℕ) (version : Block) (result : LoadResult)
    (hindex : index < actions.length)
    (hresult : loadAction calls allocates actions includeFile index version = some result)
    (hfailed : result.res = 0) :
    (∀ i a, Returns result.actions i a ↔ Returns actions i a) ↔
      loadOutcome version includeFile allocates = .early ∨
        ∃ name, loadOutcome version includeFile allocates = .late name ∧
          ((Returns actions index (emptyAction name) ∧ ∀ i a, Returns actions i a → i ≤ index) ∨
            (¬ FreshName actions index name ∧ ∀ i a, Returns actions i a → i < index)) := by
  rcases loadAction_inv hresult with ⟨hearly, hactions, -⟩ | ⟨stored, hlate, hactions, -⟩ |
    ⟨cfg, stored, variableList, variableCount, urls, -, -, -, -, hres⟩
  · rw [hactions]
    exact iff_of_true (fun i a => Iff.rfl) (Or.inl hearly)
  · have hname : cstr (emptyAction (cstr stored)).name = cstr stored :=
      cstr_append_nul (nul_notMem_cstr stored)
    rw [hactions, newAction_eq, returns_stored_iff hindex, hname, hlate]
    simp
  · omega

/-- A file that cannot be parsed leaves a table with an action alone. -/
theorem failed_load_keeps_actions_broken :
    ∃ result, loadAction 0 .whole [.action (emptyAction (ascii "a")), .null]
        (.broken (ascii "syntax error")) 1 (ascii "1.0") = some result ∧
      ∀ i a, Returns result.actions i a ↔
        Returns [.action (emptyAction (ascii "a")), .null] i a :=
  ⟨_, rfl, (failed_load_keeps_actions_iff 0 .whole
    [.action (emptyAction (ascii "a")), .null] (.broken (ascii "syntax error")) 1 (ascii "1.0")
    _ (by decide) rfl rfl).mpr (Or.inl rfl)⟩

/-- A file without variables declares the cache `a`, returns 0, and `find_action` returns
its action afterwards. -/
theorem failed_load_registers_action :
    ∃ result, loadAction 0 .whole [.null]
        (.parsed ⟨some (ascii "1.0"), some (ascii "a"), none, none⟩) 0 (ascii "1.0") = some result ∧
      result.res = 0 ∧ Returns result.actions 0 (emptyAction (ascii "a")) ∧
      ∀ i a, ¬ Returns [.null] i a := by
  refine ⟨_, rfl, rfl, ⟨ascii "a", rfl⟩, ?_⟩
  rintro i a ⟨name, hfound⟩
  cases hfound

end EasyForetell
