import EasyForetell.Theory.Template

/-!
# Expanding every reference of a text

A text may hold marks that start no reference, and marks behind which several names can
be read. Read from its end, it expands to one text. When the expansion puts no name
behind a mark that did not stand there, and no mark has two names behind it, replacing
any reference by its value leads to a text of the same kind with the same expansion. So
all orders of replacing end with one text.

## Main results

* `expandAll_rewrite`: replacing a reference does not change the expansion
* `Stage.of_rewriting`: what is left of the references, for any run of one rule
* `Stage.eq_expandAll`: a text without references is the expansion
-/

namespace EasyForetell.Theory.Expansion

variable {α ι : Type*} [DecidableEq α]

section Definitions

variable (mark : α) (name value : ι → List α) (names : List ι)

/-- A symbol in front of an expanded text: a mark becomes the value of a name with which
that text begins. -/
def expandFirst (a : α) (expanded : List α) : List α :=
  if a = mark then
    match names.find? fun i => (name i).isPrefixOf expanded with
    | some i => value i ++ expanded.drop (name i).length
    | none => a :: expanded
  else a :: expanded

/-- Expand the references of a text from its end on. -/
def expandAll (text : List α) : List α :=
  text.foldr (expandFirst mark name value names) []

/-- Behind each mark the expanded text begins with one of the names at most, and with
none that does not stand there in the text. -/
def Unambiguous : List α → Prop
  | [] => True
  | a :: text =>
    (a = mark → ∀ i ∈ names, name i <+: expandAll mark name value names text →
        name i <+: text ∧
          ∀ j ∈ names, name j <+: expandAll mark name value names text → j = i) ∧
      Unambiguous text

instance decidableUnambiguous [DecidableEq ι] :
    ∀ text, Decidable (Unambiguous mark name value names text)
  | [] => inferInstanceAs (Decidable True)
  | _ :: text =>
    have := decidableUnambiguous text
    inferInstanceAs (Decidable (_ ∧ _))

/-- A text that replacing references made of an unambiguous one. -/
structure Stage (text text' : List α) : Prop where
  unambiguous : Unambiguous mark name value names text'
  expandAll_eq : expandAll mark name value names text' = expandAll mark name value names text
  references : ∀ i ∈ names, mark :: name i <:+: text' → mark :: name i <:+: text

end Definitions

section Expanding

variable {mark : α} {name value : ι → List α} {names : List ι} {text text' before after : List α}
  {i : ι}

@[simp] theorem expandAll_nil : expandAll mark name value names [] = [] := rfl

theorem expandAll_cons (a : α) (text : List α) :
    expandAll mark name value names (a :: text) =
      expandFirst mark name value names a (expandAll mark name value names text) := rfl

/-- What stands in front sees the expansion of the rest only. -/
theorem expandAll_append_congr (before : List α)
    (hrest : expandAll mark name value names text = expandAll mark name value names text') :
    expandAll mark name value names (before ++ text) =
      expandAll mark name value names (before ++ text') := by
  induction before with
  | nil => exact hrest
  | cons a before ih => rw [List.cons_append, List.cons_append, expandAll_cons, expandAll_cons, ih]

/-- A text without marks stays as it is. -/
theorem expandAll_append_of_unmarked (hbefore : mark ∉ before) (text : List α) :
    expandAll mark name value names (before ++ text) =
      before ++ expandAll mark name value names text := by
  induction before with
  | nil => rfl
  | cons a before ih =>
    obtain ⟨hfirst, hlater⟩ := List.ne_and_not_mem_of_not_mem_cons hbefore
    rw [List.cons_append, expandAll_cons, ih hlater, expandFirst, if_neg (Ne.symm hfirst),
      List.cons_append]

/-- A name that begins the text begins the expansion. -/
theorem prefix_expandAll (value : ι → List α) (names : List ι) (hname : mark ∉ name i)
    (hbegins : name i <+: text) :
    name i <+: expandAll mark name value names text := by
  obtain ⟨rest, rfl⟩ := hbegins
  rw [expandAll_append_of_unmarked hname]
  exact List.prefix_append _ _

omit [DecidableEq α] in
/-- A name in front of a mark does not reach into it. -/
theorem prefix_of_prefix_append_mark (hname : mark ∉ name i)
    (hbegins : name i <+: before ++ mark :: after) : name i <+: before := by
  obtain ⟨rest, hrest⟩ := hbegins
  obtain ⟨before', rfl, -⟩ := Template.append_eq_mark_split hname hrest
  exact List.prefix_append _ _

theorem unambiguous_append_of_unmarked (hbefore : mark ∉ before) :
    Unambiguous mark name value names (before ++ text) ↔ Unambiguous mark name value names text := by
  induction before with
  | nil => rfl
  | cons a before ih =>
    obtain ⟨hfirst, hlater⟩ := List.ne_and_not_mem_of_not_mem_cons hbefore
    rw [List.cons_append, Unambiguous, ih hlater]
    exact and_iff_right fun hmark => absurd hmark.symm hfirst

theorem Unambiguous.of_append (hunambiguous : Unambiguous mark name value names (before ++ text)) :
    Unambiguous mark name value names text := by
  induction before with
  | nil => exact hunambiguous
  | cons a before ih => exact ih hunambiguous.2

/-- A reference in front expands to its value. -/
theorem expandAll_reference (hi : i ∈ names) (hname : mark ∉ name i)
    (hunambiguous : Unambiguous mark name value names (mark :: (name i ++ after))) :
    expandAll mark name value names (mark :: (name i ++ after)) =
      value i ++ expandAll mark name value names after := by
  have hbegins := prefix_expandAll value names hname (List.prefix_append (name i) after)
  obtain ⟨-, honly⟩ := hunambiguous.1 rfl i hi hbegins
  rw [expandAll_cons, expandFirst, if_pos rfl]
  cases hfound : names.find? fun j =>
      (name j).isPrefixOf (expandAll mark name value names (name i ++ after)) with
  | none =>
    exact absurd (List.isPrefixOf_iff_prefix.mpr hbegins) (List.find?_eq_none.mp hfound i hi)
  | some j =>
    -- the name that is found is the one that stands there
    have hj := List.find?_some hfound
    obtain rfl := honly j (List.mem_of_find?_eq_some hfound) (List.isPrefixOf_iff_prefix.mp hj)
    dsimp only
    rw [expandAll_append_of_unmarked hname, List.drop_left]

end Expanding

/-! ### Replacing references -/

section Replacing

variable {mark : α} {name value : ι → List α} {names : List ι} {text text' before after : List α}
  {i : ι}

/-- Replacing a reference by its value does not change the expansion. -/
theorem expandAll_rewrite (hi : i ∈ names) (hname : mark ∉ name i) (hvalue : mark ∉ value i)
    (hunambiguous : Unambiguous mark name value names (before ++ mark :: (name i ++ after))) :
    expandAll mark name value names (before ++ (value i ++ after)) =
      expandAll mark name value names (before ++ mark :: (name i ++ after)) := by
  apply expandAll_append_congr
  rw [expandAll_append_of_unmarked hvalue,
    expandAll_reference hi hname (hunambiguous.of_append)]

theorem Unambiguous.rewrite (hnames : ∀ j ∈ names, mark ∉ name j) (hi : i ∈ names)
    (hvalue : mark ∉ value i)
    (hunambiguous : Unambiguous mark name value names (before ++ mark :: (name i ++ after))) :
    Unambiguous mark name value names (before ++ (value i ++ after)) := by
  induction before with
  | nil =>
    rw [List.nil_append, unambiguous_append_of_unmarked hvalue]
    exact (unambiguous_append_of_unmarked (hnames i hi)).mp hunambiguous.2
  | cons a before ih =>
    rw [List.cons_append] at hunambiguous ⊢
    obtain ⟨hfirst, hlater⟩ := hunambiguous
    refine ⟨fun hmark j hj hbegins => ?_, ih hlater⟩
    -- the symbol is followed by the same expansion as before
    rw [expandAll_rewrite hi (hnames i hi) hvalue hlater] at hbegins ⊢
    obtain ⟨hstands, honly⟩ := hfirst hmark j hj hbegins
    -- and the name ends before the reference that was replaced
    exact ⟨(prefix_of_prefix_append_mark (hnames j hj) hstands).trans (List.prefix_append _ _),
      honly⟩

/-- Replacing a reference makes no new one. -/
theorem reference_of_rewrite (hnames : ∀ j ∈ names, mark ∉ name j) (hi : i ∈ names)
    (hvalue : mark ∉ value i)
    (hunambiguous : Unambiguous mark name value names (before ++ mark :: (name i ++ after)))
    {j : ι} (hj : j ∈ names) (hreference : mark :: name j <:+: before ++ (value i ++ after)) :
    mark :: name j <:+: before ++ mark :: (name i ++ after) := by
  induction before with
  | nil =>
    -- the mark does not stand in the value, so the reference stands behind it
    obtain ⟨first, second, hsplit⟩ := hreference
    rw [List.append_assoc, List.cons_append] at hsplit
    obtain ⟨first', rfl, hafter⟩ := Template.append_eq_mark_split hvalue hsplit.symm
    refine ⟨mark :: (name i ++ first'), second, ?_⟩
    rw [hafter]
    simp
  | cons a before ih =>
    rw [List.cons_append] at hunambiguous hreference ⊢
    obtain ⟨hfirst, hlater⟩ := hunambiguous
    rcases List.infix_cons_iff.mp hreference with hhere | hthere
    · obtain ⟨rfl, hbegins⟩ := List.cons_prefix_cons.mp hhere
      have hexpanded := prefix_expandAll value names (hnames j hj) hbegins
      rw [expandAll_rewrite hi (hnames i hi) hvalue hlater] at hexpanded
      obtain ⟨hstands, -⟩ := hfirst rfl j hj hexpanded
      exact (List.cons_prefix_cons.mpr ⟨rfl, hstands⟩).isInfix
    · exact List.infix_cons (ih hlater hthere)

namespace Stage

theorem refl (hunambiguous : Unambiguous mark name value names text) :
    Stage mark name value names text text :=
  ⟨hunambiguous, rfl, fun _ _ => id⟩

theorem trans {text'' : List α} (hfirst : Stage mark name value names text text')
    (hsecond : Stage mark name value names text' text'') :
    Stage mark name value names text text'' where
  unambiguous := hsecond.unambiguous
  expandAll_eq := hsecond.expandAll_eq.trans hfirst.expandAll_eq
  references i hi hreference := hfirst.references i hi (hsecond.references i hi hreference)

/-- Replacing one reference leads to the next stage. -/
theorem of_rewrite (hnames : ∀ j ∈ names, mark ∉ name j) (hi : i ∈ names) (hvalue : mark ∉ value i)
    (hunambiguous : Unambiguous mark name value names (before ++ (mark :: name i) ++ after)) :
    Stage mark name value names (before ++ (mark :: name i) ++ after)
      (before ++ value i ++ after) := by
  simp only [List.append_assoc, List.cons_append] at hunambiguous ⊢
  exact ⟨hunambiguous.rewrite hnames hi hvalue,
    expandAll_rewrite hi (hnames i hi) hvalue hunambiguous,
    fun j hj => reference_of_rewrite hnames hi hvalue hunambiguous hj⟩

/-- Any run of the rule for one name leads to a later stage. -/
theorem of_rewriting {allowed : List α → List α → Prop}
    [∀ before after, Decidable (allowed before after)] (hnames : ∀ j ∈ names, mark ∉ name j)
    (hi : i ∈ names) (hvalue : mark ∉ value i)
    (hunambiguous : Unambiguous mark name value names text)
    (hrewriting : Relation.ReflTransGen (fun first second =>
      rewriteFirst allowed (mark :: name i) (value i) first = .rewritten second) text text') :
    Stage mark name value names text text' := by
  induction hrewriting with
  | refl => exact refl hunambiguous
  | tail _ hlast ih =>
    obtain ⟨before, after, rfl, rfl, -⟩ := rewriteFirst_eq_rewritten hlast
    exact ih.trans (of_rewrite hnames hi hvalue ih.unambiguous)

/-- A stage without references is the expansion. -/
theorem eq_expandAll (hstage : Stage mark name value names text text')
    (hnone : ∀ i ∈ names, ¬ mark :: name i <:+: text') :
    text' = expandAll mark name value names text := by
  rw [← hstage.expandAll_eq]
  clear hstage
  induction text' with
  | nil => rfl
  | cons a text' ih =>
    have hlater := ih fun i hi hreference => hnone i hi (List.infix_cons hreference)
    rw [expandAll_cons, ← hlater, expandFirst]
    split_ifs with hmark
    · have hfound : (names.find? fun i => (name i).isPrefixOf text') = none := by
        refine List.find?_eq_none.mpr fun i hi hbegins => ?_
        refine hnone i hi (List.IsPrefix.isInfix ?_)
        exact List.cons_prefix_cons.mpr ⟨hmark.symm, List.isPrefixOf_iff_prefix.mp hbegins⟩
      rw [hfound]
    · rfl

end Stage

end Replacing

end EasyForetell.Theory.Expansion
