import EasyForetell.Substitution
import EasyForetell.Theory.Expansion

/-!
# The order of the variables (config_utils.c, substitute_variables)

`substitute_variables` searches the text for one reference after the other, in the order
of the list, and what one variable put there is part of the text for the next. A name
that begins with another one, or a `$` in front of a reference, is then read as one
variable or the other, depending on which comes first. Where each `$` can be read in one
way only, all orders leave the same text.

## Main results

* `substitution_order_irrelevant`: two orders of the variables leave the same text
* `substitution_order_matters`: on URLs that can be read in two ways they do not
-/

namespace EasyForetell

open Memory Theory

/-! ### Runs that fit in a line -/

/-- The name and the value of the variable are words without `$`. -/
structure StoredVariable.Plain (v : StoredVariable) : Prop where
  name_ne_nil : v.name ≠ []
  name_noMark : variableMark ∉ v.name
  value_ne_nil : v.value ≠ []
  value_noSpace : varSeparator ∉ v.value
  value_noMark : variableMark ∉ v.value

/-- Where the text has a reference to the variable, the value fits in its place. -/
def StoredVariable.Fits (v : StoredVariable) (text : List UInt8) : Prop :=
  ∀ before after, text = before ++ v.reference ++ after →
    (before ++ v.recovered ++ after).length < maxLineLength

/-- The URL, and each text that the run over the variables makes of it, fits in a line. -/
structure RunFits (vars : List StoredVariable) (url : List UInt8) : Prop where
  url_fits : url.length < maxLineLength
  replaced_fits : ∀ v text, Turn vars url v text →
    ∀ text', Relation.ReflTransGen v.Replaces text text' → v.Fits text'

/-- Two lists of the same plain variables of different names, in any order, with a URL
for which both runs fit in a line. -/
structure Reordered (vars vars' : List StoredVariable) (url : List UInt8) : Prop where
  perm : vars.Perm vars'
  plain : ∀ v ∈ vars, v.Plain
  distinct : vars.Pairwise fun v w => v.name ≠ w.name
  fits : RunFits vars url
  fits' : RunFits vars' url

/-- What `substitute_variables` leaves of a URL with the variables of a configuration. -/
def SubstitutionLeaves (cfg : Config) (variableCount maximumCount : ℕ) (url : Block)
    (text : List UInt8) : Prop :=
  let stored := readVariableList (fun _ => true) cfg variableCount maximumCount
  ∃ enough, ∀ calls ≥ enough,
    (substituteVariables calls url maxLineLength (stored.list.getD []) stored.count).map cstr =
      some text

section Fitting

variable {v : StoredVariable} {vars : List StoredVariable} {url text text' : List UInt8}

/-- A reference is replaced where its value fits. -/
theorem StoredVariable.Fits.exists_replaces (hfits : v.Fits text)
    (hoccurs : v.reference <:+: text) : ∃ text', v.Replaces text text' := by
  refine exists_rewritten v.recovered hoccurs fun before after hsplit => ?_
  have hlength := hfits before after hsplit
  simp only [List.length_append] at hlength
  exact ⟨by omega, by omega⟩

/-- After the turn of a variable no reference to it is left. -/
theorem StoredVariable.Substitutes.reference_notMem (hsubstitutes : v.Substitutes text text')
    (hfits : v.Fits text') : ¬ v.reference <:+: text' := by
  intro hoccurs
  obtain ⟨text'', hreplaces⟩ := hfits.exists_replaces hoccurs
  exact hsubstitutes.2 text'' hreplaces

/-- A value that is no longer than the reference does not lengthen the text. -/
theorem length_le_of_replaces (hshort : v.recovered.length ≤ v.reference.length)
    (hreplaces : Relation.ReflTransGen v.Replaces text text') : text'.length ≤ text.length := by
  induction hreplaces with
  | refl => exact Nat.le_refl _
  | tail _ hlast ih =>
    obtain ⟨before, after, rfl, rfl, -⟩ := rewriteFirst_eq_rewritten hlast
    simp only [List.length_append] at ih ⊢
    omega

theorem length_le_of_turn (hshort : ∀ w ∈ vars, w.recovered.length ≤ w.reference.length)
    (hturn : Turn vars url v text) : v ∈ vars ∧ text.length ≤ url.length := by
  induction hturn with
  | now => exact ⟨List.mem_cons_self, Nat.le_refl _⟩
  | later hfirst _ ih =>
    obtain ⟨hhead, htail⟩ := List.forall_mem_cons.mp hshort
    obtain ⟨hmem, hlength⟩ := ih htail
    exact ⟨List.mem_cons_of_mem _ hmem, hlength.trans (length_le_of_replaces hhead hfirst.1)⟩

/-- Values that are no longer than their references fit wherever the URL does. -/
theorem runFits_of_not_longer (hurl : url.length < maxLineLength)
    (hshort : ∀ w ∈ vars, w.recovered.length ≤ w.reference.length) : RunFits vars url := by
  refine ⟨hurl, fun v text hturn text' hreplaces before after hsplit => ?_⟩
  obtain ⟨hmem, hstart⟩ := length_le_of_turn hshort hturn
  have hnow := length_le_of_replaces (hshort v hmem) hreplaces
  have hvalue := hshort v hmem
  rw [hsplit] at hnow
  simp only [List.length_append] at hnow ⊢
  omega

end Fitting

/-! ### What a run leaves -/

open Expansion

section Runs

variable {names vars : List StoredVariable}

/-- In its turn a plain variable leads to a later stage of the expansion. -/
theorem stage_of_substitutes {v : StoredVariable} {text text' : List UInt8}
    (hplain : ∀ w ∈ names, w.Plain) (hv : v ∈ names)
    (hunambiguous : Unambiguous variableMark StoredVariable.name StoredVariable.value names text)
    (hsubstitutes : v.Substitutes text text') :
    Stage variableMark StoredVariable.name StoredVariable.value names text text' := by
  have hrewriting := hsubstitutes.1
  unfold StoredVariable.Replaces replaceText at hrewriting
  rw [StoredVariable.recovered_of_word (hplain v hv).value_ne_nil (hplain v hv).value_noSpace]
    at hrewriting
  exact Stage.of_rewriting (fun w hw => (hplain w hw).name_noMark) hv (hplain v hv).value_noMark
    hunambiguous hrewriting

/-- The loop over plain variables ends, with a later stage of the expansion in which
none of them is referred to. -/
theorem substituteLoop_stage (hplain : ∀ w ∈ names, w.Plain) (hvars : ∀ v ∈ vars, v ∈ names)
    (buffers : VariableBuffers) {str : Block}
    (hunambiguous : Unambiguous variableMark StoredVariable.name StoredVariable.value names
      (cstr str))
    (hfits : ∀ v text, Turn vars (cstr str) v text →
      ∀ text', Relation.ReflTransGen v.Replaces text text' → v.Fits text') :
    ∃ calls text, substituteLoop calls maxLineLength (storedLines vars) buffers str = some text ∧
      Stage variableMark StoredVariable.name StoredVariable.value names (cstr str) (cstr text) ∧
      ∀ v ∈ vars, ¬ v.reference <:+: cstr text := by
  induction vars generalizing buffers str with
  | nil => exact ⟨0, str, rfl, Stage.refl hunambiguous, by simp⟩
  | cons v vars ih =>
    obtain ⟨hv, hlater⟩ := List.forall_mem_cons.mp hvars
    -- the value has no `$`, so it is not the reference
    have hends : ¬ v.SelfReferring (cstr str) := by
      rintro ⟨hself, -⟩
      rw [StoredVariable.recovered_of_word (hplain v hv).value_ne_nil (hplain v hv).value_noSpace]
        at hself
      exact (hplain v hv).value_noMark (hself ▸ List.mem_cons_self)
    obtain ⟨calls, between, hloop⟩ : ∃ calls between,
        replaceLoop maxLineLength (buffers.recover maxLineLength v.line) calls str =
          some between := (replaceLoop_line_ends_iff v).mpr hends
    have hsubstitutes := replaceLoop_line_iff.mp ⟨calls, between, hloop, rfl⟩
    have hfirst := stage_of_substitutes hplain hv hunambiguous hsubstitutes
    have hgone := hsubstitutes.reference_notMem (hfits v _ .now _ hsubstitutes.1)
    obtain ⟨calls', text, hrest, hsecond, hothers⟩ :=
      ih hlater (buffers.recover maxLineLength v.line) hfirst.unambiguous
        fun w text hturn => hfits w text (.later hsubstitutes hturn)
    refine ⟨max calls calls', text, substituteLoop_cons_of_loop hloop hrest,
      hfirst.trans hsecond, List.forall_mem_cons.mpr ⟨fun hreference => ?_, hothers⟩⟩
    -- the other variables do not bring the reference back
    exact hgone (hsecond.references v hv hreference)

/-- A list of all the variables, in any order, leaves the expansion of the URL. -/
theorem substitutionLeaves_expandAll (cfg : Config) (hplain : ∀ v ∈ names, v.Plain)
    (hvars : ∀ v, v ∈ vars ↔ v ∈ names)
    (hcfg : cfg.cacheVariables = some (vars.map StoredVariable.setting)) {maximumCount : ℕ}
    (hcount : vars.length ≤ maximumCount) (variableCount : ℕ) {url : Block}
    (hfits : RunFits vars (cstr url))
    (hunambiguous : Unambiguous variableMark StoredVariable.name StoredVariable.value names
      (cstr url)) :
    SubstitutionLeaves cfg variableCount maximumCount url
      (expandAll variableMark StoredVariable.name StoredVariable.value names (cstr url)) := by
  obtain ⟨enough, text, hresult, hstage, hnone⟩ := substituteLoop_stage hplain
    (fun v => (hvars v).mp) ⟨[], []⟩ hunambiguous hfits.replaced_fits
  refine ⟨enough, fun calls hcalls => ?_⟩
  rw [substituteVariables_stored hcfg hcount, substituteLoop_mono hcalls hresult]
  exact congrArg some (hstage.eq_expandAll fun v hv => hnone v ((hvars v).mpr hv))

end Runs

/-! ### Two orders -/

/-- Plain variables of different names leave the same text in any two orders in which
all texts fit in a line, if each `$` of the URL can be read in one way only: what stands
behind it, with its references expanded, begins with one of the names at most, and with
none that does not stand there in the URL. -/
theorem substitution_order_irrelevant (cfg cfg' : Config) (vars vars' : List StoredVariable)
    (url : Block) (hreordered : Reordered vars vars' (cstr url))
    (hcfg : cfg.cacheVariables = some (vars.map StoredVariable.setting))
    (hcfg' : cfg'.cacheVariables = some (vars'.map StoredVariable.setting))
    (variableCount maximumCount : ℕ) (hcount : vars.length ≤ maximumCount)
    (hunambiguous : Unambiguous variableMark StoredVariable.name StoredVariable.value vars
      (cstr url)) :
    ∃ text, SubstitutionLeaves cfg variableCount maximumCount url text ∧
      SubstitutionLeaves cfg' variableCount maximumCount url text := by
  refine ⟨expandAll variableMark StoredVariable.name StoredVariable.value vars (cstr url), ?_, ?_⟩
  · exact substitutionLeaves_expandAll cfg hreordered.plain (fun v => Iff.rfl) hcfg hcount
      variableCount hreordered.fits hunambiguous
  · -- the second list has the same variables
    exact substitutionLeaves_expandAll cfg' hreordered.plain
      (fun v => hreordered.perm.mem_iff.symm) hcfg' (hreordered.perm.length_eq ▸ hcount)
      variableCount hreordered.fits' hunambiguous

/-- The variable `a` with the value `b`. -/
def variableA : StoredVariable :=
  .ofRecord (ascii "a") (ascii "b") (by decide) (by decide)

/-- The variable `ab` with the value `y`. -/
def variableAB : StoredVariable :=
  .ofRecord (ascii "ab") (ascii "y") (by decide) (by decide)

/-- The variable `b` with the value `y`. -/
def variableB : StoredVariable :=
  .ofRecord (ascii "b") (ascii "y") (by decide) (by decide)

/-- A configuration with these variables. -/
def listing (vars : List StoredVariable) : Config :=
  ⟨none, none, some (vars.map StoredVariable.setting), none⟩

/-- Two of these variables, with a short URL, are listed in either order. -/
theorem reordered_swap {v w : StoredVariable} {url : List UInt8} (hv : v.Plain) (hw : w.Plain)
    (hname : v.name ≠ w.name) (hurl : url.length < maxLineLength)
    (hshort : ∀ u ∈ [v, w], u.recovered.length ≤ u.reference.length) :
    Reordered [v, w] [w, v] url where
  perm := List.Perm.swap w v []
  plain := by simpa using ⟨hv, hw⟩
  distinct := by simpa using hname
  fits := runFits_of_not_longer hurl hshort
  fits' := runFits_of_not_longer hurl fun u hu => hshort u (by simpa [or_comm] using hu)

theorem variableA_plain : variableA.Plain := by constructor <;> decide

theorem variableAB_plain : variableAB.Plain := by constructor <;> decide

theorem variableB_plain : variableB.Plain := by constructor <;> decide

/-- References to two unrelated variables. -/
theorem substitution_order_irrelevant_unrelated :
    ∃ text,
      SubstitutionLeaves (listing [variableA, variableB]) 0 32 (ascii "$a/$b" ++ [0]) text ∧
        SubstitutionLeaves (listing [variableB, variableA]) 0 32 (ascii "$a/$b" ++ [0]) text :=
  substitution_order_irrelevant _ _ [variableA, variableB] [variableB, variableA]
    (ascii "$a/$b" ++ [0])
    (reordered_swap variableA_plain variableB_plain (by decide) (by decide) (by decide))
    rfl rfl 0 32 (by decide) (by decide)

/-- A run on a listing that ends with some number of calls leaves its text. -/
theorem substitutionLeaves_listing {vars : List StoredVariable} {url : Block} {text : List UInt8}
    (calls : ℕ) (hcount : vars.length ≤ 32)
    (hresult : (substituteLoop calls maxLineLength (storedLines vars) ⟨[], []⟩ url).map cstr =
      some text) :
    SubstitutionLeaves (listing vars) 0 32 url text := by
  obtain ⟨block, hblock, rfl⟩ := Option.map_eq_some_iff.mp hresult
  have hcfg : (listing vars).cacheVariables = some (vars.map StoredVariable.setting) := rfl
  refine ⟨calls, fun more hmore => ?_⟩
  rw [substituteVariables_stored hcfg hcount, substituteLoop_mono hmore hblock]
  rfl

/-- On the URL `$ab` the variables `a` and `ab` leave `bb` or `y`, and on `$$a` the
variables `a` and `b` leave `y` or `$b`, by which stands first in the list. -/
theorem substitution_order_matters :
    (Reordered [variableA, variableAB] [variableAB, variableA] (ascii "$ab") ∧
        SubstitutionLeaves (listing [variableA, variableAB]) 0 32 (ascii "$ab" ++ [0])
          (ascii "bb") ∧
        SubstitutionLeaves (listing [variableAB, variableA]) 0 32 (ascii "$ab" ++ [0])
          (ascii "y")) ∧
      Reordered [variableA, variableB] [variableB, variableA] (ascii "$$a") ∧
        SubstitutionLeaves (listing [variableA, variableB]) 0 32 (ascii "$$a" ++ [0])
          (ascii "y") ∧
        SubstitutionLeaves (listing [variableB, variableA]) 0 32 (ascii "$$a" ++ [0])
          (ascii "$b") := by
  refine ⟨⟨?_, ?_, ?_⟩, ?_, ?_, ?_⟩
  · exact reordered_swap variableA_plain variableAB_plain (by decide) (by decide) (by decide)
  · exact substitutionLeaves_listing 3 (by decide) rfl
  · exact substitutionLeaves_listing 3 (by decide) rfl
  · exact reordered_swap variableA_plain variableB_plain (by decide) (by decide) (by decide)
  · exact substitutionLeaves_listing 3 (by decide) rfl
  · exact substitutionLeaves_listing 3 (by decide) rfl

end EasyForetell
