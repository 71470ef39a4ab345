import Mathlib.Data.List.Infix
import Mathlib.Logic.Relation
import Mathlib.Tactic.Common
import Mathlib.Tactic.Ring

/-!
# Rewriting one string inside another

Search for the first occurrence of a pattern, and the rule that replaces an
occurrence by a value. Below any bound on the length of the rewritten text the
rule terminates unless the value is the pattern itself: a shorter value shortens
the text, a longer one lengthens it, and one of equal length lowers the
number that the places of one of its symbols form.

## Main results

* `findSub_eq_some`, `findSub_eq_none_iff`: what the search finds
* `exists_rewriting_measure`: a measure for every rule whose sides differ
* `exists_rewriteAll_iff`, `rewriteAll_ends_iff`: what the loop leaves, and when
-/

namespace EasyForetell.Theory

variable {α : Type*} [DecidableEq α]

/-! ### Searching -/

/-- The index of the first occurrence of a pattern in a text. -/
def findSub (pattern : List α) : List α → Option ℕ
  | [] => if pattern = [] then some 0 else none
  | a :: text =>
    if pattern.isPrefixOf (a :: text) then some 0 else (findSub pattern text).map (· + 1)

theorem findSub_eq_some {pattern text : List α} {index : ℕ}
    (hfound : findSub pattern text = some index) :
    ∃ before after, text = before ++ pattern ++ after ∧ before.length = index := by
  induction text generalizing index with
  | nil =>
    rw [findSub] at hfound
    split_ifs at hfound with hnil
    exact ⟨[], [], by simp [hnil], Option.some.inj hfound⟩
  | cons a text ih =>
    rw [findSub] at hfound
    split_ifs at hfound with hhere
    · obtain ⟨after, hafter⟩ := List.isPrefixOf_iff_prefix.mp hhere
      exact ⟨[], after, hafter.symm, Option.some.inj hfound⟩
    · obtain ⟨index, hindex, rfl⟩ := Option.map_eq_some_iff.mp hfound
      obtain ⟨before, after, rfl, rfl⟩ := ih hindex
      exact ⟨a :: before, after, rfl, rfl⟩

theorem findSub_eq_none_iff {pattern text : List α} :
    findSub pattern text = none ↔ ¬ pattern <:+: text := by
  induction text with
  | nil =>
    rw [findSub, List.infix_nil]
    split_ifs with hnil <;> simp [hnil]
  | cons a text ih =>
    rw [findSub, List.infix_cons_iff, ← List.isPrefixOf_iff_prefix]
    split_ifs with hhere
    · simp [hhere]
    · rw [Option.map_eq_none_iff, ih]
      simp [hhere]

/-! ### Termination -/

/-- The places of a symbol in a text, read as a binary number. -/
def weight (x : α) (text : List α) : ℕ :=
  match text with
  | [] => 0
  | a :: text => (if a = x then 2 ^ text.length else 0) + weight x text

theorem weight_lt (x : α) (text : List α) : weight x text < 2 ^ text.length := by
  induction text with
  | nil => simp [weight]
  | cons a text ih =>
    rw [weight, List.length_cons, pow_succ]
    split_ifs <;> omega

theorem weight_append (x : α) (first second : List α) :
    weight x (first ++ second) = weight x first * 2 ^ second.length + weight x second := by
  induction first with
  | nil => simp [weight]
  | cons a first ih =>
    rw [List.cons_append, weight, weight, ih, List.length_append]
    split_ifs
    · rw [pow_add]
      ring
    · ring

omit [DecidableEq α] in
/-- Two different texts of one length differ at a first place. -/
theorem exists_first_difference {first second : List α} (hlength : first.length = second.length)
    (hne : first ≠ second) :
    ∃ common x y first' second', first = common ++ x :: first' ∧ second = common ++ y :: second' ∧
      x ≠ y ∧ first'.length = second'.length := by
  induction first generalizing second with
  | nil => exact absurd (List.eq_nil_of_length_eq_zero hlength.symm).symm hne
  | cons a first ih =>
    cases second with
    | nil => cases hlength
    | cons b second =>
      have hlength' : first.length = second.length := Nat.succ.inj hlength
      by_cases hab : a = b
      · subst hab
        obtain ⟨common, x, y, first', second', rfl, rfl, hxy, hrest⟩ :=
          ih hlength' fun h => hne (by rw [h])
        exact ⟨a :: common, x, y, first', second', rfl, rfl, hxy, hrest⟩
      · exact ⟨[], a, b, first, second, rfl, rfl, hab, hlength'⟩

/-- Replacing a pattern by a value of the same length lowers the weight of the
symbol at which the two first differ. -/
theorem weight_rewrite_lt {common first second : List α} {x y : α} (hxy : x ≠ y)
    (hlength : first.length = second.length) (before after : List α) :
    weight x (before ++ (common ++ y :: second) ++ after) <
      weight x (before ++ (common ++ x :: first) ++ after) := by
  have htail : weight x (y :: second ++ after) < weight x (x :: first ++ after) := by
    have hsecond := weight_lt x (second ++ after)
    rw [List.cons_append, List.cons_append, weight, weight, if_neg (Ne.symm hxy), if_pos rfl]
    rw [List.length_append] at hsecond ⊢
    rw [hlength]
    omega
  -- what stands before both keeps its places, and so its weight
  have hsame : (y :: second ++ after).length = (x :: first ++ after).length := by
    simp [hlength]
  have hsplit : ∀ z rest, before ++ (common ++ z :: rest) ++ after =
      (before ++ common) ++ (z :: rest ++ after) := fun z rest => by simp
  rw [hsplit, hsplit, weight_append x _ (y :: second ++ after),
    weight_append x _ (x :: first ++ after), hsame]
  exact Nat.add_lt_add_left htail _

/-- A rule whose sides differ has a measure that every rewriting below a bound on
the length lowers. -/
theorem exists_rewriting_measure {pattern value : List α} (hne : value ≠ pattern) (bound : ℕ) :
    ∃ measure : List α → ℕ, ∀ before after, (before ++ value ++ after).length < bound →
      measure (before ++ value ++ after) < measure (before ++ pattern ++ after) := by
  -- shorter, of equal length, longer: length, weight, distance to the bound
  rcases lt_trichotomy value.length pattern.length with hshorter | hequal | hlonger
  · refine ⟨List.length, fun before after _ => ?_⟩
    simp only [List.length_append]
    omega
  · obtain ⟨common, x, y, first, second, rfl, rfl, hxy, hlength⟩ :=
      exists_first_difference hequal.symm (Ne.symm hne)
    exact ⟨weight x, fun before after _ => weight_rewrite_lt hxy hlength before after⟩
  · refine ⟨fun text => bound - text.length, fun before after hbound => ?_⟩
    simp only [List.length_append] at hbound ⊢
    omega

/-! ### The rewriting loop -/

/-- What one try to rewrite a text comes to: there is no occurrence, the first one
may not be replaced, or the rewritten text. -/
inductive Rewriting (α : Type*)
  | absent
  | refused
  | rewritten (text : List α)
  deriving DecidableEq

section Loop

variable (allowed : List α → List α → Prop) [∀ before after, Decidable (allowed before after)]
  (pattern value : List α)

/-- Replace the first occurrence, if what stands before and behind it allows. -/
def rewriteFirst (text : List α) : Rewriting α :=
  match findSub pattern text with
  | none => .absent
  | some index =>
    let before := text.take index
    let after := text.drop (index + pattern.length)
    if allowed before after then .rewritten (before ++ value ++ after) else .refused

/-- Rewrite while that succeeds, with a bound on the number of tries. -/
def rewriteAll : ℕ → List α → Option (List α)
  | 0, _ => none
  | tries + 1, text =>
    match rewriteFirst allowed pattern value text with
    | .rewritten text' => rewriteAll tries text'
    | _ => some text

variable {allowed pattern value} {text text' : List α}

theorem rewriteFirst_of_absent (habsent : findSub pattern text = none) :
    rewriteFirst allowed pattern value text = .absent := by
  rw [rewriteFirst, habsent]

theorem rewriteFirst_of_found {before after : List α}
    (hfound : findSub pattern (before ++ pattern ++ after) = some before.length) :
    rewriteFirst allowed pattern value (before ++ pattern ++ after) =
      if allowed before after then .rewritten (before ++ value ++ after) else .refused := by
  have hbefore : (before ++ pattern ++ after).take before.length = before := by
    rw [List.append_assoc, List.take_left]
  have hafter : (before ++ pattern ++ after).drop (before.length + pattern.length) = after := by
    rw [← List.length_append, List.drop_left]
  simp only [rewriteFirst, hfound, hbefore, hafter]

/-- A rewritten text has the value where it had the pattern. -/
theorem rewriteFirst_eq_rewritten
    (hrewritten : rewriteFirst allowed pattern value text = .rewritten text') :
    ∃ before after, text = before ++ pattern ++ after ∧ text' = before ++ value ++ after ∧
      allowed before after := by
  cases hfound : findSub pattern text with
  | none =>
    rw [rewriteFirst_of_absent hfound] at hrewritten
    cases hrewritten
  | some index =>
    obtain ⟨before, after, rfl, rfl⟩ := findSub_eq_some hfound
    rw [rewriteFirst_of_found hfound] at hrewritten
    split_ifs at hrewritten with hallowed
    exact ⟨before, after, rfl, (Rewriting.rewritten.inj hrewritten).symm, hallowed⟩

/-- Where every occurrence may be replaced, a text with one is rewritten. -/
theorem exists_rewritten (value : List α) (hoccurs : pattern <:+: text)
    (hallowed : ∀ before after, text = before ++ pattern ++ after → allowed before after) :
    ∃ text', rewriteFirst allowed pattern value text = .rewritten text' := by
  cases hfound : findSub pattern text with
  | none => exact absurd hoccurs (findSub_eq_none_iff.mp hfound)
  | some index =>
    obtain ⟨before, after, rfl, rfl⟩ := findSub_eq_some hfound
    exact ⟨_, (rewriteFirst_of_found hfound).trans (if_pos (hallowed before after rfl))⟩

theorem rewriteAll_of_rewritten (tries : ℕ)
    (hrewritten : rewriteFirst allowed pattern value text = .rewritten text') :
    rewriteAll allowed pattern value (tries + 1) text =
      rewriteAll allowed pattern value tries text' := by
  rw [rewriteAll, hrewritten]

theorem rewriteAll_of_not_rewritten (tries : ℕ)
    (hstays : ∀ text', rewriteFirst allowed pattern value text ≠ .rewritten text') :
    rewriteAll allowed pattern value (tries + 1) text = some text := by
  rw [rewriteAll]
  cases htry : rewriteFirst allowed pattern value text with
  | rewritten text' => exact absurd htry (hstays text')
  | absent | refused => rfl

/-- What the loop leaves is what tries that succeed lead to and no try changes. -/
theorem exists_rewriteAll_iff {result : List α} :
    (∃ tries, rewriteAll allowed pattern value tries text = some result) ↔
      Relation.ReflTransGen (fun first second =>
          rewriteFirst allowed pattern value first = .rewritten second) text result ∧
        ∀ text', rewriteFirst allowed pattern value result ≠ .rewritten text' := by
  constructor
  · rintro ⟨tries, hresult⟩
    induction tries generalizing text with
    | zero => cases hresult
    | succ tries ih =>
      cases htry : rewriteFirst allowed pattern value text with
      | rewritten text' =>
        rw [rewriteAll_of_rewritten _ htry] at hresult
        obtain ⟨hreach, hstays⟩ := ih hresult
        exact ⟨.head htry hreach, hstays⟩
      | absent | refused =>
        rw [rewriteAll_of_not_rewritten _ (by simp [htry])] at hresult
        obtain rfl := Option.some.inj hresult
        exact ⟨.refl, by simp [htry]⟩
  · rintro ⟨hreach, hstays⟩
    induction hreach using Relation.ReflTransGen.head_induction_on with
    | refl => exact ⟨1, rewriteAll_of_not_rewritten 0 hstays⟩
    | head htry _ ih =>
      obtain ⟨tries, hresult⟩ := ih
      exact ⟨tries + 1, (rewriteAll_of_rewritten tries htry).trans hresult⟩

/-- A rule whose value is its pattern never finishes a text it can rewrite. -/
theorem rewriteAll_self (tries : ℕ)
    (hrewritten : rewriteFirst allowed pattern pattern text = .rewritten text') :
    rewriteAll allowed pattern pattern tries text = none := by
  obtain ⟨before, after, hbefore, hafter, -⟩ := rewriteFirst_eq_rewritten hrewritten
  obtain rfl : text' = text := hafter.trans hbefore.symm
  induction tries with
  | zero => rfl
  | succ tries ih => rw [rewriteAll_of_rewritten _ hrewritten, ih]

/-- The loop ends if and only if the value differs from the pattern or the first
try already fails, provided the condition bounds what is rewritten. -/
theorem rewriteAll_ends_iff {bound : ℕ}
    (hbound : ∀ before after, allowed before after → (before ++ value ++ after).length < bound) :
    (∃ tries result, rewriteAll allowed pattern value tries text = some result) ↔
      ¬ (value = pattern ∧ ∃ text', rewriteFirst allowed pattern value text = .rewritten text') := by
  constructor
  · rintro ⟨tries, result, hresult⟩ ⟨rfl, text', hrewritten⟩
    rw [rewriteAll_self tries hrewritten] at hresult
    cases hresult
  · intro hends
    by_cases hne : value = pattern
    · -- the first try is the last one
      have hstays : ∀ text', rewriteFirst allowed pattern value text ≠ .rewritten text' :=
        fun text' hrewritten => hends ⟨hne, text', hrewritten⟩
      exact ⟨1, text, rewriteAll_of_not_rewritten 0 hstays⟩
    · -- every successful try lowers the measure
      obtain ⟨measure, hmeasure⟩ := exists_rewriting_measure hne bound
      clear hends
      induction hsize : measure text using Nat.strongRecOn generalizing text with
      | ind size ih =>
        cases htry : rewriteFirst allowed pattern value text with
        | rewritten text' =>
          obtain ⟨before, after, rfl, rfl, hallowed⟩ := rewriteFirst_eq_rewritten htry
          have hless := hmeasure before after (hbound before after hallowed)
          obtain ⟨tries, result, hresult⟩ := ih _ (hsize ▸ hless) rfl
          exact ⟨tries + 1, result, (rewriteAll_of_rewritten tries htry).trans hresult⟩
        | absent | refused => exact ⟨1, text, rewriteAll_of_not_rewritten 0 (by simp [htry])⟩

end Loop

end EasyForetell.Theory
