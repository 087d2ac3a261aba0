import Mathlib.Data.List.Forall2
import Mathlib.Data.List.Pairwise
import NounPhrase.Proofs.Tagging.Words

/-!
# Tags that fit one rule only

The rules for tags are tried one after the other, but it does not matter in which order: no text at
all fits two of them. Many patterns have the same length and wildcards at most places, and some of
them differ at one place only. That is enough. Two patterns share a text if and only if they are of
one length and share a character at every place, so that all texts are covered by comparing the
slots of the patterns.

## Main definitions

* `Slot.Meets`, `Pattern.Meets`: two slots share a character, and two patterns do so at every place.
* `classifyBy`: the token of an item by any list of rules for tags.

## Main results

* `Pattern.exists_fits_iff_meets`: when two patterns share a text.
* `not_meets_tagRules`: no two patterns of the table do.
* `find?_fits_eq_some_iff`: the rule that is found is the one that fits.
* `tag_rules_in_any_order`: the table classifies alike in any order.
-/

namespace NounPhrase

/-! ### Patterns that share a text -/

/-- Some character may stand at both places. -/
def Slot.Meets (s s' : Slot) : Prop := ∃ c, s.fits c ∧ s'.fits c

/-- The characters that a slot lists. A slot that lists none takes a blank, among others. -/
def Slot.samples : Slot → List Char
  | any => [' ']
  | exactly c => [c]
  | oneOf cs => cs

/-- Two slots share a character if and only if they share one that one of them lists. -/
theorem Slot.meets_iff {s s' : Slot} :
    s.Meets s' ↔ (s.samples ++ s'.samples).any fun c => s.fits c && s'.fits c := by
  have listed {s : Slot} {c : Char} (h : s.fits c) (hany : s ≠ any) : c ∈ s.samples := by
    cases s with
    | any => exact absurd rfl hany
    | exactly d => simpa [fits, samples] using h
    | oneOf cs => simpa [fits, samples] using h
  simp only [List.any_eq_true, Bool.and_eq_true]
  constructor
  · rintro ⟨c, hc, hc'⟩
    by_cases hany : s = any
    · by_cases hany' : s' = any
      · subst hany hany'
        exact ⟨' ', List.mem_cons_self, by decide, by decide⟩
      · exact ⟨c, List.mem_append_right _ (listed hc' hany'), hc, hc'⟩
    · exact ⟨c, List.mem_append_left _ (listed hc hany), hc, hc'⟩
  · rintro ⟨c, -, hc⟩
    exact ⟨c, hc⟩

instance (s s' : Slot) : Decidable (s.Meets s') := decidable_of_iff _ Slot.meets_iff.symm

namespace Pattern

/-- At every place some character may stand in both patterns, and they are of one length. -/
def Meets (p q : Pattern) : Prop := List.Forall₂ Slot.Meets p q

instance (p q : Pattern) : Decidable (p.Meets q) :=
  inferInstanceAs (Decidable (List.Forall₂ _ _ _))

/-- Two patterns share a text if and only if they share a character at every place. -/
theorem exists_fits_iff_meets {p q : Pattern} : (∃ cs, p.fits cs ∧ q.fits cs) ↔ p.Meets q := by
  constructor
  · rintro ⟨cs, hp, hq⟩
    induction p generalizing q cs with
    | nil =>
      obtain rfl := fits_nil.mp hp
      cases q with
      | nil => exact .nil
      | cons s q => simp at hq
    | cons s p ih =>
      obtain ⟨c, ds, rfl, hc, hds⟩ := fits_cons.mp hp
      cases q with
      | nil => simp at hq
      | cons s' q =>
        obtain ⟨c', ds', heq, hc', hds'⟩ := fits_cons.mp hq
        obtain ⟨rfl, rfl⟩ := List.cons.inj heq
        exact .cons ⟨c, hc, hc'⟩ (ih ds hds hds')
  · intro h
    induction h with
    | nil => exact ⟨[], rfl, rfl⟩
    | cons hmeets _ ih =>
      obtain ⟨c, hc, hc'⟩ := hmeets
      obtain ⟨cs, hp, hq⟩ := ih
      exact ⟨c :: cs, fits_cons.mpr ⟨c, cs, rfl, hc, hp⟩, fits_cons.mpr ⟨c, cs, rfl, hc', hq⟩⟩

end Pattern

/-! ### The rules for tags -/

/-- No two patterns of the table share a text. -/
theorem not_meets_tagRules : tagRules.Pairwise fun r r' => ¬ r.tag.Meets r'.tag := by
  decide +kernel

section

variable {tag : List Char} {rules : List TagRule} {r r' : TagRule}

theorem pairwise_not_fits (tag : List Char) :
    tagRules.Pairwise fun r r' => ¬ (r.tag.fits tag ∧ r'.tag.fits tag) :=
  not_meets_tagRules.imp fun hmeets hfits =>
    hmeets (Pattern.exists_fits_iff_meets.mp ⟨tag, hfits⟩)

/-- At most one place of the table has a rule that fits. -/
theorem countP_fits_le_one (tag : List Char) : tagRules.countP (·.tag.fits tag) ≤ 1 := by
  have hrules := pairwise_not_fits tag
  generalize tagRules = rules at hrules
  induction rules with
  | nil => exact Nat.zero_le 1
  | cons r rules ih =>
    obtain ⟨hr, hrules⟩ := List.pairwise_cons.mp hrules
    rw [List.countP_cons]
    split
    · next hfits =>
      have hnone : rules.countP (·.tag.fits tag) = 0 :=
        List.countP_eq_zero.mpr fun r' hr' hfits' => hr r' hr' ⟨hfits, hfits'⟩
      omega
    · exact ih hrules

/-- At most one rule fits a tag. -/
theorem TagRule.eq_of_fits (hr : r ∈ tagRules) (hr' : r' ∈ tagRules) (h : r.tag.fits tag)
    (h' : r'.tag.fits tag) : r = r' := by
  have : Std.Symm fun r r' : TagRule => ¬ (r.tag.fits tag ∧ r'.tag.fits tag) :=
    ⟨fun _ _ hnot hfits => hnot hfits.symm⟩
  by_contra hne
  exact (pairwise_not_fits tag).forall hr hr' hne ⟨h, h'⟩

/-- In whatever order the rules are tried, the one that is found is the one that fits. -/
theorem find?_fits_eq_some_iff (hrules : rules.Perm tagRules) :
    rules.find? (·.tag.fits tag) = some r ↔ r ∈ tagRules ∧ r.tag.fits tag := by
  have found {r : TagRule} (h : rules.find? (·.tag.fits tag) = some r) :
      r ∈ tagRules ∧ r.tag.fits tag :=
    ⟨hrules.mem_iff.mp (List.mem_of_find?_eq_some h), by simpa using List.find?_some h⟩
  refine ⟨found, fun ⟨hr, hfits⟩ => ?_⟩
  cases hfind : rules.find? (·.tag.fits tag) with
  | none => exact absurd hfits (List.find?_eq_none.mp hfind r (hrules.mem_iff.mpr hr))
  | some r' =>
    obtain ⟨hr', hfits'⟩ := found hfind
    rw [TagRule.eq_of_fits hr' hr hfits' hfits]

end

/-! ### Items -/

/-- The terminal of an item with the given tag by a list of rules for tags. -/
def terminalBy (rules : List TagRule) (item tag : List Char) : Option Terminal :=
  match wordRules.find? (·.fits item) with
  | some rule => some rule.terminal
  | none => (rules.find? (·.tag.fits tag)).map TagRule.terminal

/-- The token of an item by a list of rules for tags, which are tried in their order. -/
def classifyBy (rules : List TagRule) (item : String) : Option Token :=
  let (word, tag) := splitTag item.toList
  (terminalBy rules item.toList tag).map fun terminal =>
    ⟨terminal, word.map String.ofList, some (String.ofList tag)⟩

/-- Items are classified by the table. -/
theorem classify_eq_classifyBy (item : String) : classify item = classifyBy tagRules item := rfl

/-- No text fits more than one pattern of the table. So every item has the same token in whatever
order the rules for tags are tried. A choice of two patterns for one terminal stands in the table as
two rules; orders that keep the two together are among these. -/
theorem tag_rules_in_any_order :
    (∀ tag : List Char, tagRules.countP (·.tag.fits tag) ≤ 1) ∧
      ∀ rules : List TagRule, rules.Perm tagRules →
        ∀ item, classifyBy rules item = classify item := by
  refine ⟨countP_fits_le_one, fun rules hrules item => ?_⟩
  have hfind (tag : List Char) :
      rules.find? (·.tag.fits tag) = tagRules.find? (·.tag.fits tag) := by
    refine Option.ext fun r => ?_
    rw [find?_fits_eq_some_iff hrules, find?_fits_eq_some_iff (.refl tagRules)]
  rw [classify_eq_classifyBy]
  simp only [classifyBy, terminalBy, hfind]

/-- A noun in the genitive has a tag that is nearly one of a compound or of another noun. It is
classified as such from either end of the table. -/
theorem tag_rules_in_any_order_genitive :
    tagRules.reverse.Perm tagRules ∧
      classifyBy tagRules.reverse "bils/NCUSG@IS" =
        some ⟨.nGen, some "bils", some "NCUSG@IS"⟩ := by
  have hperm := List.reverse_perm tagRules
  exact ⟨hperm, (tag_rules_in_any_order.2 _ hperm "bils/NCUSG@IS").trans (by decide +kernel)⟩

end NounPhrase
