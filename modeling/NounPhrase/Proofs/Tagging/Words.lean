import Mathlib.Data.List.Nodup
import NounPhrase.Tagging.Classify

/-!
# Words with terminals of their own

A rule for words sees the whole item, as a word of its list, a slash and a tag. No word of a list
has a slash, so the rule cuts the item at its first slash, while the word and the tag of the token
are cut at the last one. Mostly that is the same slash. But the tag of a sentence adverb may have
any characters behind its first, also slashes, and then the item is a sentence adverb although its
own word is not in the list and its own tag is too short.

## Main definitions

* `WordRule.listed`: the words of a rule.
* `WordRule.Suits`: the own word and the own tag of a token satisfy a rule.

## Main results

* `Pattern.fits_append`: a pattern in two parts cuts the text in two.
* `WordRule.fits_iff`: a rule applies to a listed word, a slash and a tag of its pattern.
* `exists_classify_eq_some_iff_fits`: the terminals of the rules for words are given by these rules.
* `words_cut_at_first_slash`: where the two ways to cut an item agree.
* `not_suits_second_slash`: an item on which they do not agree.
-/

namespace NounPhrase

/-! ### Patterns -/

namespace Pattern

variable {p q : Pattern} {cs : List Char}

@[simp] theorem fits_nil : fits [] cs ↔ cs = [] := by
  cases cs <;> simp [fits]

@[simp] theorem fits_cons {s : Slot} :
    fits (s :: p) cs ↔ ∃ c ds, cs = c :: ds ∧ s.fits c ∧ p.fits ds := by
  cases cs <;> simp [fits]

/-- A pattern in two parts cuts the text in two. -/
theorem fits_append : fits (p ++ q) cs ↔ ∃ as bs, cs = as ++ bs ∧ p.fits as ∧ q.fits bs := by
  induction p generalizing cs with
  | nil => simp
  | cons s p ih =>
    constructor
    · intro h
      obtain ⟨c, ds, rfl, hc, hds⟩ := fits_cons.mp h
      obtain ⟨as, bs, rfl, has, hbs⟩ := ih.mp hds
      exact ⟨c :: as, bs, rfl, fits_cons.mpr ⟨c, as, rfl, hc, has⟩, hbs⟩
    · rintro ⟨as, bs, rfl, has, hbs⟩
      obtain ⟨c, ds, rfl, hc, hds⟩ := fits_cons.mp has
      exact fits_cons.mpr ⟨c, ds ++ bs, rfl, hc, ih.mpr ⟨ds, bs, rfl, hds, hbs⟩⟩

/-- A pattern of given characters fits these. -/
theorem fits_map_exactly {ds : List Char} : fits (ds.map .exactly) cs ↔ cs = ds := by
  induction ds generalizing cs with
  | nil => simp
  | cons d ds ih => simp [ih, Slot.fits]

theorem fits_oneOf {text : String} : fits (oneOf text) cs ↔ ∃ c ∈ text.toList, cs = [c] := by
  simp [oneOf, Slot.fits, and_comm]

/-- Every character of a text that fits stands at some slot. -/
theorem exists_slot_of_fits (h : p.fits cs) {c : Char} (hc : c ∈ cs) : ∃ s ∈ p, s.fits c := by
  induction p generalizing cs with
  | nil => simp_all
  | cons s p ih =>
    obtain ⟨d, ds, rfl, hd, hds⟩ := fits_cons.mp h
    rcases List.mem_cons.mp hc with rfl | hc
    · exact ⟨s, List.mem_cons_self, hd⟩
    · obtain ⟨s', hs', hfits⟩ := ih hds hc
      exact ⟨s', List.mem_cons_of_mem s hs', hfits⟩

end Pattern

/-! ### The words of a rule -/

namespace WordRule

variable {r r' : WordRule}

/-- The words of the rule. -/
def listed (r : WordRule) : List (List Char) :=
  r.words.flatMap fun (initials, rests) =>
    rests.flatMap fun rest => initials.toList.map (· :: rest.toList)

theorem mem_listed {word : List Char} :
    word ∈ r.listed ↔ ∃ entry ∈ r.words, ∃ rest ∈ entry.2, ∃ c ∈ entry.1.toList,
      word = c :: rest.toList := by
  simp [listed, eq_comm]

/-- The rule applies to a listed word, a slash and a tag of its pattern. -/
theorem fits_iff {item : List Char} :
    r.fits item ↔ ∃ word ∈ r.listed, ∃ tag, r.tag.fits tag ∧ item = word ++ '/' :: tag := by
  rw [fits, List.any_eq_true]
  constructor
  · rintro ⟨p, hp, hfits⟩
    obtain ⟨entry, hentry, hp⟩ := List.mem_flatMap.mp hp
    obtain ⟨rest, hrest, rfl⟩ := List.mem_map.mp hp
    obtain ⟨word, behind, rfl, hword, hbehind⟩ := Pattern.fits_append.mp hfits
    obtain ⟨initial, _, rfl, hinitial, hrest'⟩ := Pattern.fits_append.mp hword
    obtain ⟨c, hc, rfl⟩ := Pattern.fits_oneOf.mp hinitial
    obtain rfl := Pattern.fits_map_exactly.mp hrest'
    obtain ⟨slash, tag, rfl, hslash, htag⟩ := Pattern.fits_cons.mp hbehind
    obtain rfl : slash = '/' := beq_iff_eq.mp hslash
    exact ⟨_, mem_listed.mpr ⟨entry, hentry, rest, hrest, c, hc, rfl⟩, tag, htag, rfl⟩
  · rintro ⟨word, hword, tag, htag, rfl⟩
    obtain ⟨entry, hentry, rest, hrest, c, hc, rfl⟩ := mem_listed.mp hword
    refine ⟨_, List.mem_flatMap.mpr ⟨entry, hentry, List.mem_map_of_mem hrest⟩, ?_⟩
    have hinitial := Pattern.fits_oneOf.mpr ⟨c, hc, rfl⟩
    have hword := Pattern.fits_append.mpr
      ⟨[c], rest.toList, rfl, hinitial, Pattern.fits_map_exactly.mpr rfl⟩
    exact Pattern.fits_append.mpr ⟨c :: rest.toList, '/' :: tag, rfl, hword,
      Pattern.fits_cons.mpr ⟨'/', tag, rfl, rfl, htag⟩⟩

/-- The own word of the token is listed, and its own tag fits. -/
def Suits (r : WordRule) (t : Token) : Prop :=
  (∃ word ∈ t.word, word.toList ∈ r.listed) ∧ ∃ tag ∈ t.tag, r.tag.fits tag.toList

/-! ### The three rules -/

/-- No word of a rule has a slash. -/
theorem slash_notMem_of_mem_listed (hr : r ∈ wordRules) {word : List Char}
    (h : word ∈ r.listed) : '/' ∉ word := by
  revert word
  revert r
  decide +kernel

/-- A rule is known by its terminal. -/
theorem eq_of_terminal_eq (hr : r ∈ wordRules) (hr' : r' ∈ wordRules)
    (h : r.terminal = r'.terminal) : r = r' := by
  have hnodup : (wordRules.map WordRule.terminal).Nodup := by decide
  exact List.inj_on_of_nodup_map hnodup hr hr' h

/-- A word is listed in one rule only. -/
theorem eq_of_mem_listed (hr : r ∈ wordRules) (hr' : r' ∈ wordRules) {word : List Char}
    (h : word ∈ r.listed) (h' : word ∈ r'.listed) : r = r' := by
  have hdisjoint : ∀ r ∈ wordRules, ∀ r' ∈ wordRules, ∀ word ∈ r.listed, word ∈ r'.listed →
      r.terminal = r'.terminal := by decide +kernel
  exact eq_of_terminal_eq hr hr' (hdisjoint r hr r' hr' word h h')

/-- No rule for tags has the terminal of a rule for words. -/
theorem terminal_ne_of_mem_tagRules (hr : r ∈ wordRules) {r' : TagRule} (hr' : r' ∈ tagRules) :
    r'.terminal ≠ r.terminal := by
  revert r'
  revert r
  decide +kernel

/-- The first slash of a text cuts it in one way. -/
theorem eq_of_append_slash_eq {as as' bs bs' : List Char} (h : '/' ∉ as) (h' : '/' ∉ as')
    (heq : as ++ '/' :: bs = as' ++ '/' :: bs') : as = as' ∧ bs = bs' := by
  have hbefore : ∀ {cs ds : List Char}, '/' ∉ cs → (cs ++ '/' :: ds).takeWhile (· ≠ '/') = cs :=
    fun {cs ds} hcs => by
      have hne : ∀ c ∈ cs, decide (c ≠ '/') = true := fun c hc =>
        decide_eq_true fun hslash => hcs (hslash ▸ hc)
      rw [List.takeWhile_append_of_pos hne, List.takeWhile_cons_of_neg (by simp), List.append_nil]
  have hword : as = as' := by rw [← hbefore h, heq, hbefore h']
  subst hword
  exact ⟨rfl, List.tail_eq_of_cons_eq (List.append_cancel_left heq)⟩

/-- At most one rule applies to an item. -/
theorem eq_of_fits (hr : r ∈ wordRules) (hr' : r' ∈ wordRules) {item : List Char}
    (h : r.fits item) (h' : r'.fits item) : r = r' := by
  obtain ⟨word, hword, tag, -, rfl⟩ := fits_iff.mp h
  obtain ⟨word', hword', tag', -, heq⟩ := fits_iff.mp h'
  obtain ⟨rfl, -⟩ := eq_of_append_slash_eq (slash_notMem_of_mem_listed hr hword)
    (slash_notMem_of_mem_listed hr' hword') heq
  exact eq_of_mem_listed hr hr' hword hword'

theorem mem_and_fits_of_find? {item : List Char} (h : wordRules.find? (·.fits item) = some r) :
    r ∈ wordRules ∧ r.fits item :=
  ⟨List.mem_of_find?_eq_some h, by simpa using List.find?_some h⟩

/-- The terminal of a rule for words is given by this rule, whatever the tag. -/
theorem terminalOf_eq_some_iff (hr : r ∈ wordRules) (item tag : List Char) :
    terminalOf item tag = some r.terminal ↔ r.fits item := by
  rw [terminalOf]
  constructor
  · intro h
    split at h
    · next r' hfind =>
      obtain ⟨hr', hfits⟩ := mem_and_fits_of_find? hfind
      obtain rfl := eq_of_terminal_eq hr' hr (Option.some.inj h)
      exact hfits
    · obtain ⟨r', hfind, hterminal⟩ := Option.map_eq_some_iff.mp h
      exact absurd hterminal (terminal_ne_of_mem_tagRules hr (List.mem_of_find?_eq_some hfind))
  · intro h
    split
    · next r' hfind =>
      obtain ⟨hr', hfits⟩ := mem_and_fits_of_find? hfind
      rw [eq_of_fits hr' hr hfits h]
    · next hnone => exact absurd h (List.find?_eq_none.mp hnone r hr)

end WordRule

/-! ### Items and their tokens -/

section

variable {r : WordRule} {item : String} {token : Token} {word tag : List Char}

/-- An item gets the terminal of a rule for words if and only if the rule applies to it. -/
theorem exists_classify_eq_some_iff_fits (hr : r ∈ wordRules) :
    (∃ token, classify item = some token ∧ token.terminal = r.terminal) ↔
      r.fits item.toList := by
  rw [← r.terminalOf_eq_some_iff hr item.toList (splitTag item.toList).2]
  simp [classify]

/-- The last slash of an item with one slash is its first. -/
theorem splitTag_append (hword : '/' ∉ word) (htag : '/' ∉ tag) :
    splitTag (word ++ '/' :: tag) = (some word, tag) := by
  cases h : splitTag (word ++ '/' :: tag) with
  | mk word? tag' =>
    cases word? with
    | none => exact absurd (by simp) (splitTag_eq_none h).2
    | some word' =>
      obtain ⟨rfl, -, rfl⟩ := (List.append_cons_inj_of_notMem hword htag).mp (splitTag_eq_some h).1
      rfl

/-- The own word and the own tag of a token are the parts of its item. -/
theorem suits_iff (h : classify item = some token) :
    r.Suits token ↔ ∃ word tag, splitTag item.toList = (some word, tag) ∧ word ∈ r.listed ∧
      r.tag.fits tag := by
  obtain ⟨terminal, -, rfl⟩ := Option.map_eq_some_iff.mp h
  cases hsplit : splitTag item.toList with
  | mk word? tag => cases word? <;> simp [WordRule.Suits]

/-- An item whose own word and own tag satisfy a rule gets its terminal. -/
theorem classify_of_splitTag (hr : r ∈ wordRules) (h : splitTag item.toList = (some word, tag))
    (hword : word ∈ r.listed) (htag : r.tag.fits tag) :
    classify item = some ⟨r.terminal, some (String.ofList word), some (String.ofList tag)⟩ := by
  have hfits : r.fits item.toList :=
    r.fits_iff.mpr ⟨word, hword, tag, htag, (splitTag_eq_some h).1⟩
  rw [classify, h]
  simp only [(r.terminalOf_eq_some_iff hr item.toList tag).mpr hfits, Option.map_some]

theorem count_slash (hword : '/' ∉ word) :
    (word ++ '/' :: tag).count '/' = 1 + tag.count '/' := by
  rw [List.count_append, List.count_eq_zero.mpr hword, List.count_cons_self]
  omega

/-- The token of a rule for words satisfies the rule if and only if its item has one slash. -/
theorem suits_iff_count_eq_one (hr : r ∈ wordRules) (h : classify item = some token)
    (hterminal : token.terminal = r.terminal) :
    r.Suits token ↔ item.toList.count '/' = 1 := by
  rw [suits_iff h]
  constructor
  · rintro ⟨word, tag, hsplit, hword, -⟩
    obtain ⟨hitem, hnone⟩ := splitTag_eq_some hsplit
    rw [hitem, count_slash (WordRule.slash_notMem_of_mem_listed hr hword),
      List.count_eq_zero.mpr hnone]
  · intro hone
    obtain ⟨word, hword, tag, htag, hitem⟩ :=
      r.fits_iff.mp ((exists_classify_eq_some_iff_fits hr).mp ⟨token, h, hterminal⟩)
    have hslash := WordRule.slash_notMem_of_mem_listed hr hword
    rw [hitem, count_slash hslash] at hone
    have hnone : '/' ∉ tag := List.count_eq_zero.mp (by omega)
    exact ⟨word, tag, by rw [hitem, splitTag_append hslash hnone], hword, htag⟩

/-- The tags of all rules but that for sentence adverbs have no slash. -/
theorem slash_notMem_of_fits (hr : r ∈ wordRules) (hne : r.terminal ≠ .sentAdv)
    (h : r.tag.fits tag) : '/' ∉ tag := by
  have hslots : ∀ r ∈ wordRules, r.terminal ≠ .sentAdv → ∀ s ∈ r.tag, s.fits '/' = false := by
    decide +kernel
  intro hslash
  obtain ⟨s, hs, hfits⟩ := Pattern.exists_slot_of_fits h hslash
  rw [hslots r hr hne s hs] at hfits
  exact Bool.false_ne_true hfits

end

/-- An item gets the terminal of a rule for words if and only if it is a listed word, its first
slash and a tag of the pattern. An item whose own word and own tag, before and behind its last
slash, satisfy the rule is among them. The other way round, an item with the terminal has a listed
word and a fitting tag of its own if and only if it has no second slash; only sentence adverbs may
have one. -/
theorem words_cut_at_first_slash {r : WordRule} (hr : r ∈ wordRules) (item : String) :
    ((∃ token, classify item = some token ∧ token.terminal = r.terminal) ↔
        ∃ word ∈ r.listed, ∃ tag, r.tag.fits tag ∧ '/' ∉ word ∧ item.toList = word ++ '/' :: tag) ∧
      (∀ word tag, splitTag item.toList = (some word, tag) → word ∈ r.listed → r.tag.fits tag →
        classify item =
          some ⟨r.terminal, some (String.ofList word), some (String.ofList tag)⟩) ∧
      ∀ token, classify item = some token → token.terminal = r.terminal →
        (r.Suits token ↔ item.toList.count '/' = 1) ∧ (r.terminal ≠ .sentAdv → r.Suits token) := by
  refine ⟨?_, fun _ _ => classify_of_splitTag hr, fun token h hterminal =>
    ⟨suits_iff_count_eq_one hr h hterminal, fun hne => ?_⟩⟩
  · rw [exists_classify_eq_some_iff_fits hr, r.fits_iff]
    constructor
    · rintro ⟨word, hword, tag, htag, hitem⟩
      exact ⟨word, hword, tag, htag, WordRule.slash_notMem_of_mem_listed hr hword, hitem⟩
    · rintro ⟨word, hword, tag, htag, -, hitem⟩
      exact ⟨word, hword, tag, htag, hitem⟩
  · obtain ⟨word, hword, tag, htag, hitem⟩ :=
      r.fits_iff.mp ((exists_classify_eq_some_iff_fits hr).mp ⟨token, h, hterminal⟩)
    rw [suits_iff_count_eq_one hr h hterminal, hitem,
      count_slash (WordRule.slash_notMem_of_mem_listed hr hword),
      List.count_eq_zero.mpr (slash_notMem_of_fits hr hne htag)]

theorem words_cut_at_first_slash_here :
    let r : WordRule := ⟨[("HhDd", ["är"])], slots "RG0S", .hereThere⟩
    r ∈ wordRules ∧ splitTag "där/RG0S".toList = (some "där".toList, "RG0S".toList) ∧
      classify "där/RG0S" = some ⟨.hereThere, some "där", some "RG0S"⟩ ∧
      r.Suits ⟨.hereThere, some "där", some "RG0S"⟩ := by
  intro r
  have hr : r ∈ wordRules := List.mem_cons_of_mem _ List.mem_cons_self
  have hsplit : splitTag "där/RG0S".toList = (some "där".toList, "RG0S".toList) := by decide
  have h := words_cut_at_first_slash hr "där/RG0S"
  have hclassify := h.2.1 _ _ hsplit (by decide +kernel) (by decide +kernel)
  exact ⟨hr, hsplit, hclassify, (h.2.2 _ hclassify rfl).2 (by decide)⟩

/-- A token with the word `inte/R` and the tag of a major delimiter is a sentence adverb, although
neither of the two is in the rule for sentence adverbs, and by its tag it would be a delimiter. -/
theorem not_suits_second_slash :
    classify "inte/R/FE" = some ⟨.sentAdv, some "inte/R", some "FE"⟩ ∧
      (tagRules.find? (·.tag.fits "FE".toList)).map TagRule.terminal = some .delMaj ∧
      ¬ ∀ r ∈ wordRules, ∀ item token, classify item = some token →
        token.terminal = r.terminal → r.Suits token := by
  have hclassify : classify "inte/R/FE" = some ⟨.sentAdv, some "inte/R", some "FE"⟩ := by
    decide +kernel
  refine ⟨hclassify, by decide +kernel, fun h => ?_⟩
  obtain ⟨⟨word, hword, hlisted⟩, -⟩ :=
    h ⟨sentenceAdverbs, slots "R...", .sentAdv⟩ List.mem_cons_self _ _ hclassify rfl
  obtain rfl := Option.mem_some_iff.mp hword
  revert hlisted
  decide +kernel

end NounPhrase
