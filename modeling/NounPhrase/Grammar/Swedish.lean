import NounPhrase.Grammar.Basic

/-!
# A noun phrase grammar of Swedish

The rules work on word classes, not on words. A sentence is at first a single phrase and is
widened by one more phrase at a time where recovery asks for it. The alternatives of a category
are tried in the order in which they stand here.

## Main definitions

* `Swedish.rules`: the rules, the sentence rule first.
* `Grammar.swedish`: the grammar of these rules.
-/

namespace NounPhrase

namespace Swedish

/-- A terminal as a symbol. -/
abbrev t : Terminal → Symbol := .terminal

/-- A nonterminal as a symbol. -/
abbrev n : Nonterminal → Symbol := .nonterminal

/-- A sentence is a phrase. -/
def sentenceRule : Rule := ⟨.sent, [n .phrase], .sentence⟩

/-- Adjectives, and the adverb and adjective phrases around them. -/
def adjectiveRules : List Rule := [
  ⟨.adjPlur, [t .adjPlur], .adj⟩,
  ⟨.adjPlur, [t .adjSingPlur], .adj⟩,
  ⟨.adjSing, [t .adjSing], .adj⟩,
  ⟨.adjSing, [t .adjSingPlur], .adj⟩,
  ⟨.advp, [t .adv], .advp⟩,
  ⟨.advp, [t .hereThere], .advp⟩,
  ⟨.advpQ, [], .optNone⟩,
  ⟨.advpQ, [n .advp], .optNonterm⟩,
  ⟨.advpS, [], .listEmpty⟩,
  ⟨.advpS, [n .advp, n .advpS], .listCons⟩,
  ⟨.ap, [n .apMin], .apMinAlt⟩,
  ⟨.ap, [n .apMax], .apMaxAlt⟩,
  ⟨.apQ, [], .optNone⟩,
  ⟨.apQ, [n .ap], .optNonterm⟩,
  ⟨.apS, [], .listEmpty⟩,
  ⟨.apS, [n .ap, n .apS], .listCons⟩,
  ⟨.apMax, [n .apMinPlurL, n .apMinPlurS, n .apMinPlurContL, n .apMinPlurContS], .apMax⟩,
  ⟨.apMax, [n .apMinSingL, n .apMinSingS, n .apMinSingContL, n .apMinSingContS], .apMax⟩,
  ⟨.apMin, [n .apMinSingL], .apMin⟩,
  ⟨.apMin, [n .apMinPlurL], .apMin⟩,
  ⟨.apMinPlurContL, [t .delMin, n .apMinPlurL], .apMinCont⟩,
  ⟨.apMinPlurContL, [t .konj, n .apMinPlurL], .apMinCont⟩,
  ⟨.apMinPlurContS, [], .listEmpty⟩,
  ⟨.apMinPlurL, [n .advpS, n .adjPlur], .apMinItem⟩,
  ⟨.apMinPlurS, [n .apMinPlurL, n .apMinPlurS], .listConsPlur⟩,
  ⟨.apMinPlurS, [], .listEmpty⟩,
  ⟨.apMinSingL, [n .advpS, n .adjSing], .apMinItem⟩,
  ⟨.apMinSingS, [], .listEmpty⟩,
  ⟨.apMinSingS, [n .apMinSingL, n .apMinSingS], .listConsSing⟩,
  ⟨.apMinSingContL, [t .delMin, n .apMinSingL], .apMinCont⟩,
  ⟨.apMinSingContL, [t .konj, n .apMinSingL], .apMinCont⟩,
  ⟨.apMinSingContS, [], .listEmpty⟩]

/-- Nouns and the chains of compound nouns. -/
def nounRules : List Rule := [
  ⟨.comNounS, [], .listEmpty⟩,
  ⟨.comNounS, [t .comNoun, n .comNounS], .listTerm⟩,
  ⟨.compNounS, [t .compNoun, n .compNounS], .listTerm⟩,
  ⟨.compNounS, [], .listEmpty⟩,
  ⟨.compNounContL, [n .konjDelMinQ, t .compNoun], .compNounCont⟩,
  ⟨.compNounContS, [n .compNounContL, n .compNounContS], .listCons⟩,
  ⟨.compNounContS, [], .listEmpty⟩,
  ⟨.delMinQ, [t .delMin], .optTerm⟩,
  ⟨.delMinQ, [], .optNone⟩]

/-- Determiners. -/
def determinerRules : List Rule := [
  ⟨.det, [t .det], .det⟩,
  ⟨.det, [t .nGen], .det⟩,
  ⟨.det, [t .propNGen], .det⟩,
  ⟨.detQ, [], .optNone⟩,
  ⟨.detQ, [n .det], .optNonterm⟩,
  ⟨.detPossPron, [t .possPron], .detPossPron⟩,
  ⟨.detPossPron, [n .det], .detPossPronDet⟩,
  ⟨.detPossPronQ, [], .optNone⟩,
  ⟨.detPossPronQ, [n .detPossPron], .optNonterm⟩,
  ⟨.hereThereQ, [t .hereThere], .optTerm⟩,
  ⟨.hereThereQ, [], .optNone⟩]

/-- Infinitives and conjunctions. -/
def infinitiveRules : List Rule := [
  ⟨.infVerbS, [t .infVerb, n .infVerbS], .listTerm⟩,
  ⟨.infVerbS, [], .listEmpty⟩,
  ⟨.infp, [t .inf, n .advpS, t .infVerb, n .partQ], .infp⟩,
  ⟨.infp, [t .inf, n .sAdvpS, t .infVerb, n .partQ], .infp⟩,
  ⟨.konjDelMinQ, [n .delMinQ], .konjDelMin⟩,
  ⟨.konjDelMinQ, [n .konjQ], .konjDelMin⟩,
  ⟨.konjQ, [t .konj], .optTerm⟩,
  ⟨.konjQ, [], .optNone⟩,
  ⟨.nGenQ, [], .optNone⟩,
  ⟨.nGenQ, [t .nGen], .optTerm⟩]

/-- Noun phrases. -/
def nounPhraseRules : List Rule := [
  ⟨.np, [n .npRestL], .npRestPhrase⟩,
  ⟨.np, [n .npSifL], .npSifPhrase⟩,
  ⟨.np, [n .nppcL], .npPhrase⟩,
  ⟨.np, [n .npCompL], .npPhrase⟩,
  ⟨.np, [n .npComL], .npPhrase⟩,
  ⟨.np, [n .npPropL], .npPhrase⟩,
  ⟨.npS, [n .np, n .npS], .listCons⟩,
  ⟨.npS, [], .listEmpty⟩,
  ⟨.npComL, [n .npCom1L], .npCom⟩,
  ⟨.npComL, [n .npCom2L], .npCom⟩,
  ⟨.npComL, [n .npCom3L], .npCom⟩,
  ⟨.npCom1L, [t .pron, n .hereThereQ], .npCom1⟩,
  ⟨.npCom2L, [n .detQ, t .possPron, n .apQ, n .nGenQ, n .apS, n .numQ, n .apQ, t .comNoun,
    n .comNounS], .npCom2⟩,
  ⟨.npCom3L, [n .detQ, n .hereThereQ, n .numS, n .apQ, n .nGenQ, n .apS, n .numS, t .comNoun,
    n .comNounS], .npCom3⟩,
  ⟨.npCompL, [n .detQ, n .apQ, t .compNoun, n .compNounContS, t .konj, n .nGenQ, n .numQ,
    n .apQ, t .comNoun, n .comNounS], .npComp⟩,
  ⟨.nppcL, [t .propCompNoun, n .propCompNounContS, n .konjQ, t .comNoun, n .comNounS], .nppc⟩,
  ⟨.nppcL, [t .propCompNoun, n .propCompNounContS, n .konjQ, t .propNoun, n .propNounS], .nppc⟩,
  ⟨.npPropL, [n .detQ, n .numQ, n .apQ, t .propNoun, n .propNounS], .npProp⟩,
  ⟨.npRestL, [n .detPossPron, n .apQ], .npRest⟩,
  ⟨.npSifL, [n .detPossPronQ, n .advpQ, n .numP], .npSif⟩]

/-- Numerals and particles. -/
def numeralRules : List Rule := [
  ⟨.numQ, [], .optNone⟩,
  ⟨.numQ, [n .numP], .optNonterm⟩,
  ⟨.numS, [], .listEmpty⟩,
  ⟨.numS, [n .numP, n .numS], .listCons⟩,
  ⟨.numS, [t .num, n .numS], .listTerm⟩,
  ⟨.numP, [n .apS, t .num, n .numS], .numPhrase⟩,
  ⟨.numP, [n .advpS, t .num, n .numS], .numPhrase⟩,
  ⟨.partQ, [t .part], .optTerm⟩,
  ⟨.partQ, [], .optNone⟩]

/-- Phrases: any single word, or a larger constituent. -/
def phraseRules : List Rule := [
  ⟨.phrase, [t .hereThere], .word⟩,
  ⟨.phrase, [t .particip], .word⟩,
  ⟨.phrase, [t .prepMellan], .word⟩,
  ⟨.phrase, [t .sentAdv], .word⟩,
  ⟨.phrase, [t .adjPlur], .word⟩,
  ⟨.phrase, [t .adjSing], .word⟩,
  ⟨.phrase, [t .adjSingPlur], .word⟩,
  ⟨.phrase, [t .adv], .word⟩,
  ⟨.phrase, [t .comNoun], .word⟩,
  ⟨.phrase, [t .compNoun], .word⟩,
  ⟨.phrase, [t .conjVerb], .word⟩,
  ⟨.phrase, [t .delMaj], .word⟩,
  ⟨.phrase, [t .delMin], .word⟩,
  ⟨.phrase, [t .delParen], .word⟩,
  ⟨.phrase, [t .det], .word⟩,
  ⟨.phrase, [t .finVerb], .word⟩,
  ⟨.phrase, [t .impVerb], .word⟩,
  ⟨.phrase, [t .inf], .word⟩,
  ⟨.phrase, [t .infVerb], .word⟩,
  ⟨.phrase, [t .interj], .word⟩,
  ⟨.phrase, [t .konj], .word⟩,
  ⟨.phrase, [t .nGen], .word⟩,
  ⟨.phrase, [t .num], .word⟩,
  ⟨.phrase, [t .part], .word⟩,
  ⟨.phrase, [t .possPron], .word⟩,
  ⟨.phrase, [t .prep], .word⟩,
  ⟨.phrase, [t .pron], .word⟩,
  ⟨.phrase, [t .propCompNoun], .word⟩,
  ⟨.phrase, [t .propNGen], .word⟩,
  ⟨.phrase, [t .propNoun], .word⟩,
  ⟨.phrase, [t .subj], .word⟩,
  ⟨.phrase, [t .supVerb], .word⟩,
  ⟨.phrase, [t .uO], .word⟩,
  ⟨.phrase, [n .detPossPron], .phraseDetPossPron⟩,
  ⟨.phrase, [n .advp], .phraseAdvp⟩,
  ⟨.phrase, [n .vc], .phraseVc⟩,
  ⟨.phrase, [n .ap], .phraseAp⟩,
  ⟨.phrase, [n .infp], .phraseInfp⟩,
  ⟨.phrase, [n .numP], .phraseNump⟩,
  ⟨.phrase, [n .np], .phraseNp⟩,
  ⟨.phrase, [n .pp], .phrasePp⟩,
  ⟨.phraseS, [n .phraseS, n .phrase], .listConsLeft⟩,
  ⟨.phraseS, [], .listEmptyLow⟩]

/-- Prepositional phrases, and the lists they share with proper nouns. -/
def prepositionRules : List Rule := [
  ⟨.pp, [t .prep, n .ap], .ppAp⟩,
  ⟨.pp, [t .prep, n .np], .ppNp⟩,
  ⟨.pp, [t .prepMellan, n .np, t .konj, n .np], .ppMellan⟩,
  ⟨.pp, [t .prep, t .konj, t .prep, n .np], .ppKonj⟩,
  ⟨.ppQ, [n .pp], .optNonterm⟩,
  ⟨.ppQ, [], .optNone⟩,
  ⟨.ppS, [n .pp, n .ppS], .listCons⟩,
  ⟨.ppS, [], .listEmpty⟩,
  ⟨.propCompNounContL, [n .konjDelMinQ, n .apQ, t .propCompNoun], .propCompNounCont⟩,
  ⟨.propCompNounContS, [n .propCompNounContL, n .propCompNounContS], .listCons⟩,
  ⟨.propCompNounContS, [], .listEmpty⟩,
  ⟨.propNounS, [t .propNoun, n .propNounS], .listTerm⟩,
  ⟨.propNounS, [], .listEmpty⟩,
  ⟨.sAdvpS, [t .sentAdv, n .sAdvpS], .listTerm⟩,
  ⟨.sAdvpS, [], .listEmpty⟩]

/-- Verb chains. -/
def verbRules : List Rule := [
  ⟨.vc, [t .impVerb], .vc⟩,
  ⟨.vc, [t .infVerb], .vc⟩,
  ⟨.vc, [t .supVerb], .vc⟩,
  ⟨.vc, [t .konjVerb], .vc⟩,
  ⟨.vc, [t .finVerb, n .infVerbS], .vcList⟩,
  ⟨.vc, [t .finVerb, n .infVerbS, t .supVerb], .vcListSup⟩]

/-- The rules after the sentence rule. -/
def otherRules : List Rule :=
  adjectiveRules ++ nounRules ++ determinerRules ++ infinitiveRules ++
    nounPhraseRules ++ numeralRules ++ phraseRules ++ prepositionRules ++ verbRules

/-- All rules, the sentence rule first. -/
def rules : List Rule := sentenceRule :: otherRules

end Swedish

/-- The grammar of the Swedish rules. -/
def Grammar.swedish : Grammar where
  entry := Swedish.sentenceRule
  others := Swedish.otherRules
  recovery := .phrase
  distinct := by decide +kernel
  start_unused := by decide +kernel
  entry_unique := by decide +kernel
  entry_ends := rfl
  faultless := by decide +kernel

end NounPhrase
