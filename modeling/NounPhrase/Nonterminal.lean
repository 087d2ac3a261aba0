import NounPhrase.Name

/-!
# Nonterminals

A nonterminal is a phrase category of the rule table. Its name is upper case. By convention a
name that ends in `_S` is a list of constituents, one in `_Q` an optional constituent and one in
`_L` the inside of a phrase. `START` is kept for the rule that ends the input.

## Main definitions

* `Nonterminal`: the phrase categories.
* `Nonterminal.name`, `Nonterminal.all`: the names, and the categories in the order of
  declaration.
* `Nonterminal.ofName`: the nonterminal of a name.

## Main results

* `Nonterminal.mem_all`: every nonterminal is listed.
* `Nonterminal.ofName_name`: a nonterminal is found by its name.
-/

namespace NounPhrase

/-- A phrase category. -/
inductive Nonterminal
  | np | adjPlur | adjSing | advp | advpQ | advpS | ap | apMin | apMinPlurContL | apMinPlurContS
  | apMinPlurL | apMinPlurS | apMinSingContL | apMinSingContS | apMinSingL | apMinSingS | apMax
  | apS | apQ | comNounS | compNounContL | compNounContS | delMinQ | det | detQ | detPossPron
  | detPossPronQ | hereThereQ | konjDelMinQ | konjQ | npComL | npCom1L | npCom2L | npCom3L
  | npCompL | nGenQ | nppcL | npPropL | npRestL | npSifL | numQ | numS | numP
  | propCompNounContL | propCompNounContS | propNounS | compNounS | infp | infVerbS | npS
  | partQ | phrase | phraseS | pp | ppQ | ppS | sAdvpS | sent | vc | start
  deriving DecidableEq, Repr

namespace Nonterminal

/-- The nonterminals in the order of declaration. -/
def all : List Nonterminal := [
  .np, .adjPlur, .adjSing, .advp, .advpQ, .advpS, .ap, .apMin, .apMinPlurContL,
  .apMinPlurContS, .apMinPlurL, .apMinPlurS, .apMinSingContL, .apMinSingContS, .apMinSingL,
  .apMinSingS, .apMax, .apS, .apQ, .comNounS, .compNounContL, .compNounContS, .delMinQ,
  .det, .detQ, .detPossPron, .detPossPronQ, .hereThereQ, .konjDelMinQ, .konjQ, .npComL,
  .npCom1L, .npCom2L, .npCom3L, .npCompL, .nGenQ, .nppcL, .npPropL, .npRestL, .npSifL,
  .numQ, .numS, .numP, .propCompNounContL, .propCompNounContS, .propNounS, .compNounS,
  .infp, .infVerbS, .npS, .partQ, .phrase, .phraseS, .pp, .ppQ, .ppS, .sAdvpS, .sent, .vc,
  .start]

/-- The name of a nonterminal in rule notation and in printed trees. -/
def name : Nonterminal → String
  | .np => "NP"
  | .adjPlur => "ADJPLUR"
  | .adjSing => "ADJSING"
  | .advp => "ADVP"
  | .advpQ => "ADVP_Q"
  | .advpS => "ADVP_S"
  | .ap => "AP"
  | .apMin => "APMIN"
  | .apMinPlurContL => "APMINPLURCONT_L"
  | .apMinPlurContS => "APMINPLURCONT_S"
  | .apMinPlurL => "APMINPLUR_L"
  | .apMinPlurS => "APMINPLUR_S"
  | .apMinSingContL => "APMINSINGCONT_L"
  | .apMinSingContS => "APMINSINGCONT_S"
  | .apMinSingL => "APMINSING_L"
  | .apMinSingS => "APMINSING_S"
  | .apMax => "APMAX"
  | .apS => "AP_S"
  | .apQ => "AP_Q"
  | .comNounS => "COMNOUN_S"
  | .compNounContL => "COMPNOUNCONT_L"
  | .compNounContS => "COMPNOUNCONT_S"
  | .delMinQ => "DELMIN_Q"
  | .det => "DET"
  | .detQ => "DET_Q"
  | .detPossPron => "DETPOSSPRON"
  | .detPossPronQ => "DETPOSSPRON_Q"
  | .hereThereQ => "HERETHERE_Q"
  | .konjDelMinQ => "KONJDELMINQ"
  | .konjQ => "KONJ_Q"
  | .npComL => "NPCOM_L"
  | .npCom1L => "NPCOM1_L"
  | .npCom2L => "NPCOM2_L"
  | .npCom3L => "NPCOM3_L"
  | .npCompL => "NPCOMP_L"
  | .nGenQ => "NGEN_Q"
  | .nppcL => "NPPC_L"
  | .npPropL => "NPPROP_L"
  | .npRestL => "NPREST_L"
  | .npSifL => "NPSIF_L"
  | .numQ => "NUM_Q"
  | .numS => "NUM_S"
  | .numP => "NUMP"
  | .propCompNounContL => "PROPCOMPNOUNCONT_L"
  | .propCompNounContS => "PROPCOMPNOUNCONT_S"
  | .propNounS => "PROPNOUN_S"
  | .compNounS => "COMPNOUN_S"
  | .infp => "INFP"
  | .infVerbS => "INFVERB_S"
  | .npS => "NP_S"
  | .partQ => "PART_Q"
  | .phrase => "PHRASE"
  | .phraseS => "PHRASE_S"
  | .pp => "PP"
  | .ppQ => "PP_Q"
  | .ppS => "PP_S"
  | .sAdvpS => "SADVP_S"
  | .sent => "SENT"
  | .vc => "VC"
  | .start => "START"

/-- The nonterminal with the given name. -/
def ofName (s : String) : Except UnknownName Nonterminal :=
  match all.find? (·.name == s) with
  | some n => .ok n
  | none => .error ⟨.nonterminal, s⟩

theorem mem_all (n : Nonterminal) : n ∈ all := by cases n <;> decide

theorem ofName_name (n : Nonterminal) : ofName n.name = .ok n := by cases n <;> rfl

end Nonterminal

end NounPhrase
