import NounPhrase.Name

/-!
# Actions

Every rule names the action that turns the trees of its right-hand side into the tree of its
left-hand side. Where a phrase has several derivations, the one whose rule has the action of
highest priority is chosen.

## Main definitions

* `Action`: the actions.
* `Action.name`, `Action.all`, `Action.ofName`: their names, the actions in the order of
  declaration, and the action of a name.
* `Action.priority`: the rank of a derivation among its competitors.

## Main results

* `Action.mem_all`: every action is listed.
* `Action.ofName_name`: an action is found by its name.
-/

namespace NounPhrase

/-- What a rule does with the trees of its right-hand side. -/
inductive Action
  | start | sentence | listEmpty | listEmptyLow | listTerm | listCons | listConsSing
  | listConsPlur | listConsLeft | optNone | optTerm | optNonterm | word | phraseDetPossPron
  | phraseAdvp | phraseVc | phraseAp | phraseInfp | phraseNump | phraseNp | phrasePp | advp
  | det | detPossPron | detPossPronDet | adj | apMinItem | apMin | apMinCont | apMinAlt
  | apMaxAlt | apMax | konjDelMin | propCompNounCont | compNounCont | numPhrase | npRestPhrase
  | npRest | npSifPhrase | npSif | npCom1 | npCom2 | npCom3 | npPhrase | npCom | npProp | nppc
  | npComp | ppAp | vc | ppNp | vcList | ppMellan | ppKonj | vcListSup | infp
  deriving DecidableEq, Repr

namespace Action

/-- The actions in the order of declaration. -/
def all : List Action := [
  .start, .sentence, .listEmpty, .listEmptyLow, .listTerm, .listCons, .listConsSing,
  .listConsPlur, .listConsLeft, .optNone, .optTerm, .optNonterm, .word, .phraseDetPossPron,
  .phraseAdvp, .phraseVc, .phraseAp, .phraseInfp, .phraseNump, .phraseNp, .phrasePp, .advp,
  .det, .detPossPron, .detPossPronDet, .adj, .apMinItem, .apMin, .apMinCont, .apMinAlt,
  .apMaxAlt, .apMax, .konjDelMin, .propCompNounCont, .compNounCont, .numPhrase,
  .npRestPhrase, .npRest, .npSifPhrase, .npSif, .npCom1, .npCom2, .npCom3, .npPhrase,
  .npCom, .npProp, .nppc, .npComp, .ppAp, .vc, .ppNp, .vcList, .ppMellan, .ppKonj,
  .vcListSup, .infp]

/-- The name of an action in rule notation. -/
def name : Action → String
  | .start => "start"
  | .sentence => "sentence"
  | .listEmpty => "list_empty"
  | .listEmptyLow => "list_empty_low"
  | .listTerm => "list_term"
  | .listCons => "list_cons"
  | .listConsSing => "list_cons_sing"
  | .listConsPlur => "list_cons_plur"
  | .listConsLeft => "list_cons_left"
  | .optNone => "opt_none"
  | .optTerm => "opt_term"
  | .optNonterm => "opt_nonterm"
  | .word => "word"
  | .phraseDetPossPron => "phrase_det_poss_pron"
  | .phraseAdvp => "phrase_advp"
  | .phraseVc => "phrase_vc"
  | .phraseAp => "phrase_ap"
  | .phraseInfp => "phrase_infp"
  | .phraseNump => "phrase_nump"
  | .phraseNp => "phrase_np"
  | .phrasePp => "phrase_pp"
  | .advp => "advp"
  | .det => "det"
  | .detPossPron => "det_poss_pron"
  | .detPossPronDet => "det_poss_pron_det"
  | .adj => "adj"
  | .apMinItem => "ap_min_item"
  | .apMin => "ap_min"
  | .apMinCont => "ap_min_cont"
  | .apMinAlt => "ap_min_alt"
  | .apMaxAlt => "ap_max_alt"
  | .apMax => "ap_max"
  | .konjDelMin => "konj_del_min"
  | .propCompNounCont => "prop_comp_noun_cont"
  | .compNounCont => "comp_noun_cont"
  | .numPhrase => "num_phrase"
  | .npRestPhrase => "np_rest_phrase"
  | .npRest => "np_rest"
  | .npSifPhrase => "np_sif_phrase"
  | .npSif => "np_sif"
  | .npCom1 => "np_com_1"
  | .npCom2 => "np_com_2"
  | .npCom3 => "np_com_3"
  | .npPhrase => "np_phrase"
  | .npCom => "np_com"
  | .npProp => "np_prop"
  | .nppc => "nppc"
  | .npComp => "np_comp"
  | .ppAp => "pp_ap"
  | .vc => "vc"
  | .ppNp => "pp_np"
  | .vcList => "vc_list"
  | .ppMellan => "pp_mellan"
  | .ppKonj => "pp_konj"
  | .vcListSup => "vc_list_sup"
  | .infp => "infp"

/-- The action with the given name. -/
def ofName (s : String) : Except UnknownName Action :=
  match all.find? (·.name == s) with
  | some a => .ok a
  | none => .error ⟨.action, s⟩

theorem mem_all (a : Action) : a ∈ all := by cases a <;> decide

theorem ofName_name (a : Action) : ofName a.name = .ok a := by cases a <;> rfl

/-- The rank of a derivation among those of one phrase. Larger constituents rank higher, and a
list that grows to the left ranks above all. -/
def priority : Action → Nat
  | .start | .sentence => 0
  | .listEmptyLow | .word => 10
  | .listEmpty | .optNone => 20
  | .listTerm | .listCons | .listConsSing | .listConsPlur | .optTerm | .optNonterm
  | .phraseDetPossPron => 30
  | .phraseAdvp | .phraseVc => 40
  | .phraseAp | .phraseInfp | .phraseNump => 50
  | .phraseNp => 60
  | .phrasePp => 70
  | .advp | .det | .detPossPron | .detPossPronDet => 90
  | .adj => 100
  | .apMinItem => 110
  | .apMin => 120
  | .apMinCont => 130
  | .apMinAlt => 140
  | .apMaxAlt | .apMax => 150
  | .konjDelMin => 160
  | .propCompNounCont | .compNounCont | .numPhrase => 170
  | .npRestPhrase | .npRest => 180
  | .npSifPhrase | .npSif => 190
  | .npCom1 | .npCom2 | .npCom3 => 200
  | .npPhrase | .npCom | .npProp | .nppc | .npComp => 210
  | .ppAp | .vc => 220
  | .ppNp | .vcList => 230
  | .ppMellan | .ppKonj | .vcListSup => 240
  | .infp => 250
  | .listConsLeft => 500

end Action

end NounPhrase
