import NounPhrase.Name

/-!
# Terminals

A terminal is a word class: what the tagger makes of a `word/tag` item. The terminal `eof` stands
for the end of the input. Terminal names are lower case, which sets them apart from the names of
nonterminals in rule notation.

## Main definitions

* `Terminal`: the word classes.
* `Terminal.name`, `Terminal.all`: the names, and the terminals in the order of declaration.
* `Terminal.ofName`: the terminal of a name.

## Main results

* `Terminal.mem_all`: every terminal is listed.
* `Terminal.ofName_name`: a terminal is found by its name.
-/

namespace NounPhrase

/-- A word class, or the end of the input. -/
inductive Terminal
  | sentAdv | hereThere | prepMellan | det | nGen | propNGen | adv | konj | subj | prep
  | adjSing | adjPlur | adjSingPlur | num | pron | possPron | compNoun | propCompNoun | propNoun
  | comNoun | inf | infVerb | part | finVerb | supVerb | impVerb | conjVerb | delMin | delMaj
  | delParen | interj | uO | particip | konjVerb | eof
  deriving DecidableEq, Repr

namespace Terminal

/-- The terminals in the order of declaration. -/
def all : List Terminal := [
  .sentAdv, .hereThere, .prepMellan, .det, .nGen, .propNGen, .adv, .konj, .subj, .prep,
  .adjSing, .adjPlur, .adjSingPlur, .num, .pron, .possPron, .compNoun, .propCompNoun,
  .propNoun, .comNoun, .inf, .infVerb, .part, .finVerb, .supVerb, .impVerb, .conjVerb,
  .delMin, .delMaj, .delParen, .interj, .uO, .particip, .konjVerb, .eof]

/-- The name of a terminal in rule notation and in printed trees. -/
def name : Terminal → String
  | .sentAdv => "sent_adv"
  | .hereThere => "here_there"
  | .prepMellan => "prep_mellan"
  | .det => "det"
  | .nGen => "n_gen"
  | .propNGen => "prop_n_gen"
  | .adv => "adv"
  | .konj => "konj"
  | .subj => "subj"
  | .prep => "prep"
  | .adjSing => "adj_sing"
  | .adjPlur => "adj_plur"
  | .adjSingPlur => "adj_sing_plur"
  | .num => "num"
  | .pron => "pron"
  | .possPron => "poss_pron"
  | .compNoun => "comp_noun"
  | .propCompNoun => "prop_comp_noun"
  | .propNoun => "prop_noun"
  | .comNoun => "com_noun"
  | .inf => "inf"
  | .infVerb => "inf_verb"
  | .part => "part"
  | .finVerb => "fin_verb"
  | .supVerb => "sup_verb"
  | .impVerb => "imp_verb"
  | .conjVerb => "conj_verb"
  | .delMin => "del_min"
  | .delMaj => "del_maj"
  | .delParen => "del_paren"
  | .interj => "interj"
  | .uO => "u_o"
  | .particip => "particip"
  | .konjVerb => "konj_verb"
  | .eof => "eof"

/-- The terminal with the given name. -/
def ofName (s : String) : Except UnknownName Terminal :=
  match all.find? (·.name == s) with
  | some t => .ok t
  | none => .error ⟨.terminal, s⟩

theorem mem_all (t : Terminal) : t ∈ all := by cases t <;> decide

theorem ofName_name (t : Terminal) : ofName t.name = .ok t := by cases t <;> rfl

end Terminal

end NounPhrase
