import NounPhrase.Terminal

/-!
# Tokens

A token is one classified item of the input: its terminal, together with the word and the tag it
came from. Either of the two may be absent; the end marker has neither.

## Main definitions

* `Token`: a classified item, with its text `Token.text`.
* `Token.endMarker`: the token that closes every input.
-/

namespace NounPhrase

/-- A classified item of the input. -/
structure Token where
  terminal : Terminal
  word : Option String
  tag : Option String
  deriving DecidableEq, Repr

namespace Token

/-- The token that closes every input. -/
def endMarker : Token := ⟨.eof, none, none⟩

/-- The item as it was written, followed by the terminal in brackets; a token with neither word
nor tag is written as its terminal alone. -/
def text (t : Token) : String :=
  match t.word, t.tag with
  | some word, some tag => word ++ "/" ++ tag ++ " [" ++ t.terminal.name ++ "]"
  | none, some tag => tag ++ " [" ++ t.terminal.name ++ "]"
  | some word, none => word ++ " [" ++ t.terminal.name ++ "]"
  | none, none => t.terminal.name

end Token

end NounPhrase
