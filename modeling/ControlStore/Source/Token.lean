import ControlStore.Assertion

/-!
# Tokens

The text of a program is read as a list of tokens, each with the line it starts on.
-/

namespace ControlStore

/-- What a token says. -/
inductive TokenKind where
  | integer (value : Int)
  | word (text : String)
  | string (text : String)
  /-- Values between parentheses: parameters or arguments. -/
  | list (items : List Value)
  | openBlock
  | closeBlock
  /-- Two values with a colon between them. -/
  | pair (key value : Value)
  | comma
  deriving DecidableEq, Repr, Inhabited

/-- A token with the line it starts on. -/
structure Token where
  kind : TokenKind
  line : Nat
  deriving DecidableEq, Repr, Inhabited

/-- A token much as it was written, for messages. -/
def TokenKind.text : TokenKind → String
  | .integer value => toString value
  | .word text => text
  | .string text => text
  | .list items => "(" ++ ", ".intercalate (items.map Value.text) ++ ")"
  | .openBlock => "\x7b"
  | .closeBlock => "\x7d"
  | .pair key value => key.text ++ ":" ++ value.text
  | .comma => ","

def Token.text (token : Token) : String := token.kind.text

end ControlStore
