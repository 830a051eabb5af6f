import StatementLexer.Toml.Quoted
import StatementLexer.Toml.Table

namespace StatementLexer.Toml

def isBareKey (c : Char) : Bool :=
  c.isAlphanum || c == '_' || c == '-'

/-- One part of a key: bare, or quoted on one line. -/
def simpleKey : Reader Key
  | '"' :: cs => basic cs
  | '\'' :: cs => literal cs
  | cs =>
      match cs.takeWhile isBareKey with
      | [] => none
      | k => some (k, cs.dropWhile isBareKey)

/-- Keys have fewer parts than this, and values are nested less deeply. -/
def nestingBound : Nat := 80

/-- A dotted key of at most `n` parts, with the blanks around them. -/
def keyPath : Nat → Reader KeyPath
  | 0, _ => none
  | n + 1, cs =>
      match simpleKey (skipBlanks cs) with
      | none => none
      | some (k, rest) =>
          match skipBlanks rest with
          | '.' :: rest' =>
              (keyPath n rest').map fun r => (⟨k :: r.1.through, r.1.last⟩, r.2)
          | rest' => some (⟨[], k⟩, rest')

def key : Reader KeyPath :=
  keyPath (nestingBound - 1)

end StatementLexer.Toml
