import StatementLexer.Text.Quoted
import StatementLexer.Text.Utf8
import StatementLexer.Token.Basic

namespace StatementLexer.Token

def literalString? (t : Token) : Option String :=
  (t.literal.bind Utf8.decode?).map String.ofList

/-- The literal in quotes, after a comma; bytes that are no UTF-8 are replaced. -/
def displayLiteral : Option Bytes → String
  | none => ""
  | some bs => ", " ++ String.ofList (Text.quoted (Utf8.lossy bs))

/-- One line of a dump: the name of the kind, the literal if there is one, and the start. -/
def display (t : Token) : String :=
  "(" ++ t.kind.name ++ displayLiteral t.literal ++ ", " ++ t.start.display ++ ")"

end StatementLexer.Token
