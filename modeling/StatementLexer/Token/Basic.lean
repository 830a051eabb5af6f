import StatementLexer.Position
import StatementLexer.Token.Kind

namespace StatementLexer

/-- A classified piece of a source, from its first byte to just past its last one. A string
literal starts after its opening delimiter and stops after its closing one. -/
structure Token where
  kind : Kind
  literal : Option Bytes
  start : Position
  stop : Position
  deriving DecidableEq, Repr

namespace Token

/-- A token without bytes of its own. -/
def plain (kind : Kind) (start stop : Position) : Token :=
  ⟨kind, none, start, stop⟩

def withLiteral (kind : Kind) (literal : Bytes) (start stop : Position) : Token :=
  ⟨kind, some literal, start, stop⟩

/-- The line break that leads to the position `p`. -/
def lineBreakAt (p : Position) : Token :=
  plain .endOfLine p p

def terminatorAt (p : Position) : Token :=
  plain .semicolon p p

def is (t : Token) (k : Kind) : Bool :=
  t.kind == k

end Token

end StatementLexer
