import StatementLexer.Lexeme.Basic
import StatementLexer.Token.Display

namespace StatementLexer

/-- How much an event matters, the most severe level first. -/
inductive Level where
  | error
  | warn
  | debug
  | trace
  deriving DecidableEq, Repr

def Level.name : Level → String
  | .error => "ERROR"
  | .warn => "WARN"
  | .debug => "DEBUG"
  | .trace => "TRACE"

/-- What is logged while a source is read, scanned and terminated. -/
inductive Event where
  | sourceRead (bytes : Nat)
  | scanStarted (bytes : Nat)
  | emitted (t : Token)
  | unterminated (c : Construct) (opened : Position)
  | scanFinished (tokens lines : Nat)
  | boundariesInferred (raw out inserted : Nat)
  | terminatorAppended (place : Position)
  | tokenized (tokens : Nat)
  deriving DecidableEq, Repr

namespace Event

def level : Event → Level
  | .emitted _ => .trace
  | .unterminated .. => .warn
  | _ => .debug

def message : Event → String
  | .sourceRead _ => "read source"
  | .scanStarted _ => "scan started"
  | .emitted _ => "emit"
  | .unterminated .. => "unterminated at end of input"
  | .scanFinished .. => "scan finished"
  | .boundariesInferred .. => "boundaries inferred"
  | .terminatorAppended _ => "trailing terminator appended"
  | .tokenized _ => "tokenized"

/-- The names and values that go with the message. -/
def fields : Event → List (String × String)
  | .sourceRead bytes => [("bytes", toString bytes)]
  | .scanStarted bytes => [("bytes", toString bytes)]
  | .emitted t => [("token", t.display)]
  | .unterminated c opened => [("construct", c.name), ("at", opened.display)]
  | .scanFinished tokens lines => [("tokens", toString tokens), ("lines", toString lines)]
  | .boundariesInferred raw out inserted =>
      [("raw", toString raw), ("out", toString out), ("inserted", toString inserted)]
  | .terminatorAppended place => [("at", place.display)]
  | .tokenized tokens => [("tokens", toString tokens)]

/-- An event is kept by a log of its own level and of every less severe one. -/
def isKept (threshold : Level) (e : Event) : Bool :=
  e.level.ctorIdx ≤ threshold.ctorIdx

end Event

end StatementLexer
