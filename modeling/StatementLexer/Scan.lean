import StatementLexer.Cursor
import StatementLexer.Lexeme.Split
import StatementLexer.Token.Basic

namespace StatementLexer

/-- What reading a unit reports: a token, or a construct that the end of the source cuts short,
with the position where it was opened. -/
inductive Signal where
  | token (t : Token)
  | truncated (c : Construct) (opened : Position)
  deriving DecidableEq, Repr

def Signal.token? : Signal → Option Token
  | .token t => some t
  | .truncated .. => none

namespace Lexeme

/-- One token for every line feed of a text that starts on line `line`. -/
def lineBreaks (line : Nat) (text : Bytes) : List Signal :=
  (List.range (text.count Byte.lineFeed)).map fun i =>
    .token (.lineBreakAt ⟨line + i + 1, 0⟩)

/-- What a unit reports that reaches from `start` to `stop`. -/
def signals (start stop : Position) : Lexeme → List Signal
  | .lineBreak => [.token (.lineBreakAt stop)]
  | .blank _ => []
  | .lineComment _ => []
  | .blockComment text => lineBreaks start.line text
  | .openComment text => lineBreaks start.line text ++ [.truncated .blockComment start]
  | .quoted _ text =>
      [.token (.withLiteral .stringLit text ⟨start.line, start.column + 1⟩ stop)]
  | .openQuoted q _ => [.truncated q.construct start]
  | .number digits => [.token (.withLiteral .intLit digits start stop)]
  | .symbol k => [.token (.plain k start stop)]
  | .name text => [.token (.withLiteral .identifier text start stop)]

def read (l : Lexeme) (c : Cursor) : Except Fault (List Signal × Cursor) :=
  c.advanceBy l.bytes.length >>= fun d => .ok (l.signals c.location d.location, d)

end Lexeme

/-- The outcome of a scan: everything reported, in order, and the cursor after the last unit. -/
structure Scan where
  signals : List Signal
  finish : Cursor
  deriving DecidableEq, Repr

namespace Scan

def run : Cursor → List Lexeme → Except Fault Scan
  | c, [] => .ok ⟨[], c⟩
  | c, l :: ls =>
      l.read c >>= fun r =>
        run r.2 ls >>= fun s => .ok ⟨r.1 ++ s.signals, s.finish⟩

/-- The raw stream: line breaks are tokens, and no terminator has been inferred. -/
def tokens (s : Scan) : List Token :=
  s.signals.filterMap Signal.token?

end Scan

def scan (source : Bytes) : Except Fault Scan :=
  Scan.run (.start source) (Lexeme.split source)

def rawTokens (source : Bytes) : Except Fault (List Token) :=
  (scan source).map Scan.tokens

end StatementLexer
