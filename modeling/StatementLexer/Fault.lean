namespace StatementLexer

/-- What stops an operation that counts: a line or column number that leaves 32 bits, a byte
offset that leaves 64 bits, or a slice that starts behind its end. -/
inductive Fault where
  | line
  | column
  | offset
  | slice
  deriving DecidableEq, Repr

end StatementLexer
