namespace StatementLexer

/-- How a source is tokenized: whether statement terminators are inferred, whether constructs
that the end of the source cuts short are logged, and the largest source a reader accepts. -/
structure Settings where
  insertTerminators : Bool := true
  warnUnterminated : Bool := true
  maxSourceBytes : Option Nat := none
  deriving DecidableEq, Repr

instance : Inhabited Settings := ⟨{}⟩

end StatementLexer
