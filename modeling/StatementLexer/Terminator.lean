import StatementLexer.Token.Basic

namespace StatementLexer.Terminator

/-- The stream built so far, last token first, and the number of line breaks that became
terminators. -/
structure Progress where
  emitted : List Token
  inserted : Nat
  deriving DecidableEq, Repr

namespace Progress

def start : Progress := ⟨[], 0⟩

/-- A line break becomes a terminator right after a token that can end a statement, and is
dropped otherwise. A semicolon takes the place of a semicolon before it. -/
def step (s : Progress) (t : Token) : Progress :=
  match s.emitted with
  | [] => if t.kind = .endOfLine then s else ⟨[t], s.inserted⟩
  | last :: before =>
      if t.kind = .endOfLine then
        if last.kind.endsStatement then
          ⟨⟨.semicolon, t.literal, last.stop, last.stop⟩ :: last :: before, s.inserted + 1⟩
        else s
      else if t.kind = .semicolon ∧ last.kind = .semicolon then ⟨t :: before, s.inserted⟩
      else ⟨t :: last :: before, s.inserted⟩

end Progress

structure Inference where
  tokens : List Token
  inserted : Nat
  deriving DecidableEq, Repr

/-- Replaces line breaks by terminators where a statement can end, drops the other line breaks,
and leaves one semicolon of neighbouring ones. -/
def infer (ts : List Token) : Inference :=
  let s := ts.foldl Progress.step .start
  ⟨s.emitted.reverse, s.inserted⟩

def inferBoundaries (ts : List Token) : List Token :=
  (infer ts).tokens

/-- The terminator that a stream lacks at its end. It stands just past the last token, or at the
start of an empty source. -/
def missing? (ts : List Token) : Option Token :=
  match ts.getLast? with
  | none => some (.terminatorAt .start)
  | some last => if last.kind = .semicolon then none else some (.terminatorAt last.stop)

def terminateFinal (ts : List Token) : List Token :=
  ts ++ (missing? ts).toList

def terminate (ts : List Token) : List Token :=
  terminateFinal (inferBoundaries ts)

end StatementLexer.Terminator
