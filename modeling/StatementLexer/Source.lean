import StatementLexer.Byte
import StatementLexer.Error

namespace StatementLexer

/-- One answer of a reader: bytes, of which none mean the end of the source, or a failure. -/
inductive Chunk where
  | bytes (data : Bytes)
  | failure (e : IoError)
  deriving DecidableEq, Repr

namespace Source

/-- The largest limit there is: limits have 64 bits. -/
def maxLimit : Nat := 0xFFFFFFFFFFFFFFFF

def cut : Option Nat → Bytes → Bytes
  | none, data => data
  | some n, data => data.take n

/-- Collects the chunks of a reader until it ends or the budget of bytes is used up. A reader
that was interrupted is asked again. -/
def collect : Option Nat → List Chunk → Except IoError Bytes
  | some 0, _ => .ok []
  | _, [] => .ok []
  | budget, .failure e :: chunks =>
      if e.kind = .interrupted then collect budget chunks else .error e
  | _, .bytes [] :: _ => .ok []
  | budget, .bytes data :: chunks =>
      (collect (budget.map (· - data.length)) chunks).map (cut budget data ++ ·)

/-- Reads a whole source. With a limit, reading stops one byte past it, and a source that
reaches this byte is rejected. -/
def read : Option Nat → List Chunk → Except Error Bytes
  | none, chunks => (collect none chunks).mapError .io
  | some limit, chunks =>
      (collect (some (min (limit + 1) maxLimit)) chunks).mapError .io >>= fun data =>
        if limit < data.length then .error (.tooLarge limit) else .ok data

end Source

end StatementLexer
