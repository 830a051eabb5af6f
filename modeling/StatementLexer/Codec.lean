import StatementLexer.Toml.Table

namespace StatementLexer

/-- What a field of a record holds: a switch, or a limit that may be absent. -/
inductive Datum where
  | flag (b : Bool)
  | limit (n : Option Nat)
  deriving DecidableEq, Repr

/-- A field of a record: its key in a document, and what it holds where the document does not
have the key. -/
structure Field where
  key : String
  absent : Datum
  deriving DecidableEq, Repr

/-- How records are kept as text: a document is read as a table, the fields of a record are taken
from a table, and fields with their keys are written as a document, unless one of them cannot
be. -/
structure Codec where
  read : List Char → Option Toml.Table
  decode : List Field → Toml.Table → Option (List Datum)
  write : List (String × Datum) → Except String String

end StatementLexer
