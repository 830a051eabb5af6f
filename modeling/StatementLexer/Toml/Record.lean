import StatementLexer.Codec
import StatementLexer.Toml.Document

namespace StatementLexer.Toml

def Item.toValue : Item → Value
  | .value v => v
  | .table .. => .table
  | .tables _ => .array

def Entries.table (es : Entries) : Table := fun key =>
  (es.lookup key.toList).map Item.toValue

/-- What a field takes from the value of its key. A limit has no sign. -/
def datum? (absent : Datum) : Option Value → Option Datum
  | none => some absent
  | some v =>
      match absent, v with
      | .flag _, .boolean b => some (.flag b)
      | .limit _, .integer n => if 0 ≤ n then some (.limit (some n.toNat)) else none
      | _, _ => none

/-- Keys that belong to no field are ignored. -/
def decode : List Field → Table → Option (List Datum)
  | [], _ => some []
  | f :: fs, t => (datum? f.absent (t f.key)).bind fun d => (decode fs t).map (d :: ·)

def line (key value : String) : String :=
  key ++ " = " ++ value ++ "\n"

/-- Limits that a document can hold stay below this bound: its integers have 64 bits with the
sign. -/
def limitBound : Nat := 0x8000000000000000

/-- One line for each field, and none for an absent limit. -/
def write : List (String × Datum) → Except String String
  | [] => .ok ""
  | (key, .flag b) :: ds => (write ds).map (line key (toString b) ++ ·)
  | (_, .limit none) :: ds => write ds
  | (key, .limit (some n)) :: ds =>
      if n < limitBound then (write ds).map (line key (toString n) ++ ·)
      else .error "out-of-range value for u64 type"

/-- The codec that is used where no other is given. -/
def codec : Codec where
  read text := (read text).map Entries.table
  decode := decode
  write := write

end StatementLexer.Toml
