namespace StatementLexer.Toml

abbrev Key := List Char

/-- A dotted key: the tables it leads through, and the key inside the last of them. -/
structure KeyPath where
  through : List Key
  last : Key
  deriving DecidableEq, Repr

/-- A value by its type. The contents of strings, numbers with a fraction, dates, arrays and
tables are checked when they are read and not kept, since no setting holds one. -/
inductive Value where
  | boolean (b : Bool)
  | integer (n : Int)
  | float
  | string
  | dateTime
  | array
  | table
  deriving DecidableEq, Repr

/-- A table by the values of its keys. -/
abbrev Table := String → Option Value

/-- How a table came into being: by its own header, as a step of a longer header, or as a step
of a dotted key. -/
inductive Origin where
  | header
  | implied
  | dotted
  deriving DecidableEq, Repr

/-- What a key stands for. Of an array of tables only the newest table is kept: it is the only
one that later lines extend. -/
inductive Item where
  | value (v : Value)
  | table (origin : Origin) (entries : List (Key × Item))
  | tables (newest : List (Key × Item))

abbrev Entries := List (Key × Item)

namespace Entries

def replace (es : Entries) (k : Key) (item : Item) : Entries :=
  es.map fun e => if e.1 = k then (k, item) else e

def add (es : Entries) (k : Key) (item : Item) : Option Entries :=
  match es.lookup k with
  | none => some (es ++ [(k, item)])
  | some _ => none

/-- Changes the table at the end of a path. Missing tables on the way are created as `fresh`
ones. A path leads into the newest table of an array of tables and never through a value. A
dotted key does not lead into a table that has a header of its own. -/
def descend (fresh : Origin) (change : Origin → Entries → Option Entries) :
    List Key → Origin → Entries → Option Entries
  | [], origin, es => change origin es
  | k :: path, _, es =>
      match es.lookup k with
      | none =>
          (descend fresh change path fresh []).map fun inside => es ++ [(k, .table fresh inside)]
      | some (.value _) => none
      | some (.tables newest) =>
          (descend fresh change path .header newest).map fun inside =>
            es.replace k (.tables inside)
      | some (.table origin inside) =>
          if fresh = .dotted ∧ origin = .header then none
          else
            (descend fresh change path origin inside).map fun inside =>
              es.replace k (.table origin inside)

/-- Assigns a value to a key that has none. The tables that a dotted key leads through must come
from dotted keys. -/
def assign (es : Entries) (path : KeyPath) (v : Value) : Option Entries :=
  match path.through with
  | [] => es.add path.last (.value v)
  | _ :: _ =>
      es.descend .dotted
        (fun origin inside => if origin = .dotted then inside.add path.last (.value v) else none)
        path.through .header

/-- Opens the table of a header. It must be new, or known only as a step of a longer header. -/
def openTable (es : Entries) (path : KeyPath) : Option Entries :=
  es.descend .implied
    (fun _ inside =>
      match inside.lookup path.last with
      | none => inside.add path.last (.table .header [])
      | some (.table .implied entries) => some (inside.replace path.last (.table .header entries))
      | some _ => none)
    path.through .header

def openArrayTable (es : Entries) (path : KeyPath) : Option Entries :=
  es.descend .implied
    (fun _ inside =>
      match inside.lookup path.last with
      | none => inside.add path.last (.tables [])
      | some (.tables _) => some (inside.replace path.last (.tables []))
      | some _ => none)
    path.through .header

end Entries

end StatementLexer.Toml
