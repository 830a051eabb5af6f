import StatementLexer.Toml.Value

namespace StatementLexer.Toml

/-- A document read so far: its entries, and the path of the table that assignments go to. -/
structure Document where
  root : Entries
  current : List Key

namespace Document

def start : Document := ⟨[], []⟩

def assign (d : Document) (path : KeyPath) (v : Value) : Option Document :=
  (d.root.descend .implied (fun _ es => es.assign path v) d.current .header).map fun root =>
    ⟨root, d.current⟩

def openTable (d : Document) (path : KeyPath) : Option Document :=
  (d.root.openTable path).map fun root => ⟨root, path.through ++ [path.last]⟩

def openArrayTable (d : Document) (path : KeyPath) : Option Document :=
  (d.root.openArrayTable path).map fun root => ⟨root, path.through ++ [path.last]⟩

/-- Reads a header or an assignment, after the blanks before it. -/
def statement (d : Document) : Reader Document
  | '[' :: '[' :: cs =>
      match key cs with
      | some (path, ']' :: ']' :: rest) => (d.openArrayTable path).map fun d => (d, rest)
      | _ => none
  | '[' :: cs =>
      match key cs with
      | some (path, ']' :: rest) => (d.openTable path).map fun d => (d, rest)
      | _ => none
  | cs =>
      match assignment (value (nestingBound - 1)) cs with
      | some ((path, v), rest) => (d.assign path v).map fun d => (d, rest)
      | none => none

/-- Reads the lines of a document: each is empty, a header or an assignment, and may end in a
comment. -/
def lines (d : Document) (cs : List Char) : Option Document :=
  match skipBlanks cs with
  | [] => some d
  | c :: cs' =>
      let next := match finishLine? (c :: cs') with
        | some rest => some (d, rest)
        | none =>
            match d.statement (c :: cs') with
            | some (d', rest) => (finishLine? rest).map fun rest => (d', rest)
            | none => none
      match next with
      | none => none
      | some (d', rest) => if rest.length < cs.length then lines d' rest else none
termination_by cs.length

end Document

/-- A byte order mark may precede the first line. -/
def skipMark : List Char → List Char
  | '\uFEFF' :: cs => cs
  | cs => cs

/-- The entries at the top of a document, unless the text breaks a rule of the format. -/
def read (cs : List Char) : Option Entries :=
  (Document.start.lines (skipMark cs)).map Document.root

end StatementLexer.Toml
