import StatementLexer.Toml.DateTime
import StatementLexer.Toml.Key
import StatementLexer.Toml.Number

namespace StatementLexer.Toml

def scalar : Reader Value
  | 't' :: 'r' :: 'u' :: 'e' :: cs => some (.boolean true, cs)
  | 'f' :: 'a' :: 'l' :: 's' :: 'e' :: cs => some (.boolean false, cs)
  | cs =>
      (skipString? cs).map (fun rest => (.string, rest)) <|>
      (skipDateTime? cs).map (fun rest => (.dateTime, rest)) <|>
      (skipFloat? cs).map (fun rest => (.float, rest)) <|>
      (integer cs).map fun r => (.integer r.1, r.2)

/-- The text after an array, whose opening bracket is read. Blanks, line breaks and comments may
stand around its elements, and a comma after the last one. -/
def skipArray (element : Reader Value) (cs : List Char) : Option (List Char) :=
  match skipGaps false cs with
  | ']' :: rest => some rest
  | cs' =>
      match element cs' with
      | none => none
      | some (_, rest) =>
          match skipGaps false rest with
          | ']' :: rest' => some rest'
          | ',' :: rest' => if rest'.length < cs.length then skipArray element rest' else none
          | _ => none
termination_by cs.length

def assignment (value : Reader Value) : Reader (KeyPath × Value) := fun cs =>
  match key cs with
  | some (path, '=' :: rest) => (value (skipBlanks rest)).map fun r => ((path, r.1), r.2)
  | _ => none

/-- The text after the assignments of an inline table, the last of which a brace follows. -/
def skipAssignments (value : Reader Value) (es : Entries) (cs : List Char) :
    Option (List Char) :=
  match assignment value cs with
  | none => none
  | some ((path, v), rest) =>
      match es.assign path v with
      | none => none
      | some es' =>
          match skipBlanks rest with
          | '\x7d' :: rest' => some rest'
          | ',' :: rest' =>
              if rest'.length < cs.length then skipAssignments value es' rest' else none
          | _ => none
termination_by cs.length

/-- The text after an inline table, whose opening brace is read. It stands on one line. -/
def skipInlineTable (value : Reader Value) (cs : List Char) : Option (List Char) :=
  match skipBlanks cs with
  | '\x7d' :: rest => some rest
  | cs' => skipAssignments value [] cs'

/-- A value with at most `depth` arrays and inline tables inside each other. -/
def value : Nat → Reader Value
  | depth + 1, '[' :: cs => (skipArray (value depth) cs).map fun rest => (.array, rest)
  | depth + 1, '\x7b' :: cs =>
      (skipInlineTable (value depth) cs).map fun rest => (.table, rest)
  | _, cs => scalar cs

end StatementLexer.Toml
