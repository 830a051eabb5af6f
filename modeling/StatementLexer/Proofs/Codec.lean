import Mathlib.Data.List.Forall2
import StatementLexer.Codec
import StatementLexer.Toml.Key

namespace StatementLexer

namespace Toml

def AllBlank (cs : List Char) : Prop :=
  ∀ c ∈ cs, isBlank c = true

/-- A key that needs no quotes. -/
def Bare (k : Key) : Prop :=
  k ≠ [] ∧ ∀ c ∈ k, isBareKey c = true

/-- The end of a line, in front of the text of the lines behind it. The last line may end without
a break. -/
inductive LineEnd : List Char → List Char → Prop
  | feed (next : List Char) : LineEnd ('\n' :: next) next
  | returnFeed (next : List Char) : LineEnd ('\r' :: '\n' :: next) next
  | last : LineEnd [] []

/-- A line that assigns, with blanks wherever they may stand. -/
inductive Assigns (k : Key) (text : List Char) : List Char → Prop
  | line {before beforeSign afterSign behind : List Char} (hbefore : AllBlank before)
      (hbeforeSign : AllBlank beforeSign) (hafterSign : AllBlank afterSign)
      (hbehind : AllBlank behind) :
      Assigns k text
        (before ++ (k ++ (beforeSign ++ '=' :: (afterSign ++ (text ++ behind)))))

/-- The name of a switch, or a number in decimal digits. -/
inductive Scalar where
  | boolean (b : Bool)
  | natural (n : Nat)
  deriving DecidableEq, Repr

namespace Scalar

def text : Scalar → String
  | .boolean b => toString b
  | .natural n => toString n

/-- Integers have 64 bits with the sign. -/
def value? : Scalar → Option Value
  | .boolean b => some (.boolean b)
  | .natural n => if n < 0x8000000000000000 then some (.integer n) else none

end Scalar

/-- A text of assignments to bare keys, each on a line of its own. -/
inductive Written : List (String × Scalar) → List Char → Prop
  | nil : Written [] []
  | cons {key : String} {v : Scalar} {as : List (String × Scalar)} {line ending next : List Char}
      (hkey : Bare key.toList) (hline : Assigns key.toList v.text.toList line)
      (hending : LineEnd ending next) (hnext : Written as next) :
      Written ((key, v) :: as) (line ++ ending)

namespace Table

def empty : Table := fun _ => none

def set (t : Table) (key : String) (v : Value) : Table := fun k =>
  if k = key then some v else t k

theorem set_self (t : Table) (key : String) (v : Value) : t.set key v key = some v :=
  if_pos rfl

theorem set_of_ne {k key : String} (h : k ≠ key) (t : Table) (v : Value) :
    t.set key v k = t k :=
  if_neg h

end Table

/-- The table of assignments, unless one of them is out of range. -/
def table? : List (String × Scalar) → Option Table
  | [] => some .empty
  | (key, v) :: as => v.value?.bind fun value => (table? as).map (·.set key value)

theorem table?_eq_none_iff {as : List (String × Scalar)} :
    table? as = none ↔ ∃ a ∈ as, a.2.value? = none := by
  induction as with
  | nil => simp [table?]
  | cons a as ih =>
      rw [List.exists_mem_cons_iff, ← ih, table?]
      cases a.2.value? <;> simp

end Toml

/-- What a field gets from a table: its own datum where the table lacks the key, the boolean for a
switch, and an integer without a sign for a limit. -/
inductive Field.Gets (t : Toml.Table) : Field → Datum → Prop
  | absent {f : Field} (h : t f.key = none) : Gets t f f.absent
  | flag {key : String} {b d : Bool} (h : t key = some (.boolean b)) :
      Gets t ⟨key, .flag d⟩ (.flag b)
  | limit {key : String} {n : Nat} {d : Option Nat} (h : t key = some (.integer n)) :
      Gets t ⟨key, .limit d⟩ (.limit (some n))

theorem Field.Gets.set_of_ne {t : Toml.Table} {f : Field} {d : Datum} (h : f.Gets t d)
    {key : String} (hkey : f.key ≠ key) (v : Toml.Value) : f.Gets (t.set key v) d := by
  cases h with
  | absent h => exact .absent ((Toml.Table.set_of_ne hkey t v).trans h)
  | flag h => exact .flag ((Toml.Table.set_of_ne hkey t v).trans h)
  | limit h => exact .limit ((Toml.Table.set_of_ne hkey t v).trans h)

/-- What is written of a field; an absent limit leaves nothing. -/
def Datum.scalar? : Datum → Option Toml.Scalar
  | .flag b => some (.boolean b)
  | .limit n => n.map .natural

theorem Datum.eq_of_scalar?_eq_none {d : Datum} (h : d.scalar? = none) : d = .limit none := by
  rcases d with b | _ | n
  · cases h
  · rfl
  · cases h

namespace Codec

open Toml

/-- The documented behaviour of a codec, line by line and field by field. A line that assigns a
value to a new key adds this key to the table of the lines behind it, and no document holds an
integer out of range. A field with a default is taken from its key if the table has it. A field is
written as a line of its own, in front of the fields behind it. -/
structure Documented (c : Codec) : Prop where
  read_nil : c.read [] = some .empty
  read_assigns {key : String} {v : Scalar} {as : List (String × Scalar)}
    {line ending next : List Char} (hkey : Bare key.toList)
    (hline : Assigns key.toList v.text.toList line) (hending : LineEnd ending next)
    (hnext : Written as next) (hkeys : (key :: as.map Prod.fst).Nodup) :
    c.read (line ++ ending) = v.value?.bind fun value => (c.read next).map (·.set key value)
  decode_nil (t : Table) : c.decode [] t = some []
  decode_cons {t : Table} {f : Field} {d : Datum} (h : f.Gets t d) (fs : List Field) :
    c.decode (f :: fs) t = (c.decode fs t).map (d :: ·)
  write_nil : c.write [] = .ok ""
  write_absent (key : String) (ds : List (String × Datum)) :
    c.write ((key, .limit none) :: ds) = c.write ds
  write_scalar {key : String} {d : Datum} {v : Scalar} {ds : List (String × Datum)}
    {text : String} (hkey : Bare key.toList) (hnew : key ∉ ds.map Prod.fst)
    (hd : d.scalar? = some v) (hv : v.value?.isSome = true) (htext : c.write ds = .ok text) :
    ∃ line, Assigns key.toList v.text.toList line ∧
      c.write ((key, d) :: ds) = .ok (String.ofList (line ++ '\n' :: text.toList))
  write_outOfRange {d : Datum} {v : Scalar} (hd : d.scalar? = some v) (hv : v.value? = none)
    (key : String) (ds : List (String × Datum)) :
    ∃ reason, c.write ((key, d) :: ds) = .error reason
  write_error {ds : List (String × Datum)} {reason : String} (h : c.write ds = .error reason)
    (key : String) (d : Datum) : ∃ reason', c.write ((key, d) :: ds) = .error reason'

/-- The assignments that are written for fields. -/
def scalars (ds : List (String × Datum)) : List (String × Scalar) :=
  ds.filterMap fun d => d.2.scalar?.map fun v => (d.1, v)

namespace Documented

variable {c : Codec} (h : c.Documented)

include h

theorem read_written {as : List (String × Scalar)} {text : List Char} (hwritten : Written as text)
    (hkeys : (as.map Prod.fst).Nodup) : c.read text = table? as := by
  induction hwritten with
  | nil => exact h.read_nil
  | cons hkey hline hending hnext ih =>
      rw [h.read_assigns hkey hline hending hnext hkeys, table?, ih (List.nodup_cons.mp hkeys).2]

theorem decode_of_forall₂ {t : Table} {fs : List Field} {ds : List Datum}
    (hgets : List.Forall₂ (Field.Gets t) fs ds) : c.decode fs t = some ds := by
  induction hgets with
  | nil => exact h.decode_nil t
  | cons hf hfs ih => rw [h.decode_cons hf, ih, Option.map_some]

/-- Fields are written as their assignments exactly if all of these are in range. -/
theorem write_cases {ds : List (String × Datum)} (hbare : ∀ d ∈ ds, Bare d.1.toList)
    (hkeys : (ds.map Prod.fst).Nodup) :
    (∃ text, c.write ds = .ok text ∧ Written (scalars ds) text.toList ∧
      ∀ a ∈ scalars ds, a.2.value?.isSome = true) ∨
    (∃ reason, c.write ds = .error reason) ∧ ∃ a ∈ scalars ds, a.2.value? = none := by
  induction ds with
  | nil => exact .inl ⟨"", h.write_nil, .nil, List.forall_mem_nil _⟩
  | cons d ds ih =>
      obtain ⟨key, d⟩ := d
      obtain ⟨hkey, hbares⟩ := List.forall_mem_cons.mp hbare
      obtain ⟨hnew, hkeys'⟩ := List.nodup_cons.mp hkeys
      rcases hscalar : d.scalar? with _ | v
      · obtain rfl := Datum.eq_of_scalar?_eq_none hscalar
        rw [h.write_absent]
        exact ih hbares hkeys'
      have hcons : scalars ((key, d) :: ds) = (key, v) :: scalars ds := by
        simp [scalars, hscalar]
      rw [hcons, List.exists_mem_cons_iff, List.forall_mem_cons]
      rcases ih hbares hkeys' with ⟨text, htext, hwritten, hrange⟩ | ⟨⟨reason, hreason⟩, hout⟩
      · rcases hv : v.value? with _ | value
        · exact .inr ⟨h.write_outOfRange hscalar hv key ds, .inl rfl⟩
        · obtain ⟨line, hline, hwrite⟩ := h.write_scalar hkey hnew hscalar (by rw [hv]; rfl) htext
          refine .inl ⟨_, hwrite, ?_, rfl, hrange⟩
          rw [String.toList_ofList]
          exact .cons hkey hline (.feed _) hwritten
      · exact .inr ⟨h.write_error hreason key d, .inr hout⟩

end Documented

end Codec

end StatementLexer
