import StatementLexer.Byte
import StatementLexer.Fault

namespace StatementLexer

/-- A place in a source: lines are counted from 1, columns from 0 in bytes. -/
structure Position where
  line : Nat
  column : Nat
  deriving DecidableEq, Repr

namespace Position

/-- Line and column numbers stay below this bound: they have 32 bits. -/
def bound : Nat := 0x100000000

def start : Position := ⟨1, 0⟩

instance : Inhabited Position := ⟨start⟩

def offsetColumns (p : Position) (n : Nat) : Except Fault Position :=
  if p.column + n < bound then .ok ⟨p.line, p.column + n⟩ else .error .column

def nextLine (p : Position) : Except Fault Position :=
  if p.line + 1 < bound then .ok ⟨p.line + 1, 0⟩ else .error .line

/-- The position after the byte `b`: a line feed opens the next line, any other byte moves one
column to the right. -/
def step (p : Position) (b : UInt8) : Except Fault Position :=
  if b = Byte.lineFeed then p.nextLine else p.offsetColumns 1

def walk : Position → Bytes → Except Fault Position
  | p, [] => .ok p
  | p, b :: bs => p.step b >>= fun q => walk q bs

@[simp] theorem walk_nil (p : Position) : p.walk [] = .ok p := rfl

theorem walk_cons (p : Position) (b : UInt8) (bs : Bytes) :
    p.walk (b :: bs) = p.step b >>= fun q => q.walk bs := rfl

theorem walk_append (p : Position) (a b : Bytes) :
    p.walk (a ++ b) = p.walk a >>= fun q => q.walk b := by
  induction a generalizing p with
  | nil => rfl
  | cons x a ih =>
      rw [List.cons_append, walk_cons, walk_cons]
      cases p.step x with
      | error f => rfl
      | ok q => exact ih q

/-- Positions are ordered by line, then by column. -/
instance : LT Position where
  lt p q := p.line < q.line ∨ p.line = q.line ∧ p.column < q.column

instance : LE Position where
  le p q := p.line < q.line ∨ p.line = q.line ∧ p.column ≤ q.column

instance (p q : Position) : Decidable (p < q) :=
  inferInstanceAs (Decidable (p.line < q.line ∨ p.line = q.line ∧ p.column < q.column))

instance (p q : Position) : Decidable (p ≤ q) :=
  inferInstanceAs (Decidable (p.line < q.line ∨ p.line = q.line ∧ p.column ≤ q.column))

instance : Ord Position where
  compare p q := (compare p.line q.line).then (compare p.column q.column)

/-- `L1, C0` for the start of a source. -/
def display (p : Position) : String :=
  "L" ++ toString p.line ++ ", C" ++ toString p.column

end Position

end StatementLexer
