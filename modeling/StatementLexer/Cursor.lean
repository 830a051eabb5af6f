import StatementLexer.Position

namespace StatementLexer

/-- A reading head in a source: the bytes behind it, nearest first, the bytes ahead of it, and
the position of the first byte ahead. -/
structure Cursor where
  passed : Bytes
  rest : Bytes
  location : Position
  deriving DecidableEq, Repr

namespace Cursor

/-- Byte offsets stay below this bound: they have 64 bits. -/
def offsetBound : Nat := 0x10000000000000000

def start (source : Bytes) : Cursor := ⟨[], source, .start⟩

def source (c : Cursor) : Bytes :=
  c.passed.reverse ++ c.rest

def offset (c : Cursor) : Nat :=
  c.passed.length

def current (c : Cursor) : Option UInt8 :=
  c.rest.head?

def isAtEnd (c : Cursor) : Bool :=
  c.rest.isEmpty

def peek (c : Cursor) (n : Nat) : Except Fault (Option UInt8) :=
  if c.offset + n < offsetBound then .ok c.rest[n]? else .error .offset

/-- Moves over at most `n` bytes and stops at the end of the source. -/
def advanceBy : Cursor → Nat → Except Fault Cursor
  | c, 0 => .ok c
  | c, n + 1 =>
      match c.rest with
      | [] => .ok c
      | b :: rest => c.location.step b >>= fun p => advanceBy ⟨b :: c.passed, rest, p⟩ n

def advance (c : Cursor) : Except Fault (Option UInt8 × Cursor) :=
  c.advanceBy 1 >>= fun d => .ok (c.current, d)

/-- Asks the predicate about one byte after the other until it says no. It may keep a state
between its answers. The result is the number of bytes it accepted and its last state. -/
def accepted {σ : Type} (ask : σ → UInt8 → Bool × σ) : σ → Bytes → Nat × σ
  | s, [] => (0, s)
  | s, b :: bs =>
      match ask s b with
      | (true, s') =>
          let r := accepted ask s' bs
          (r.1 + 1, r.2)
      | (false, s') => (0, s')

/-- Moves over the bytes that the predicate accepts, and returns them with the predicate's last
state. -/
def eatWhile {σ : Type} (c : Cursor) (ask : σ → UInt8 → Bool × σ) (s : σ) :
    Except Fault (Bytes × σ × Cursor) :=
  let r := accepted ask s c.rest
  c.advanceBy r.1 >>= fun d => .ok (c.rest.take r.1, r.2, d)

def sliceFrom (c : Cursor) (n : Nat) : Except Fault Bytes :=
  if n ≤ c.offset then .ok (c.passed.reverse.drop n) else .error .slice

@[simp] theorem source_start (source : Bytes) : (start source).source = source := rfl

@[simp] theorem advanceBy_zero (c : Cursor) : c.advanceBy 0 = .ok c := rfl

theorem advanceBy_nil (passed : Bytes) (p : Position) (n : Nat) :
    advanceBy ⟨passed, [], p⟩ n = .ok ⟨passed, [], p⟩ := by
  cases n <;> rfl

theorem advanceBy_cons (passed : Bytes) (b : UInt8) (rest : Bytes) (p : Position) (n : Nat) :
    advanceBy ⟨passed, b :: rest, p⟩ (n + 1) =
      p.step b >>= fun q => advanceBy ⟨b :: passed, rest, q⟩ n := rfl

/-- Moving over a byte string that lies ahead is walking its bytes. -/
theorem advanceBy_append (passed bs rest : Bytes) (p : Position) :
    advanceBy ⟨passed, bs ++ rest, p⟩ bs.length =
      p.walk bs >>= fun q => .ok ⟨bs.reverse ++ passed, rest, q⟩ := by
  induction bs generalizing passed p with
  | nil => rfl
  | cons b bs ih =>
      rw [List.cons_append, List.length_cons, advanceBy_cons, Position.walk_cons]
      cases p.step b with
      | error f => rfl
      | ok q =>
          change advanceBy ⟨b :: passed, bs ++ rest, q⟩ bs.length = _
          rw [ih, List.reverse_cons, List.append_assoc]
          rfl

end Cursor

end StatementLexer
