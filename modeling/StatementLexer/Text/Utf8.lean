import StatementLexer.Byte

namespace StatementLexer.Utf8

/-- A character whose bytes have only begun: its bits so far, how many continuation bytes it
lacks, and the range of the next one. -/
structure Pending where
  bits : Nat
  lacking : Nat
  low : UInt8
  high : UInt8
  deriving DecidableEq, Repr

inductive Progress where
  | complete (c : Char)
  | pending (p : Pending)
  | refused
  deriving DecidableEq, Repr

/-- The first byte of a character. Bytes that only overlong forms, surrogates or numbers beyond
the last code point would need are refused here or by the range of the second byte. -/
def lead (b : UInt8) : Progress :=
  if b < 0x80 then .complete (Char.ofNat b.toNat)
  else if b < 0xC2 then .refused
  else if b < 0xE0 then .pending ⟨b.toNat - 0xC0, 1, 0x80, 0xBF⟩
  else if b = 0xE0 then .pending ⟨0, 2, 0xA0, 0xBF⟩
  else if b = 0xED then .pending ⟨0xD, 2, 0x80, 0x9F⟩
  else if b < 0xF0 then .pending ⟨b.toNat - 0xE0, 2, 0x80, 0xBF⟩
  else if b = 0xF0 then .pending ⟨0, 3, 0x90, 0xBF⟩
  else if b < 0xF4 then .pending ⟨b.toNat - 0xF0, 3, 0x80, 0xBF⟩
  else if b = 0xF4 then .pending ⟨4, 3, 0x80, 0x8F⟩
  else .refused

def Pending.step (p : Pending) (b : UInt8) : Progress :=
  if p.low ≤ b ∧ b ≤ p.high then
    let bits := p.bits * 0x40 + (b.toNat - 0x80)
    if p.lacking ≤ 1 then .complete (Char.ofNat bits)
    else .pending ⟨bits, p.lacking - 1, 0x80, 0xBF⟩
  else .refused

/-- What the byte `b` does to the character begun so far. -/
def step : Option Pending → UInt8 → Progress
  | none, b => lead b
  | some p, b => p.step b

/-- The characters of a byte string after a character begun, unless some bytes are no UTF-8. -/
def decodeFrom : Option Pending → Bytes → Option (List Char)
  | none, [] => some []
  | some _, [] => none
  | s, b :: bs =>
      match step s b with
      | .complete c => (decodeFrom none bs).map (c :: ·)
      | .pending p => decodeFrom (some p) bs
      | .refused => none

def decode? (bs : Bytes) : Option (List Char) :=
  decodeFrom none bs

/-- Stands for bytes that are no UTF-8. -/
def replacement : Char := '\uFFFD'

/-- Goes on after a byte; one replacement stands for a byte that is refused. -/
def resume (next : Option Pending → List Char) : Progress → List Char
  | .complete c => c :: next none
  | .pending p => next (some p)
  | .refused => replacement :: next none

/-- The characters of a byte string after a character begun. Where a character begun cannot be
completed, one replacement stands for all of its bytes, and the byte that did not fit begins
anew. -/
def lossyFrom : Option Pending → Bytes → List Char
  | none, [] => []
  | some _, [] => [replacement]
  | none, b :: bs => resume (fun s => lossyFrom s bs) (lead b)
  | some p, b :: bs =>
      match p.step b with
      | .refused => replacement :: resume (fun s => lossyFrom s bs) (lead b)
      | r => resume (fun s => lossyFrom s bs) r

def lossy (bs : Bytes) : List Char :=
  lossyFrom none bs

/-- Where the bytes are UTF-8, nothing is replaced. -/
theorem lossyFrom_of_decodeFrom {s : Option Pending} {bs : Bytes} {cs : List Char}
    (h : decodeFrom s bs = some cs) : lossyFrom s bs = cs := by
  induction bs generalizing s cs with
  | nil =>
      cases s with
      | none =>
          cases h
          rfl
      | some p => cases h
  | cons b bs ih =>
      rw [decodeFrom] at h
      have hstep : lossyFrom s (b :: bs) = resume (fun r => lossyFrom r bs) (step s b) := by
        cases s with
        | none => rfl
        | some p =>
            rw [lossyFrom]
            split
            · next hp => simp [step, hp] at h
            · rfl
      rw [hstep]
      cases hs : step s b with
      | complete c =>
          rw [hs] at h
          obtain ⟨ds, hds, rfl⟩ := Option.map_eq_some_iff.mp h
          exact congrArg (c :: ·) (ih hds)
      | pending p =>
          rw [hs] at h
          exact ih h
      | refused =>
          rw [hs] at h
          cases h

end StatementLexer.Utf8
