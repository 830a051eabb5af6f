import StatementLexer.Proofs.Location
import StatementLexer.Tokenize.Basic

namespace StatementLexer

namespace Lexeme

/-- What the units `ls` report when the first of them starts at `p` and no count is bounded. -/
def report : Position → List Lexeme → List Signal
  | _, [] => []
  | p, l :: ls => l.signals p (p.past l.bytes) ++ report (p.past l.bytes) ls

def tokensFrom (p : Position) (ls : List Lexeme) : List Token :=
  (report p ls).filterMap Signal.token?

theorem report_append (p : Position) (ls ms : List Lexeme) :
    report p (ls ++ ms) = report p ls ++ report (p.past (ls.flatMap bytes)) ms := by
  induction ls generalizing p with
  | nil => rfl
  | cons l ls ih =>
      rw [List.cons_append, report, report, ih, List.flatMap_cons, Position.past_append,
        List.append_assoc]

@[simp] theorem tokensFrom_nil (p : Position) : tokensFrom p [] = [] := rfl

theorem tokensFrom_cons (p : Position) (l : Lexeme) (ls : List Lexeme) :
    tokensFrom p (l :: ls) =
      (l.signals p (p.past l.bytes)).filterMap Signal.token? ++
        tokensFrom (p.past l.bytes) ls := by
  rw [tokensFrom, report, List.filterMap_append]
  rfl

theorem tokensFrom_append (p : Position) (ls ms : List Lexeme) :
    tokensFrom p (ls ++ ms) = tokensFrom p ls ++ tokensFrom (p.past (ls.flatMap bytes)) ms := by
  rw [tokensFrom, report_append, List.filterMap_append]
  rfl

end Lexeme

open Lexeme

theorem Scan.run_of_admissible {before : Bytes} {ls : List Lexeme}
    (h : Admissible (before ++ ls.flatMap bytes)) :
    Scan.run ⟨before.reverse, ls.flatMap bytes, Position.start.past before⟩ ls =
      .ok ⟨report (Position.start.past before) ls,
        ⟨(before ++ ls.flatMap bytes).reverse, [],
          Position.start.past (before ++ ls.flatMap bytes)⟩⟩ := by
  induction ls generalizing before with
  | nil => simp [Scan.run, report]
  | cons l ls ih =>
      rw [List.flatMap_cons, ← List.append_assoc] at h ⊢
      have hwalk := Position.walk_of_admissible (h.of_infix (List.prefix_append _ _).isInfix)
      have hread : l.read
          ⟨before.reverse, l.bytes ++ ls.flatMap bytes, Position.start.past before⟩ =
          .ok (l.signals (Position.start.past before) (Position.start.past (before ++ l.bytes)),
            ⟨(before ++ l.bytes).reverse, ls.flatMap bytes,
              Position.start.past (before ++ l.bytes)⟩) := by
        rw [Lexeme.read, Cursor.advanceBy_append, hwalk, List.reverse_append]
        rfl
      have hrun := ih h
      rw [Scan.run, hread]
      change (Scan.run _ ls >>= _) = _
      rw [hrun, report, Position.past_append]
      rfl

/-- A scan of an admissible source succeeds, reaches its end, and reports what its units do. -/
theorem scan_of_admissible {source : Bytes} (h : Admissible source) :
    scan source =
      .ok ⟨report .start (split source), ⟨source.reverse, [], Position.start.past source⟩⟩ := by
  have hrun := @Scan.run_of_admissible [] (split source)
  simp only [List.nil_append, flatMap_bytes_split] at hrun
  exact hrun h

theorem rawTokens_of_admissible {source : Bytes} (h : Admissible source) :
    rawTokens source = .ok (tokensFrom .start (split source)) := by
  rw [rawTokens, scan_of_admissible h]
  rfl

theorem tokenize_of_admissible {source : Bytes} (h : Admissible source) :
    tokenize source = .ok (Terminator.terminate (tokensFrom .start (split source))) := by
  rw [tokenize_eq_map_terminate, rawTokens_of_admissible h]
  rfl

end StatementLexer
