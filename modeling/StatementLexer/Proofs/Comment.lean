import StatementLexer.Proofs.Report
import StatementLexer.Proofs.Tiling

namespace StatementLexer.Lexeme

def isComment : Lexeme → Bool
  | .lineComment _ => true
  | .blockComment _ => true
  | .openComment _ => true
  | _ => false

/-- Where a comment stops that `rest` follows: a line comment before a line feed or at the end of
the source, a block comment behind the first closing mark, an open one at the end of the source. -/
def StopsBefore : Lexeme → Bytes → Prop
  | .lineComment text, rest =>
      Byte.lineFeed ∉ text ∧ (rest = [] ∨ rest.head? = some Byte.lineFeed)
  | .blockComment text, _ => ¬ closing <:+: text ++ [Byte.asterisk]
  | .openComment text, rest => ¬ closing <:+: text ∧ rest = []
  | _, _ => True

theorem exists_bytes_of_isComment {l : Lexeme} (h : l.isComment = true) :
    ∃ tail, l.bytes = Byte.slash :: tail := by
  cases l with
  | lineComment text => exact ⟨_, rfl⟩
  | blockComment text => exact ⟨_, rfl⟩
  | openComment text => exact ⟨_, rfl⟩
  | _ => cases h

theorem stopsBefore_of_tiles {l : Lexeme} {ls : List Lexeme} (h : Tiles (l :: ls) []) :
    l.StopsBefore (ls.flatMap bytes) := by
  obtain ⟨hl, hends, -⟩ := h
  rw [List.append_nil] at hends
  cases l with
  | lineComment text =>
      refine ⟨hl, ?_⟩
      rcases hrest : ls.flatMap bytes with _ | ⟨c, rest⟩
      · exact .inl rfl
      · rw [hrest] at hends
        right
        simpa [takes] using hends
  | blockComment text => exact hl
  | openComment text => exact ⟨hl, eq_nil_of_ends (fun _ => rfl) hends⟩
  | _ => trivial

theorem lineBreaks_of_count {s t : Bytes} (h : s.count Byte.lineFeed = t.count Byte.lineFeed)
    (line : Nat) : lineBreaks line s = lineBreaks line t := by
  rw [lineBreaks, lineBreaks, h]

theorem tokens_signals_of_isComment {l : Lexeme} (hl : l.WellFormed) (h : l.isComment = true)
    (p q : Position) :
    (l.signals p q).filterMap Signal.token? =
      (lineBreaks p.line l.bytes).filterMap Signal.token? := by
  have hslash : Byte.slash ≠ Byte.lineFeed := by decide
  have hasterisk : Byte.asterisk ≠ Byte.lineFeed := by decide
  cases l with
  | lineComment text =>
      have hfree : Byte.lineFeed ∉ text := hl
      have hcount : (lineComment text).bytes.count Byte.lineFeed = 0 := by
        simp [bytes, hslash, List.count_eq_zero.mpr hfree]
      rw [lineBreaks, hcount]
      rfl
  | blockComment text =>
      have hcount : (blockComment text).bytes.count Byte.lineFeed = text.count Byte.lineFeed := by
        simp [bytes, hslash, hasterisk]
      rw [lineBreaks_of_count hcount]
      rfl
  | openComment text =>
      have hcount : (openComment text).bytes.count Byte.lineFeed = text.count Byte.lineFeed := by
        simp [bytes, hslash, hasterisk]
      rw [lineBreaks_of_count hcount, signals, List.filterMap_append]
      exact List.append_nil _
  | _ => cases h

end StatementLexer.Lexeme
