import Mathlib.Order.Basic
import StatementLexer.Proofs.Comment
import StatementLexer.Proofs.Gaps
import StatementLexer.Proofs.NormalStream
import StatementLexer.Proofs.SourceMap

namespace StatementLexer

namespace Position

theorem lt_def {p q : Position} :
    p < q ↔ p.line < q.line ∨ p.line = q.line ∧ p.column < q.column := Iff.rfl

theorem le_def {p q : Position} :
    p ≤ q ↔ p.line < q.line ∨ p.line = q.line ∧ p.column ≤ q.column := Iff.rfl

instance : PartialOrder Position where
  le_refl p := by
    rw [le_def]
    omega
  le_trans p q r hpq hqr := by
    rw [le_def] at hpq hqr ⊢
    omega
  lt_iff_le_not_ge p q := by
    rw [lt_def, le_def, le_def]
    omega
  le_antisymm p q hpq hqp := by
    rcases p with ⟨line, column⟩
    rcases q with ⟨line', column'⟩
    simp only [le_def] at hpq hqp
    rw [mk.injEq]
    omega

theorem lt_next (p : Position) (b : UInt8) : p < p.next b := by
  rcases eq_or_ne b Byte.lineFeed with rfl | hb
  · exact .inl (Nat.lt_succ_self p.line)
  · rw [next_of_ne hb]
    exact .inr ⟨rfl, Nat.lt_succ_self p.column⟩

theorem le_past (p : Position) (text : Bytes) : p ≤ p.past text := by
  induction text generalizing p with
  | nil => exact le_refl p
  | cons b text ih => exact le_trans (lt_next p b).le (ih _)

theorem lt_past {text : Bytes} (h : text ≠ []) (p : Position) : p < p.past text := by
  rcases text with _ | ⟨b, text⟩
  · exact absurd rfl h
  · exact lt_of_lt_of_le (lt_next p b) (le_past _ text)

end Position

open Terminator

/-- What one token owes a later one: it stops before the other starts, properly so if the other is
a line break, and it starts properly before it unless it is a line break itself. -/
structure Token.Leads (t u : Token) : Prop where
  stop_le : t.stop ≤ u.start
  start_lt : t.kind ≠ .endOfLine → t.start < u.start
  stop_lt : u.kind = .endOfLine → t.stop < u.start

/-- A stream of tokens in the order of their positions. Only line breaks and semicolons may be
empty. -/
structure InOrder (ts : List Token) : Prop where
  extent : ∀ t ∈ ts, t.start ≤ t.stop
  content : ∀ t ∈ ts, isSeparator t = false → t.start < t.stop
  leads : ts.Pairwise Token.Leads

namespace InOrder

theorem sublist {ts us : List Token} (h : InOrder ts) (hsublist : us.Sublist ts) : InOrder us :=
  ⟨fun t ht => h.extent t (hsublist.subset ht), fun t ht => h.content t (hsublist.subset ht),
    h.leads.sublist hsublist⟩

theorem place {before after : List Token} {n : Token} (h : InOrder (before ++ after))
    (hseparator : isSeparator n = true) (hextent : n.start ≤ n.stop)
    (hbefore : ∀ t ∈ before, t.Leads n) (hafter : ∀ u ∈ after, n.Leads u) :
    InOrder (before ++ n :: after) := by
  have hmem : ∀ t ∈ before ++ n :: after, t = n ∨ t ∈ before ++ after := by
    intro t ht
    simpa [or_left_comm] using ht
  obtain ⟨hleft, hright, hcross⟩ := List.pairwise_append.mp h.leads
  refine ⟨?_, ?_, List.pairwise_append.mpr ⟨hleft, List.pairwise_cons.mpr ⟨hafter, hright⟩, ?_⟩⟩
  · intro t ht
    rcases hmem t ht with rfl | ht
    · exact hextent
    · exact h.extent t ht
  · intro t ht hcontent
    rcases hmem t ht with rfl | ht
    · simp [hseparator] at hcontent
    · exact h.content t ht hcontent
  · intro t ht u hu
    rcases List.mem_cons.mp hu with rfl | hu
    · exact hbefore t ht
    · exact hcross t ht u hu

theorem leads_terminator {before : List Token} {last n : Token} (h : InOrder (before ++ [last]))
    (hlast : isSeparator last = false) (hkind : n.kind = .semicolon) (hstart : n.start = last.stop) :
    ∀ t ∈ before ++ [last], t.Leads n := by
  have hwide := h.content last (by simp) hlast
  have hbefore := (List.pairwise_append.mp h.leads).2.2
  intro t ht
  have hstop : t.stop ≤ last.stop ∧ (t.kind ≠ .endOfLine → t.start < last.stop) := by
    rcases List.mem_append.mp ht with ht | ht
    · have hleads := hbefore t ht last (by simp)
      exact ⟨le_trans hleads.stop_le hwide.le, fun hline => lt_trans (hleads.start_lt hline) hwide⟩
    · rw [List.mem_singleton.mp ht]
      exact ⟨le_refl _, fun _ => hwide⟩
  rw [← hstart] at hstop
  refine ⟨hstop.1, hstop.2, ?_⟩
  intro hbreak
  simp [hkind] at hbreak

theorem insert {before rest : List Token} {last t : Token}
    (h : InOrder (before ++ [last] ++ t :: rest)) (hlast : isSeparator last = false)
    (ht : t.kind = .endOfLine) :
    InOrder (before ++ [last] ++ ⟨.semicolon, t.literal, last.stop, last.stop⟩ :: rest) := by
  have hleft : InOrder (before ++ [last]) := h.sublist (List.sublist_append_left _ _)
  have hextent := h.extent t (by simp)
  obtain ⟨-, hright, hcross⟩ := List.pairwise_append.mp h.leads
  have hbreak := (hcross last (by simp) t (by simp)).stop_lt ht
  apply place (h.sublist ((List.sublist_cons_self t rest).append_left _)) rfl (le_refl _)
  · exact hleft.leads_terminator hlast rfl rfl
  · intro u hu
    have hahead : last.stop < u.start := calc
      last.stop < t.start := hbreak
      _ ≤ t.stop := hextent
      _ ≤ u.start := ((List.pairwise_cons.mp hright).1 u hu).stop_le
    exact ⟨hahead.le, fun _ => hahead, fun _ => hahead⟩

end InOrder

namespace Terminator

theorem isSeparator_of_endsStatement {t : Token} (h : t.kind.endsStatement = true) :
    isSeparator t = false := by
  apply isSeparator_eq_false_iff.mpr
  constructor
  · intro hkind
    simp [hkind, Kind.endsStatement] at h
  · intro hkind
    simp [hkind, Kind.endsStatement] at h

theorem Progress.Moves.inOrder {t : Token} {emitted emitted' rest : List Token}
    (h : Moves t emitted emitted') (horder : InOrder (emitted.reverse ++ t :: rest)) :
    InOrder (emitted'.reverse ++ rest) := by
  cases h with
  | drop hline => exact horder.sublist ((List.sublist_cons_self t rest).append_left _)
  | @insert last before hline hends =>
      rw [List.reverse_cons] at horder
      rw [List.reverse_cons, List.append_assoc, List.reverse_cons]
      exact horder.insert (isSeparator_of_endsStatement hends) hline
  | @replace last before ht hlast =>
      rw [List.reverse_cons, List.append_assoc] at horder ⊢
      exact horder.sublist ((List.sublist_cons_self last _).append_left _)
  | push hline hapart =>
      rw [List.reverse_cons, List.append_assoc]
      exact horder

/-- The tokens emitted so far and those still to come are in order throughout the pass. -/
theorem Progress.inOrder_foldl {ts : List Token} {s : Progress}
    (h : InOrder (s.emitted.reverse ++ ts)) : InOrder (ts.foldl step s).emitted.reverse := by
  induction ts generalizing s with
  | nil => simpa using h
  | cons t ts ih => exact ih ((step_moves s t).inOrder h)

theorem inOrder_terminateFinal {ts : List Token} (h : InOrder ts) (hclean : Clean ts) :
    InOrder (terminateFinal ts) := by
  unfold terminateFinal missing?
  split
  · next hnone =>
      obtain rfl := List.getLast?_eq_none_iff.mp hnone
      exact InOrder.place h rfl (le_refl _) (by simp) (by simp)
  · next last hlast =>
      split
      · simpa using h
      · next hkind =>
          obtain ⟨before, rfl⟩ := List.getLast?_eq_some_iff.mp hlast
          have hcontent := isSeparator_eq_false_iff.mpr
            ⟨hclean.no_lineBreak last (by simp), hkind⟩
          apply InOrder.place (by simpa using h) rfl (le_refl _)
          · exact h.leads_terminator hcontent rfl rfl
          · simp

theorem inOrder_terminate {ts : List Token} (h : InOrder ts) : InOrder (terminate ts) :=
  inOrder_terminateFinal (Progress.inOrder_foldl (s := .start) h) (clean_inferBoundaries ts)

end Terminator

/-- Tokens of a stretch of the source that reaches from `p` to `q`. -/
structure Spans (p q : Position) (ts : List Token) : Prop where
  le : p ≤ q
  extent : ∀ t ∈ ts, p ≤ t.start ∧ t.start ≤ t.stop ∧ t.stop ≤ q
  wide : ∀ t ∈ ts, t.kind ≠ .endOfLine → t.start < t.stop
  lineBreak : ∀ t ∈ ts, t.kind = .endOfLine → p < t.start
  leads : ts.Pairwise Token.Leads

namespace Spans

variable {p q r : Position} {ts us : List Token}

theorem nil (h : p ≤ q) : Spans p q [] :=
  ⟨h, by simp, by simp, by simp, .nil⟩

theorem single {t : Token} (hstart : p ≤ t.start) (hwide : t.start < t.stop) (hstop : t.stop ≤ q)
    (hkind : t.kind ≠ .endOfLine) : Spans p q [t] := by
  refine ⟨le_trans hstart (le_trans hwide.le hstop), ?_, ?_, ?_, List.pairwise_singleton _ _⟩
  · exact List.forall_mem_singleton.mpr ⟨hstart, hwide.le, hstop⟩
  · exact List.forall_mem_singleton.mpr fun _ => hwide
  · exact List.forall_mem_singleton.mpr fun hline => absurd hline hkind

theorem lineBreakAt (h : p < q) : Spans p q [.lineBreakAt q] := by
  refine ⟨h.le, ?_, ?_, ?_, List.pairwise_singleton _ _⟩
  · exact List.forall_mem_singleton.mpr ⟨h.le, le_refl q, le_refl q⟩
  · exact List.forall_mem_singleton.mpr fun hkind => absurd rfl hkind
  · exact List.forall_mem_singleton.mpr fun _ => h

theorem append (h : Spans p q ts) (h' : Spans q r us) : Spans p r (ts ++ us) := by
  refine ⟨le_trans h.le h'.le, ?_, ?_, ?_,
    List.pairwise_append.mpr ⟨h.leads, h'.leads, ?_⟩⟩
  · intro t ht
    rcases List.mem_append.mp ht with ht | ht
    · obtain ⟨hstart, hextent, hstop⟩ := h.extent t ht
      exact ⟨hstart, hextent, le_trans hstop h'.le⟩
    · obtain ⟨hstart, hextent, hstop⟩ := h'.extent t ht
      exact ⟨le_trans h.le hstart, hextent, hstop⟩
  · intro t ht
    rcases List.mem_append.mp ht with ht | ht
    · exact h.wide t ht
    · exact h'.wide t ht
  · intro t ht hkind
    rcases List.mem_append.mp ht with ht | ht
    · exact h.lineBreak t ht hkind
    · exact lt_of_le_of_lt h.le (h'.lineBreak t ht hkind)
  · intro t ht u hu
    have hstop := (h.extent t ht).2.2
    have hstart := (h'.extent u hu).1
    refine ⟨le_trans hstop hstart, ?_, ?_⟩
    · intro hkind
      exact lt_of_lt_of_le (h.wide t ht hkind) (le_trans hstop hstart)
    · intro hkind
      exact lt_of_le_of_lt hstop (h'.lineBreak u hu hkind)

theorem inOrder (h : Spans p q ts) : InOrder ts := by
  refine ⟨fun t ht => (h.extent t ht).2.1, ?_, h.leads⟩
  intro t ht hcontent
  exact h.wide t ht (isSeparator_eq_false_iff.mp hcontent).1

end Spans

namespace Lexeme

theorem spans_lineBreaks (p : Position) (text : Bytes) :
    Spans p (p.past text) ((lineBreaks p.line text).filterMap Signal.token?) := by
  induction text generalizing p with
  | nil => exact .nil (le_refl p)
  | cons b text ih =>
      have hrest := ih (p.next b)
      rcases eq_or_ne b Byte.lineFeed with rfl | hb
      · rw [lineBreaks_lineFeed]
        exact (Spans.lineBreakAt (p.lt_next Byte.lineFeed)).append hrest
      · have hline : (p.next b).line = p.line := by rw [Position.next_of_ne hb]
        rw [hline] at hrest
        rw [lineBreaks_of_ne hb]
        exact (Spans.nil (p.lt_next b).le).append hrest

theorem spans_signals {l : Lexeme} (hl : l.WellFormed) (p : Position) :
    Spans p (p.past l.bytes) ((l.signals p (p.past l.bytes)).filterMap Signal.token?) := by
  have hwide := Position.lt_past (bytes_ne_nil hl) p
  cases l with
  | lineBreak => exact .lineBreakAt hwide
  | blank b => exact .nil hwide.le
  | lineComment text => exact .nil hwide.le
  | blockComment text =>
      rw [tokens_signals_of_isComment hl rfl]
      exact spans_lineBreaks p _
  | openComment text =>
      rw [tokens_signals_of_isComment hl rfl]
      exact spans_lineBreaks p _
  | quoted q text =>
      -- The token starts behind the delimiter, which opens no line.
      have hnext : p.next q.byte = ⟨p.line, p.column + 1⟩ :=
        Position.next_of_ne (by cases q <;> decide) p
      apply Spans.single
      · exact hnext ▸ (p.lt_next q.byte).le
      · rw [bytes, Position.past_cons, hnext]
        exact Position.lt_past (by simp) _
      · exact le_refl _
      · simp [Token.withLiteral]
  | openQuoted q text => exact .nil hwide.le
  | number digits => exact .single (le_refl p) hwide (le_refl _) (by simp [Token.withLiteral])
  | symbol k =>
      refine .single (le_refl p) hwide (le_refl _) ?_
      rintro rfl
      cases hl
  | name text => exact .single (le_refl p) hwide (le_refl _) (by simp [Token.withLiteral])

theorem spans_tokensFrom {ls : List Lexeme} {rest : Bytes} (h : Tiles ls rest) (p : Position) :
    Spans p (p.past (ls.flatMap bytes)) (tokensFrom p ls) := by
  induction ls generalizing p with
  | nil => exact .nil (le_refl p)
  | cons l ls ih =>
      obtain ⟨hl, -, hls⟩ := h
      rw [tokensFrom_cons, List.flatMap_cons, Position.past_append]
      exact (spans_signals hl p).append (ih hls _)

end Lexeme

/-- No token overlaps another, in the raw stream and in the final one, and in the final one no two
tokens start at the same position. -/
theorem tokenize_inOrder {source : Bytes} (h : Admissible source) :
    ∃ raw ts, rawTokens source = .ok raw ∧ tokenize source = .ok ts ∧
      (∀ t ∈ raw, t.start ≤ t.stop) ∧
      (raw.Pairwise fun t u => t.stop ≤ u.start ∧ t.start ≤ u.start) ∧
      (∀ t ∈ ts, t.start ≤ t.stop) ∧
      ts.Pairwise fun t u => t.stop ≤ u.start ∧ t.start < u.start := by
  have hraw := (Lexeme.spans_tokensFrom (Lexeme.tiles_split source) .start).inOrder
  have hfinal := inOrder_terminate hraw
  have hnormal := normal_terminate (Lexeme.tokensFrom .start (Lexeme.split source))
  refine ⟨_, _, rawTokens_of_admissible h, tokenize_of_admissible h, hraw.extent, ?_,
    hfinal.extent, ?_⟩
  · apply hraw.leads.imp_of_mem
    intro t u ht hu hleads
    exact ⟨hleads.stop_le, le_trans (hraw.extent t ht) hleads.stop_le⟩
  · apply hfinal.leads.imp_of_mem
    intro t u ht hu hleads
    exact ⟨hleads.stop_le, hleads.start_lt (hnormal.no_lineBreak t ht)⟩

theorem tokenize_inOrder_replaced :
    ∃ raw ts, rawTokens (Bytes.ofString "x\n;`a\nb`\n+y") = .ok raw ∧
      tokenize (Bytes.ofString "x\n;`a\nb`\n+y") = .ok ts ∧
      (∀ t ∈ raw, t.start ≤ t.stop) ∧
      (raw.Pairwise fun t u => t.stop ≤ u.start ∧ t.start ≤ u.start) ∧
      (∀ t ∈ ts, t.start ≤ t.stop) ∧
      ts.Pairwise fun t u => t.stop ≤ u.start ∧ t.start < u.start :=
  tokenize_inOrder (admissible_of_length (by decide))

end StatementLexer
