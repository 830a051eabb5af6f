import StatementLexer.Proofs.Gaps
import StatementLexer.Proofs.LineEnding
import StatementLexer.Proofs.TokenLanguage

namespace StatementLexer

theorem admissible_lineFeed {a b : Bytes} (ha : Admissible a) (hb : Admissible b)
    (hlines : (a ++ Byte.lineFeed :: b).count Byte.lineFeed ≤ Position.bound - 2) :
    Admissible (a ++ Byte.lineFeed :: b) := by
  refine ⟨hlines, ?_⟩
  intro run hrun hfree
  -- A prefix of the second line together with its line feed holds this line feed, or nothing.
  have hnil : ∀ part, part <+: Byte.lineFeed :: b → Byte.lineFeed ∉ part → part = [] := by
    intro part hpart hnot
    rcases part with _ | ⟨c, part⟩
    · rfl
    · rw [(List.cons_prefix_cons.mp hpart).1] at hnot
      exact absurd List.mem_cons_self hnot
  rcases List.infix_append_iff.mp hrun with hleft | hright | ⟨left, right, rfl, hleft, hright⟩
  · exact ha.2 run hleft hfree
  · rcases List.infix_cons_iff.mp hright with hhead | htail
    · rw [hnil run hhead hfree]
      exact Nat.zero_le _
    · exact hb.2 run htail hfree
  · rw [List.mem_append, not_or] at hfree
    rw [hnil right hright hfree.2, List.append_nil]
    exact ha.2 left hleft.isInfix hfree.1

namespace Token

theorem shape_eq_iff {t u : Token} :
    t.shape = u.shape ↔ t.kind = u.kind ∧ t.literal = u.literal := by
  rw [shape, shape, Prod.mk.injEq]

theorem map_shape_addLines (n : Nat) (ts : List Token) :
    (ts.map (addLines n)).map shape = ts.map shape := by
  rw [List.map_map]
  rfl

end Token

namespace Terminator

theorem Progress.shape_step {s s' : Progress} {t t' : Token}
    (hs : s.emitted.map Token.shape = s'.emitted.map Token.shape) (ht : t.shape = t'.shape) :
    (s.step t).emitted.map Token.shape = (s'.step t').emitted.map Token.shape := by
  obtain ⟨hkind, hliteral⟩ := Token.shape_eq_iff.mp ht
  rcases hemitted : s.emitted with _ | ⟨last, before⟩
  · rw [hemitted, List.map_nil] at hs
    have hemitted' : s'.emitted = [] := List.map_eq_nil_iff.mp hs.symm
    simp only [step, hemitted, hemitted', hkind]
    split <;> simp [hemitted, hemitted', ht]
  · rw [hemitted, List.map_cons] at hs
    obtain ⟨last', before', hemitted', hlast, hbefore⟩ := List.map_eq_cons_iff.mp hs.symm
    have hlastKind : last'.kind = last.kind := (Token.shape_eq_iff.mp hlast).1
    simp only [step, hemitted, hemitted', hkind, hlastKind]
    split
    · split
      · refine congrArg₂ List.cons (Token.shape_eq_iff.mpr ⟨rfl, hliteral⟩) ?_
        rw [List.map_cons, List.map_cons, hlast, hbefore]
      · simp [hemitted, hemitted', hlast, hbefore]
    · split
      · simp [ht, hbefore]
      · simp [ht, hlast, hbefore]

theorem Progress.shape_foldl {ts us : List Token} {s s' : Progress}
    (hs : s.emitted.map Token.shape = s'.emitted.map Token.shape)
    (hts : ts.map Token.shape = us.map Token.shape) :
    (ts.foldl step s).emitted.map Token.shape = (us.foldl step s').emitted.map Token.shape := by
  induction ts generalizing us s s' with
  | nil =>
      obtain rfl : us = [] := List.map_eq_nil_iff.mp hts.symm
      exact hs
  | cons t ts ih =>
      obtain ⟨u, us', rfl, hu, hus⟩ := List.map_eq_cons_iff.mp hts.symm
      rw [List.foldl_cons, List.foldl_cons]
      exact ih (shape_step hs hu.symm) hus.symm

theorem shape_terminateFinal {ts us : List Token}
    (h : ts.map Token.shape = us.map Token.shape) :
    (terminateFinal ts).map Token.shape = (terminateFinal us).map Token.shape := by
  have hlast : ts.getLast?.map Token.shape = us.getLast?.map Token.shape := by
    rw [← List.getLast?_map, ← List.getLast?_map, h]
  have hmissing : (missing? ts).map Token.shape = (missing? us).map Token.shape := by
    unfold missing?
    generalize ts.getLast? = x at hlast ⊢
    generalize us.getLast? = y at hlast ⊢
    rcases x with _ | last <;> rcases y with _ | last'
    · rfl
    · cases hlast
    · cases hlast
    · have hkind := (Token.shape_eq_iff.mp (Option.some.inj hlast)).1
      simp only [hkind]
      split <;> rfl
  rw [terminateFinal, terminateFinal, List.map_append, List.map_append, h, ← Option.toList_map,
    ← Option.toList_map, hmissing]

theorem Progress.endsStatement_of_step_lineBreak (s : Progress) {t last : Token}
    (ht : t.kind = .endOfLine) (hlast : (s.step t).emitted.head? = some last) :
    last.kind.endsStatement = false := by
  rw [emitted_step_first_endOfLine s ht] at hlast
  rcases hseparators : separators s.emitted.head? [t] with _ | ⟨u, us⟩
  · rw [hseparators, List.nil_append] at hlast
    rw [hlast] at hseparators
    apply endsStatement_of_separators_eq_nil (by simp) _ hseparators
    simp [isSeparator, ht]
  · have hu := kind_of_mem_separators (hseparators ▸ List.mem_cons_self)
    rw [hseparators] at hlast
    cases hlast
    rw [hu]
    rfl

theorem Progress.emitted_foldl_lineBreaks (s : Progress) {t : Token} (ht : t.kind = .endOfLine)
    {breaks : List Token} (hbreaks : ∀ u ∈ breaks, u.kind = .endOfLine) :
    (breaks.foldl step (s.step t)).emitted = (s.step t).emitted := by
  induction breaks using List.reverseRecOn with
  | nil => rfl
  | append_singleton breaks u ih =>
      have hsame := ih fun v hv => hbreaks v (List.mem_append_left _ hv)
      rw [List.foldl_append, List.foldl_cons, List.foldl_nil, ← hsame]
      apply emitted_step_endOfLine (hbreaks u (by simp))
      intro last hlast
      rw [hsame] at hlast
      exact endsStatement_of_step_lineBreak s ht hlast

theorem shape_terminate_lineBreaks (before : List Token) {t : Token} (ht : t.kind = .endOfLine)
    {breaks : List Token} (hbreaks : ∀ u ∈ breaks, u.kind = .endOfLine) {after after' : List Token}
    (hafter : after.map Token.shape = after'.map Token.shape) :
    (terminate (before ++ t :: (breaks ++ after))).map Token.shape =
      (terminate (before ++ t :: after')).map Token.shape := by
  apply shape_terminateFinal
  have hstart := Progress.emitted_foldl_lineBreaks (before.foldl Progress.step .start) ht hbreaks
  have hfold := Progress.shape_foldl (congrArg (List.map Token.shape) hstart) hafter
  simp only [inferBoundaries, infer, List.foldl_append, List.foldl_cons, List.map_reverse]
  rw [hfold]

end Terminator

namespace Lexeme

theorem not_isOpen_of_report {ls : List Lexeme} {p : Position}
    (h : ∀ c q, Signal.truncated c q ∉ report p ls) : ∀ l ∈ ls, l.isOpen = false := by
  intro l hl
  apply Bool.eq_false_iff.mpr
  intro hopen
  obtain ⟨c, q, hmem⟩ := exists_truncated_of_isOpen hl hopen p
  exact h c q hmem

end Lexeme

open Lexeme

/-- Lines that hold nothing but blanks and comments, between two other lines, change no kind and no
literal of the final stream. -/
theorem tokenize_blankLines (a t b : Bytes)
    (h : Admissible (a ++ Byte.lineFeed :: t ++ Byte.lineFeed :: b)) :
    ∃ s u, scan a = .ok s ∧ scan t = .ok u ∧
      ((∀ c p, Signal.truncated c p ∉ s.signals) → (∀ c p, Signal.truncated c p ∉ u.signals) →
        (∀ x ∈ u.tokens, x.kind = .endOfLine) →
          ∃ ts us, tokenize (a ++ Byte.lineFeed :: t ++ Byte.lineFeed :: b) = .ok ts ∧
            tokenize (a ++ Byte.lineFeed :: b) = .ok us ∧
              ts.map Token.shape = us.map Token.shape) := by
  have ha : Admissible a := h.of_infix (by
    rw [List.append_assoc]
    exact (List.prefix_append _ _).isInfix)
  have ht : Admissible t := h.of_infix ⟨a ++ [Byte.lineFeed], Byte.lineFeed :: b, by simp⟩
  have hb : Admissible b := h.of_infix (by
    rw [List.append_cons]
    exact (List.suffix_append _ _).isInfix)
  refine ⟨_, _, scan_of_admissible ha, scan_of_admissible ht, ?_⟩
  intro hopen hopen' hbreaks
  have hplain : Admissible (a ++ Byte.lineFeed :: b) := by
    apply admissible_lineFeed ha hb
    refine Nat.le_trans ?_ h.1
    simp only [List.append_assoc, List.cons_append, List.count_append, List.count_cons_self]
    omega
  have hraw : tokensFrom .start (split (a ++ Byte.lineFeed :: t ++ Byte.lineFeed :: b)) =
      tokensFrom .start (split a) ++ .lineBreakAt ⟨2 + a.count Byte.lineFeed, 0⟩ ::
        ((tokensFrom .start (split t) ++ [Token.lineBreakAt ⟨2 + t.count Byte.lineFeed, 0⟩]).map
            (Token.addLines (1 + a.count Byte.lineFeed)) ++
          ((tokensFrom .start (split b)).map (Token.addLines (1 + t.count Byte.lineFeed))).map
            (Token.addLines (1 + a.count Byte.lineFeed))) := by
    rw [List.append_assoc, List.cons_append, split_lineFeed (not_isOpen_of_report hopen),
      tokensFrom_lineFeed, split_lineFeed (not_isOpen_of_report hopen'), tokensFrom_lineFeed,
      ← List.map_append, List.append_assoc]
    rfl
  refine ⟨_, _, tokenize_of_admissible h, tokenize_of_admissible hplain, ?_⟩
  rw [hraw, split_lineFeed (not_isOpen_of_report hopen), tokensFrom_lineFeed]
  apply Terminator.shape_terminate_lineBreaks _ rfl
  · intro x hx
    obtain ⟨y, hy, rfl⟩ := List.mem_map.mp hx
    rcases List.mem_append.mp hy with hy | hy
    · exact hbreaks y hy
    · rw [List.mem_singleton.mp hy]
      rfl
  · rw [Token.map_shape_addLines, Token.map_shape_addLines, Token.map_shape_addLines]

theorem tokenize_blankLines_comment :
    ∃ ts us, tokenize (Bytes.ofString "x =\n // one\n/*\n*/\ny") = .ok ts ∧
      tokenize (Bytes.ofString "x =\ny") = .ok us ∧ ts.map Token.shape = us.map Token.shape := by
  have hsplit : split (Bytes.ofString "x =") =
      [.name (Bytes.ofString "x"), .blank Byte.space, .symbol .assign] :=
    split_eq_iff.mpr (by decide)
  have hsplit' : split (Bytes.ofString " // one\n/*\n*/") =
      [.blank Byte.space, .lineComment (Bytes.ofString " one"), .lineBreak,
        .blockComment (Bytes.ofString "\n")] :=
    split_eq_iff.mpr (by decide)
  obtain ⟨s, u, hs, hu, htokens⟩ := tokenize_blankLines (Bytes.ofString "x =")
    (Bytes.ofString " // one\n/*\n*/") (Bytes.ofString "y") (admissible_of_length (by decide))
  rw [scan_of_admissible (admissible_of_length (by decide)), hsplit] at hs
  rw [scan_of_admissible (admissible_of_length (by decide)), hsplit'] at hu
  cases hs
  cases hu
  apply htokens
  · intro c p hmem
    simp [report, signals] at hmem
  · intro c p hmem
    simp [report, signals, lineBreaks] at hmem
  · decide

end StatementLexer
