import Mathlib.Data.List.Chain
import StatementLexer.Proofs.Report

namespace StatementLexer.Terminator

/-- Not both semicolons. -/
def Apart (t u : Token) : Prop :=
  ¬ (t.kind = .semicolon ∧ u.kind = .semicolon)

/-- No line break is left, and no semicolon follows another. -/
structure Clean (ts : List Token) : Prop where
  no_lineBreak : ∀ t ∈ ts, t.kind ≠ .endOfLine
  apart : ts.IsChain Apart

/-- A clean stream that ends in a semicolon. -/
structure Normal (ts : List Token) : Prop extends Clean ts where
  terminated : ∃ last, ts.getLast? = some last ∧ last.kind = .semicolon

theorem Apart.symm {t u : Token} (h : Apart t u) : Apart u t := by
  rintro ⟨hu, ht⟩
  exact h ⟨ht, hu⟩

theorem Clean.reverse {ts : List Token} (h : Clean ts) : Clean ts.reverse := by
  obtain ⟨hlines, hchain⟩ := h
  refine ⟨fun t ht => hlines t (List.mem_reverse.mp ht), ?_⟩
  rw [List.isChain_reverse]
  exact hchain.imp fun _ _ hapart => hapart.symm

theorem clean_reverse {ts : List Token} : Clean ts.reverse ↔ Clean ts := by
  constructor
  · intro h
    simpa using h.reverse
  · exact Clean.reverse

theorem Clean.of_suffix {ts us : List Token} (h : Clean ts) (hsuffix : us <:+ ts) : Clean us :=
  ⟨fun t ht => h.no_lineBreak t (hsuffix.subset ht), h.apart.suffix hsuffix⟩

theorem clean_cons {t : Token} {ts : List Token} :
    Clean (t :: ts) ↔ t.kind ≠ .endOfLine ∧ (∀ u ∈ ts.head?, Apart t u) ∧ Clean ts := by
  constructor
  · rintro ⟨hlines, hchain⟩
    obtain ⟨hhead, htail⟩ := List.isChain_cons.mp hchain
    exact ⟨hlines t List.mem_cons_self, hhead, fun u hu => hlines u (List.mem_cons_of_mem _ hu),
      htail⟩
  · rintro ⟨hline, hhead, hlines, hchain⟩
    exact ⟨List.forall_mem_cons.mpr ⟨hline, hlines⟩, List.isChain_cons.mpr ⟨hhead, hchain⟩⟩

theorem clean_concat {t : Token} {ts : List Token} :
    Clean (ts ++ [t]) ↔ t.kind ≠ .endOfLine ∧ (∀ u ∈ ts.getLast?, Apart t u) ∧ Clean ts := by
  rw [← clean_reverse, List.reverse_append, List.reverse_singleton, List.singleton_append,
    clean_cons, List.head?_reverse, clean_reverse]

namespace Progress

/-- What a token `t` can do to the tokens emitted so far, the last of them first. -/
inductive Moves (t : Token) : List Token → List Token → Prop
  | drop {emitted : List Token} (hline : t.kind = .endOfLine) : Moves t emitted emitted
  | insert {last : Token} {before : List Token} (hline : t.kind = .endOfLine)
      (hends : last.kind.endsStatement = true) :
      Moves t (last :: before) (⟨.semicolon, t.literal, last.stop, last.stop⟩ :: last :: before)
  | replace {last : Token} {before : List Token} (ht : t.kind = .semicolon)
      (hlast : last.kind = .semicolon) : Moves t (last :: before) (t :: before)
  | push {emitted : List Token} (hline : t.kind ≠ .endOfLine)
      (hapart : ∀ last ∈ emitted.head?, Apart t last) : Moves t emitted (t :: emitted)

theorem step_moves (s : Progress) (t : Token) : Moves t s.emitted (s.step t).emitted := by
  unfold step
  split
  · next hnil =>
      rw [hnil]
      split
      · next hline => exact hnil ▸ .drop hline
      · next hline => exact .push hline (by simp)
  · next last before hcons =>
      rw [hcons]
      split
      · next hline =>
          split
          · next hends => exact .insert hline hends
          · exact hcons ▸ .drop hline
      · next hline =>
          split
          · next hboth => exact .replace hboth.1 hboth.2
          · next hboth => exact .push hline (by simpa [Apart] using hboth)

theorem Moves.clean {t : Token} {emitted emitted' : List Token} (h : Moves t emitted emitted')
    (hclean : Clean emitted) : Clean emitted' := by
  cases h with
  | drop hline => exact hclean
  | @insert last before hline hends =>
      refine clean_cons.mpr ⟨by simp, ?_, hclean⟩
      rintro u ⟨⟩ ⟨-, hlast⟩
      simp [hlast, Kind.endsStatement] at hends
  | @replace last before ht hlast =>
      obtain ⟨-, hhead, hbefore⟩ := clean_cons.mp hclean
      refine clean_cons.mpr ⟨by simp [ht], ?_, hbefore⟩
      rintro u hu ⟨-, hsemicolon⟩
      exact hhead u hu ⟨hlast, hsemicolon⟩
  | push hline hapart => exact clean_cons.mpr ⟨hline, hapart, hclean⟩

theorem clean_foldl (ts : List Token) {s : Progress} (h : Clean s.emitted) :
    Clean (ts.foldl step s).emitted := by
  induction ts generalizing s with
  | nil => exact h
  | cons t ts ih => exact ih ((step_moves s t).clean h)

theorem Moves.eq_push {t : Token} {emitted emitted' : List Token} (h : Moves t emitted emitted')
    (hclean : Clean (t :: emitted)) : emitted' = t :: emitted := by
  obtain ⟨hline, hhead, -⟩ := clean_cons.mp hclean
  cases h with
  | drop hline' => exact absurd hline' hline
  | insert hline' hends => exact absurd hline' hline
  | replace ht hlast => exact absurd ⟨ht, hlast⟩ (hhead _ rfl)
  | push hline' hapart => rfl

theorem emitted_foldl_clean {ts : List Token} {s : Progress}
    (h : Clean (ts.reverse ++ s.emitted)) :
    (ts.foldl step s).emitted = ts.reverse ++ s.emitted := by
  induction ts generalizing s with
  | nil => rfl
  | cons t ts ih =>
      rw [List.reverse_cons, List.append_assoc, List.singleton_append] at h ⊢
      have hclean : Clean (t :: s.emitted) := h.of_suffix (List.suffix_append _ _)
      have hpush := (step_moves s t).eq_push hclean
      rw [List.foldl_cons, ih (hpush ▸ h), hpush]

theorem emitted_step_congr {s s' : Progress} (h : s.emitted = s'.emitted) (t : Token) :
    (s.step t).emitted = (s'.step t).emitted := by
  obtain ⟨emitted, n⟩ := s
  obtain ⟨_, n'⟩ := s'
  cases h
  rcases emitted with _ | ⟨last, before⟩
  · simp only [step]
    split <;> rfl
  · simp only [step]
    split
    · split <;> rfl
    · split <;> rfl

theorem emitted_foldl_congr {s s' : Progress} (h : s.emitted = s'.emitted) (ts : List Token) :
    (ts.foldl step s).emitted = (ts.foldl step s').emitted := by
  induction ts generalizing s s' with
  | nil => exact h
  | cons t ts ih => exact ih (emitted_step_congr h t)

end Progress

theorem clean_inferBoundaries (ts : List Token) : Clean (inferBoundaries ts) := by
  apply clean_reverse.mpr
  apply Progress.clean_foldl
  exact ⟨by simp [Progress.start], .nil⟩

theorem inferBoundaries_of_clean {ts : List Token} (h : Clean ts) : inferBoundaries ts = ts := by
  have hemitted := @Progress.emitted_foldl_clean ts .start
  rw [Progress.start, List.append_nil, clean_reverse] at hemitted
  rw [inferBoundaries, infer]
  dsimp only
  rw [Progress.start, hemitted h, List.reverse_reverse]

/-- Inferring boundaries can be broken off and taken up again: the boundaries found in a beginning
stand for it, whatever comes behind. -/
theorem inferBoundaries_resume :
    (∀ a b, inferBoundaries (inferBoundaries a ++ b) = inferBoundaries (a ++ b)) ∧
      ∀ a, inferBoundaries (inferBoundaries a) = inferBoundaries a := by
  refine ⟨?_, fun a => inferBoundaries_of_clean (clean_inferBoundaries a)⟩
  intro a b
  -- The boundaries of `a` are clean, so that a second pass emits them one by one as they are.
  have hemitted : ((inferBoundaries a).foldl Progress.step .start).emitted =
      (a.foldl Progress.step .start).emitted := by
    apply List.reverse_injective
    exact inferBoundaries_of_clean (clean_inferBoundaries a)
  change ((inferBoundaries a ++ b).foldl Progress.step .start).emitted.reverse =
    ((a ++ b).foldl Progress.step .start).emitted.reverse
  rw [List.foldl_append, List.foldl_append, Progress.emitted_foldl_congr hemitted]

theorem normal_concat_terminatorAt {ts : List Token} (h : Clean ts)
    (hlast : ∀ last ∈ ts.getLast?, last.kind ≠ .semicolon) (p : Position) :
    Normal (ts ++ [.terminatorAt p]) := by
  refine ⟨clean_concat.mpr ⟨by simp [Token.terminatorAt, Token.plain], ?_, h⟩,
    .terminatorAt p, by simp, rfl⟩
  rintro last hmem ⟨-, hkind⟩
  exact hlast last hmem hkind

theorem normal_terminateFinal {ts : List Token} (h : Clean ts) : Normal (terminateFinal ts) := by
  unfold terminateFinal missing?
  split
  · next hnone => exact normal_concat_terminatorAt h (by simp [hnone]) _
  · next last hlast =>
      split
      · next hkind => exact ⟨by simpa using h, last, by simpa using hlast, hkind⟩
      · next hkind => exact normal_concat_terminatorAt h (by simpa [hlast] using hkind) _

theorem terminateFinal_of_normal {ts : List Token} (h : Normal ts) : terminateFinal ts = ts := by
  obtain ⟨last, hlast, hkind⟩ := h.terminated
  simp [terminateFinal, missing?, hlast, hkind]

theorem normal_terminate (ts : List Token) : Normal (terminate ts) :=
  normal_terminateFinal (clean_inferBoundaries ts)

theorem terminate_of_normal {ts : List Token} (h : Normal ts) : terminate ts = ts := by
  rw [terminate, inferBoundaries_of_clean h.toClean, terminateFinal_of_normal h]

/-- Terminating makes every stream normal and leaves the normal ones as they are: these are its
fixed points and its results, and the final streams of sources are among them. -/
theorem terminate_eq_self_iff_normal :
    (∀ ts, Normal (terminate ts)) ∧ (∀ ts, terminate ts = ts ↔ Normal ts) ∧
      (∀ ts, terminate (terminate ts) = terminate ts) ∧
      (∀ us, (∃ ts, terminate ts = us) ↔ Normal us) ∧
      ∀ source, (∀ ts, tokenize source = .ok ts → Normal ts) ∧
        (Admissible source → ∃ ts, tokenize source = .ok ts) := by
  refine ⟨normal_terminate, ?_, ?_, ?_, ?_⟩
  · intro ts
    constructor
    · intro h
      exact h ▸ normal_terminate ts
    · exact terminate_of_normal
  · intro ts
    exact terminate_of_normal (normal_terminate ts)
  · intro us
    constructor
    · rintro ⟨ts, rfl⟩
      exact normal_terminate ts
    · intro h
      exact ⟨us, terminate_of_normal h⟩
  · intro source
    refine ⟨?_, fun h => ⟨_, tokenize_of_admissible h⟩⟩
    intro ts h
    rw [tokenize_eq_map_terminate] at h
    rcases hraw : rawTokens source with f | raw
    · rw [hraw] at h
      cases h
    · rw [hraw] at h
      cases h
      exact normal_terminate raw

theorem terminate_eq_self_iff_normal_lines :
    ∃ ts, tokenize (Bytes.ofString "\nx\n\n;;\n+\ny") = .ok ts ∧ Normal ts ∧ terminate ts = ts := by
  obtain ⟨hnormal, hexists⟩ := terminate_eq_self_iff_normal.2.2.2.2 (Bytes.ofString "\nx\n\n;;\n+\ny")
  obtain ⟨ts, hts⟩ := hexists (admissible_of_length (by decide))
  exact ⟨ts, hts, hnormal ts hts, (terminate_eq_self_iff_normal.2.1 ts).mpr (hnormal ts hts)⟩

end StatementLexer.Terminator
