import StatementLexer.Proofs.Padding

namespace StatementLexer

open Lexeme

def Position.addLines (p : Position) (n : Nat) : Position :=
  ⟨p.line + n, p.column⟩

def Token.addLines (n : Nat) (t : Token) : Token :=
  { t with start := t.start.addLines n, stop := t.stop.addLines n }

theorem Position.past_addLines (p : Position) (n : Nat) (text : Bytes) :
    (p.addLines n).past text = (p.past text).addLines n := by
  induction text generalizing p with
  | nil => rfl
  | cons b text ih =>
      have hnext : (p.addLines n).next b = (p.next b).addLines n := by
        rcases eq_or_ne b Byte.lineFeed with rfl | hb
        · simp [addLines, Nat.add_right_comm]
        · rw [next_of_ne hb, next_of_ne hb]
          rfl
      rw [past_cons, past_cons, hnext, ih]

namespace Lexeme

theorem lineBreaks_addLines (line n : Nat) (text : Bytes) :
    (lineBreaks (line + n) text).filterMap Signal.token? =
      ((lineBreaks line text).filterMap Signal.token?).map (Token.addLines n) := by
  rw [lineBreaks, lineBreaks, List.filterMap_map, List.filterMap_map, List.map_filterMap]
  congr 1
  funext i
  have hline : line + n + i + 1 = line + i + 1 + n := by omega
  simp [Signal.token?, Token.lineBreakAt, Token.plain, Token.addLines, Position.addLines, hline]

theorem tokens_signals_addLines (l : Lexeme) (p q : Position) (n : Nat) :
    (l.signals (p.addLines n) (q.addLines n)).filterMap Signal.token? =
      ((l.signals p q).filterMap Signal.token?).map (Token.addLines n) := by
  rcases l with _ | _ | _ | text | text | _ | _ | _ | _ | _
  case blockComment => exact lineBreaks_addLines _ _ _
  case openComment =>
    rw [signals, signals, List.filterMap_append, List.filterMap_append, List.map_append]
    exact congrArg (· ++ []) (lineBreaks_addLines _ _ _)
  all_goals rfl

theorem tokensFrom_addLines (p : Position) (n : Nat) (ls : List Lexeme) :
    tokensFrom (p.addLines n) ls = (tokensFrom p ls).map (Token.addLines n) := by
  induction ls generalizing p with
  | nil => rfl
  | cons l ls ih =>
      rw [tokensFrom_cons, tokensFrom_cons, List.map_append, Position.past_addLines,
        tokens_signals_addLines, ih]

theorem exists_truncated_of_isOpen {l : Lexeme} {ls : List Lexeme} (hl : l ∈ ls)
    (hopen : l.isOpen = true) (p : Position) : ∃ c q, Signal.truncated c q ∈ report p ls := by
  induction ls generalizing p with
  | nil => cases hl
  | cons m ls ih =>
      rcases List.mem_cons.mp hl with rfl | hl
      · rcases l with _ | _ | _ | _ | text | _ | ⟨q, text⟩ | _ | _ | _
        case openComment => exact ⟨.blockComment, p, by simp [report, signals]⟩
        case openQuoted => exact ⟨q.construct, p, by simp [report, signals]⟩
        all_goals cases hopen
      · obtain ⟨c, q, hmem⟩ := ih hl (p.past m.bytes)
        exact ⟨c, q, List.mem_append_right _ hmem⟩

theorem tiles_lineFeed {ls : List Lexeme} (h : Tiles ls []) (hopen : ∀ l ∈ ls, l.isOpen = false)
    (rest : Bytes) : Tiles ls (Byte.lineFeed :: rest) := by
  induction ls with
  | nil => trivial
  | cons l ls ih =>
      obtain ⟨hl, hends, hls⟩ := h
      rw [List.forall_mem_cons] at hopen
      refine ⟨hl, ?_, ih hls hopen.2⟩
      rw [List.append_nil] at hends
      rcases htext : ls.flatMap bytes with _ | ⟨c, text⟩
      · exact ends_cons.mpr (takes_of_isBlank hopen.1 rfl fun _ _ => rfl)
      · rw [htext] at hends
        exact ends_cons.mpr (ends_cons.mp hends)

/-- No unit reaches over a line feed but a string or a comment that is open there. -/
theorem split_lineFeed {a : Bytes} (h : ∀ l ∈ split a, l.isOpen = false) (b : Bytes) :
    split (a ++ Byte.lineFeed :: b) = split a ++ .lineBreak :: split b := by
  have hsplit := split_append (tiles_lineFeed (tiles_split a) h b)
  rw [flatMap_bytes_split, split_cons] at hsplit
  exact hsplit

end Lexeme

theorem Position.past_lineFeed (a : Bytes) :
    (start.past a).past [Byte.lineFeed] = start.addLines (1 + a.count Byte.lineFeed) := by
  rw [past_cons, past_nil, next_lineFeed, past_line]
  simp [addLines, start, Nat.add_comm]

theorem tokensFrom_lineFeed (a b : Bytes) :
    tokensFrom .start (split a ++ .lineBreak :: split b) =
      tokensFrom .start (split a) ++
        .lineBreakAt ⟨2 + a.count Byte.lineFeed, 0⟩ ::
          (tokensFrom .start (split b)).map (Token.addLines (1 + a.count Byte.lineFeed)) := by
  have hline : Position.start.addLines (1 + a.count Byte.lineFeed) =
      ⟨2 + a.count Byte.lineFeed, 0⟩ := by
    rw [Position.addLines, Position.start, ← Nat.add_assoc]
  rw [tokensFrom_append, flatMap_bytes_split, tokensFrom_cons]
  change _ ++ ([Token.lineBreakAt ((Position.start.past a).past [Byte.lineFeed])] ++
    tokensFrom ((Position.start.past a).past [Byte.lineFeed]) _) = _
  rw [Position.past_lineFeed, tokensFrom_addLines, hline]
  rfl

theorem respaced_lineFeed {a w : Bytes} (hw : ∀ c ∈ w, Byte.isWhitespace c = true)
    (hopen : ∀ l ∈ split a, l.isOpen = false) (b : Bytes) :
    Respaced (split (a ++ Byte.lineFeed :: b)) (a ++ w ++ Byte.lineFeed :: b) := by
  have hbreak : Padded [Byte.lineFeed] (w ++ [Byte.lineFeed]) := .lineFeed hw .nil
  have hrest : Respaced (.lineBreak :: split b) (w ++ [Byte.lineFeed] ++ (split b).flatMap bytes) :=
    .other rfl hbreak (respaced_refl _)
  have happend := (respaced_refl (split a)).append hrest
  rw [flatMap_bytes_split, flatMap_bytes_split] at happend
  rw [split_lineFeed hopen]
  simpa using happend

theorem rawTokens_append_lineFeed {a w b : Bytes} (hw : ∀ c ∈ w, Byte.isWhitespace c = true)
    (hopen : ∀ l ∈ split a, l.isOpen = false) (h : Admissible (a ++ w ++ Byte.lineFeed :: b)) :
    rawTokens (a ++ w ++ Byte.lineFeed :: b) =
      .ok (tokensFrom .start (split a) ++
        .lineBreakAt ⟨2 + a.count Byte.lineFeed, 0⟩ ::
          (tokensFrom .start (split b)).map (Token.addLines (1 + a.count Byte.lineFeed))) := by
  have hrespaced := respaced_lineFeed hw hopen b
  have hplain := admissible_of_respaced hrespaced h
  rw [rawTokens_of_respaced hrespaced h, rawTokens_of_admissible hplain, split_lineFeed hopen,
    tokensFrom_lineFeed]

/-- A source is scanned line by line, apart from constructs that are open at the line feed, and
whitespace before a line feed outside strings has no effect. -/
theorem rawTokens_lineFeed :
    (∀ a w b : Bytes, (∀ c ∈ w, Byte.isWhitespace c = true) →
      Admissible (a ++ w ++ Byte.lineFeed :: b) →
        ∃ s ts, scan a = .ok s ∧ rawTokens b = .ok ts ∧
          ((∀ c p, Signal.truncated c p ∉ s.signals) →
            rawTokens (a ++ w ++ Byte.lineFeed :: b) =
              .ok (s.tokens ++
                .lineBreakAt ⟨2 + a.count Byte.lineFeed, 0⟩ ::
                  ts.map (Token.addLines (1 + a.count Byte.lineFeed))))) ∧
      ∀ source text : Bytes, Respaced (split source) text → Admissible text →
        ∃ ts, rawTokens source = .ok ts ∧ rawTokens text = .ok ts := by
  constructor
  · intro a w b hw hadmissible
    have ha : Admissible a := hadmissible.of_infix (by
      rw [List.append_assoc]
      exact (List.prefix_append _ _).isInfix)
    have hb : Admissible b := hadmissible.of_infix (by
      rw [List.append_cons]
      exact (List.suffix_append _ _).isInfix)
    refine ⟨_, _, scan_of_admissible ha, rawTokens_of_admissible hb, ?_⟩
    intro htruncated
    apply rawTokens_append_lineFeed hw _ hadmissible
    intro l hl
    apply Bool.eq_false_iff.mpr
    intro hopen
    obtain ⟨c, p, hmem⟩ := exists_truncated_of_isOpen hl hopen .start
    exact htruncated c p hmem
  · intro source text hrespaced hadmissible
    have hsource := admissible_of_respaced hrespaced hadmissible
    have htokens := rawTokens_of_admissible hsource
    exact ⟨_, htokens, (rawTokens_of_respaced hrespaced hadmissible).trans htokens⟩

theorem rawTokens_lineFeed_carriageReturn :
    (∃ s ts, scan (Bytes.ofString "x//") = .ok s ∧ rawTokens (Bytes.ofString "y") = .ok ts ∧
      rawTokens (Bytes.ofString "x//\r\ny") =
        .ok (s.tokens ++ .lineBreakAt ⟨2, 0⟩ :: ts.map (Token.addLines 1))) ∧
      ∃ ts, rawTokens (Bytes.ofString "a\n`\n`\n") = .ok ts ∧
        rawTokens (Bytes.ofString "a\r\n`\n`\r\n") = .ok ts := by
  constructor
  · obtain ⟨s, ts, hs, hts, htokens⟩ := rawTokens_lineFeed.1 (Bytes.ofString "x//")
      (Bytes.ofString "\r") (Bytes.ofString "y") (List.all_eq_true.mp rfl)
      (admissible_of_length (by decide))
    refine ⟨s, ts, hs, hts, htokens ?_⟩
    have hsplit : split (Bytes.ofString "x//") = [.name (Bytes.ofString "x"), .lineComment []] :=
      split_eq_iff.mpr (by decide)
    rw [scan_of_admissible (admissible_of_length (by decide)), hsplit] at hs
    cases hs
    intro c p hmem
    simp [report, signals] at hmem
  · have hsplit : split (Bytes.ofString "a\n`\n`\n") =
        [.name (Bytes.ofString "a"), .lineBreak, .quoted .back (Bytes.ofString "\n"),
          .lineBreak] :=
      split_eq_iff.mpr (by decide)
    have hbreak : Padded (bytes .lineBreak) (Bytes.ofString "\r\n") :=
      .lineFeed (w := Bytes.ofString "\r") (List.all_eq_true.mp rfl) .nil
    apply rawTokens_lineFeed.2
    · rw [hsplit]
      exact .other rfl (Padded.refl _) (.other rfl hbreak (.string rfl (.other rfl hbreak .nil)))
    · exact admissible_of_length (by decide)

end StatementLexer
