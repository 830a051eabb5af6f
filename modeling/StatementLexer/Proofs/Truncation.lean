import StatementLexer.Proofs.Extension
import StatementLexer.Proofs.LineFeeds

namespace StatementLexer

def Event.isUnterminated : Event → Bool
  | .unterminated .. => true
  | _ => false

/-- The source ends in a string that the delimiter `q` opens at the offset `i`. Its tokens are those
before the delimiter; bytes that are appended belong to the string, up to the delimiter that closes
it. -/
structure CutString (source : Bytes) (ts : List Token) (q : Quote) (i : Nat) : Prop where
  delimiter : source[i]? = some q.byte
  unclosed : q.byte ∉ source.drop (i + 1)
  tokens : rawTokens (source.take i) = .ok ts
  goes_on : ∀ x, q.byte ∉ x → Admissible (source ++ x) → rawTokens (source ++ x) = .ok ts
  closes : ∀ x, q.byte ∉ x → Admissible (source ++ x ++ [q.byte]) →
    rawTokens (source ++ x ++ [q.byte]) =
      .ok (ts ++ [.withLiteral .stringLit (source.drop (i + 1) ++ x) (locate source (i + 1))
        (locate (source ++ x ++ [q.byte]) (source ++ x ++ [q.byte]).length)])

/-- The source ends in a block comment that is opened at the offset `i`. Its tokens are those before
the comment and a line break for each line feed in it. -/
structure CutComment (source : Bytes) (ts : List Token) (i : Nat) : Prop where
  opening : [Byte.slash, Byte.asterisk] <+: source.drop i
  unclosed : ¬ Lexeme.closing <:+: source.drop (i + 2)
  tokens : ∃ us, rawTokens (source.take i) = .ok us ∧
    ts = us ++ (List.range ((source.drop (i + 2)).count Byte.lineFeed)).map fun n =>
      .lineBreakAt ⟨(locate source i).line + n + 1, 0⟩

def Signal.truncation? : Signal → Option (Construct × Position)
  | .token _ => none
  | .truncated c opened => some (c, opened)

theorem filter_isUnterminated_events {settings : Settings}
    (h : settings.warnUnterminated = true) (source : Bytes) (s : Scan) :
    (s.events settings source).filter Event.isUnterminated =
      (s.signals.filterMap Signal.truncation?).map fun r => .unterminated r.1 r.2 := by
  have hsignals : (s.signals.filterMap (Signal.event? settings)).filter Event.isUnterminated =
      (s.signals.filterMap Signal.truncation?).map fun r => .unterminated r.1 r.2 := by
    rw [List.filter_filterMap, List.map_filterMap]
    congr 1
    funext signal
    cases signal with
    | token t => rfl
    | truncated c opened =>
        simp [Signal.event?, Signal.truncation?, h, Event.isUnterminated]
  rw [Scan.events, List.filter_append, List.filter_cons, hsignals]
  exact List.append_nil _

namespace Lexeme

/-- The construct that a unit reports as cut short. -/
def construct? : Lexeme → Option Construct
  | .openComment _ => some .blockComment
  | .openQuoted q _ => some q.construct
  | _ => none

theorem isOpen_of_construct? {l : Lexeme} {c : Construct} (h : l.construct? = some c) :
    l.isOpen = true := by
  cases l with
  | openComment text => rfl
  | openQuoted q text => rfl
  | _ => cases h

theorem eq_openQuoted_of_construct? {l : Lexeme} {q : Quote}
    (h : l.construct? = some q.construct) : ∃ text, l = .openQuoted q text := by
  cases l with
  | openComment text => cases q <;> cases h
  | openQuoted d text =>
      cases d <;> cases q
      case double.double => exact ⟨text, rfl⟩
      case back.back => exact ⟨text, rfl⟩
      all_goals cases h
  | _ => cases h

theorem eq_openComment_of_construct? {l : Lexeme} (h : l.construct? = some .blockComment) :
    ∃ text, l = .openComment text := by
  cases l with
  | openComment text => exact ⟨text, rfl⟩
  | openQuoted d text => cases d <;> cases h
  | _ => cases h

theorem truncations_lineBreaks (line : Nat) (text : Bytes) :
    (lineBreaks line text).filterMap Signal.truncation? = [] := by
  rw [lineBreaks, List.filterMap_map, List.filterMap_eq_nil_iff]
  intro i _
  rfl

theorem truncations_signals (l : Lexeme) (p q : Position) :
    (l.signals p q).filterMap Signal.truncation? =
      (l.construct?.map fun c => (c, p)).toList := by
  cases l with
  | blockComment text => exact truncations_lineBreaks p.line text
  | openComment text =>
      rw [signals, List.filterMap_append, truncations_lineBreaks]
      rfl
  | _ => rfl

/-- At most one construct is cut short, by the last unit, and it is reported where it starts. -/
theorem truncations_report {ls : List Lexeme} (h : Tiles ls []) (p : Position) :
    (report p ls).filterMap Signal.truncation? = [] ∨
      ∃ ms l c, ls = ms ++ [l] ∧ l.construct? = some c ∧
        (report p ls).filterMap Signal.truncation? = [(c, p.past (ms.flatMap bytes))] := by
  induction ls generalizing p with
  | nil => exact .inl rfl
  | cons l ls ih =>
      rw [report, List.filterMap_append, truncations_signals]
      rcases hc : l.construct? with _ | c
      · rw [Option.map_none, Option.toList_none, List.nil_append]
        rcases ih h.2.2 (p.past l.bytes) with hnone | ⟨ms, m, c, rfl, hm, hone⟩
        · exact .inl hnone
        · refine .inr ⟨l :: ms, m, c, rfl, hm, ?_⟩
          rw [hone, List.flatMap_cons, Position.past_append]
      · obtain rfl := eq_nil_of_isOpen h (isOpen_of_construct? hc)
        exact .inr ⟨[], l, c, rfl, hc, rfl⟩

section OpenString

variable {source : Bytes} {ms : List Lexeme} {q : Quote} {text x : Bytes}

theorem bytes_of_openQuoted (h : split source = ms ++ [.openQuoted q text]) :
    source = ms.flatMap bytes ++ q.byte :: text ∧ q.byte ∉ text := by
  obtain ⟨hbytes, htiles⟩ := split_eq_iff.mp h
  refine ⟨?_, (tiles_append.mp htiles).2.1⟩
  rw [← hbytes, List.flatMap_append, List.flatMap_singleton]
  rfl

theorem split_append_openQuoted (h : split source = ms ++ [.openQuoted q text])
    (hx : q.byte ∉ x) : split (source ++ x) = ms ++ [.openQuoted q (text ++ x)] := by
  have hopen : (openQuoted q (text ++ x)).WellFormed := by
    simpa [WellFormed] using ⟨(bytes_of_openQuoted h).2, hx⟩
  rw [split_append_of_concat h, ← split_bytes hopen]
  rfl

theorem split_append_quoted (h : split source = ms ++ [.openQuoted q text])
    (hx : q.byte ∉ x) : split (source ++ x ++ [q.byte]) = ms ++ [.quoted q (text ++ x)] := by
  have hclosed : (quoted q (text ++ x)).WellFormed := by
    simpa [WellFormed] using ⟨(bytes_of_openQuoted h).2, hx⟩
  rw [split_append_of_concat (split_append_openQuoted h hx), ← split_bytes hclosed]
  rfl

end OpenString

end Lexeme

open Lexeme

theorem locate_quote (before text : Bytes) (q : Quote) :
    locate (before ++ q.byte :: text) (before.length + 1) =
      ⟨(Position.start.past before).line, (Position.start.past before).column + 1⟩ := by
  rw [List.append_cons, ← List.length_singleton, locate_length_add, Position.past_append]
  exact Position.next_of_ne q.byte_ne_lineFeed _

theorem locate_end (source : Bytes) : locate source source.length = Position.start.past source := by
  rw [← Position.past_take, List.take_length]

theorem rawTokens_take_of_concat {source : Bytes} (hsource : Admissible source)
    {ms : List Lexeme} {l : Lexeme} (h : split source = ms ++ [l]) :
    rawTokens (source.take (ms.flatMap bytes).length) = .ok (tokensFrom .start ms) := by
  have htake : source.take (ms.flatMap bytes).length = ms.flatMap bytes := by
    rw [← (split_eq_iff.mp h).1, List.flatMap_append, List.take_left]
  rw [rawTokens_of_admissible (hsource.of_infix (List.take_prefix _ _).isInfix), htake,
    split_flatMap_of_concat h]

section OpenString

variable {source : Bytes} {ms : List Lexeme} {q : Quote} {text x : Bytes}

theorem rawTokens_append_openQuoted (h : split source = ms ++ [.openQuoted q text])
    (hx : q.byte ∉ x) (hadmissible : Admissible (source ++ x)) :
    rawTokens (source ++ x) = .ok (tokensFrom .start ms) := by
  rw [rawTokens_of_admissible hadmissible, split_append_openQuoted h hx, tokensFrom_append]
  exact congrArg Except.ok (List.append_nil _)

theorem rawTokens_append_quoted (h : split source = ms ++ [.openQuoted q text])
    (hx : q.byte ∉ x) (hadmissible : Admissible (source ++ x ++ [q.byte])) :
    rawTokens (source ++ x ++ [q.byte]) =
      .ok (tokensFrom .start ms ++
        [.withLiteral .stringLit (text ++ x) (locate source ((ms.flatMap bytes).length + 1))
          (locate (source ++ x ++ [q.byte]) (source ++ x ++ [q.byte]).length)]) := by
  have hsplit := split_append_quoted h hx
  have hwhole : source ++ x ++ [q.byte] = ms.flatMap bytes ++ (quoted q (text ++ x)).bytes := by
    rw [← (split_eq_iff.mp hsplit).1, List.flatMap_append, List.flatMap_singleton]
  have hstart : locate source ((ms.flatMap bytes).length + 1) =
      ⟨(Position.start.past (ms.flatMap bytes)).line,
        (Position.start.past (ms.flatMap bytes)).column + 1⟩ := by
    rw [(bytes_of_openQuoted h).1, locate_quote]
  rw [rawTokens_of_admissible hadmissible, hsplit, tokensFrom_append, hstart, locate_end, hwhole,
    Position.past_append]
  rfl

theorem cutString_of_split (hsource : Admissible source)
    (h : split source = ms ++ [.openQuoted q text]) :
    CutString source (tokensFrom .start (split source)) q (ms.flatMap bytes).length := by
  obtain ⟨hbytes, hq⟩ := bytes_of_openQuoted h
  have hdrop : source.drop ((ms.flatMap bytes).length + 1) = text := by
    rw [hbytes, List.append_cons]
    exact List.drop_left' (by simp)
  have htokens : tokensFrom .start (split source) = tokensFrom .start ms := by
    rw [h, tokensFrom_append]
    exact List.append_nil _
  rw [htokens]
  refine ⟨?_, ?_, rawTokens_take_of_concat hsource h, ?_, ?_⟩
  · simp [hbytes]
  · rwa [hdrop]
  · intro x hx hadmissible
    exact rawTokens_append_openQuoted h hx hadmissible
  · intro x hx hadmissible
    rw [rawTokens_append_quoted h hx hadmissible, hdrop]

end OpenString

theorem cutComment_of_split {source : Bytes} (hsource : Admissible source) {ms : List Lexeme}
    {text : Bytes} (h : split source = ms ++ [.openComment text]) :
    CutComment source (tokensFrom .start (split source)) (ms.flatMap bytes).length := by
  obtain ⟨hbytes, htiles⟩ := split_eq_iff.mp h
  have htext : ¬ closing <:+: text := (tiles_append.mp htiles).2.1
  have hmarked : source = ms.flatMap bytes ++ ([Byte.slash, Byte.asterisk] ++ text) := by
    rw [← hbytes, List.flatMap_append, List.flatMap_singleton]
    rfl
  have hdrop : source.drop ((ms.flatMap bytes).length + 2) = text := by
    rw [hmarked, ← List.append_assoc]
    exact List.drop_left' (by simp)
  have hline : locate source (ms.flatMap bytes).length =
      Position.start.past (ms.flatMap bytes) := by
    rw [hmarked, locate_length]
  refine ⟨?_, ?_, _, rawTokens_take_of_concat hsource h, ?_⟩
  · rw [hmarked, List.drop_left]
    exact List.prefix_append _ _
  · rwa [hdrop]
  · rw [hdrop, hline, ← tokens_lineBreaks, h, tokensFrom_append, tokensFrom_cons, tokensFrom_nil,
      List.append_nil, signals, List.filterMap_append]
    exact congrArg _ (List.append_nil _)

theorem exists_split_of_unterminated {source : Bytes} {settings : Settings}
    (hwarn : settings.warnUnterminated = true) {s : Scan}
    (hs : s.signals = report .start (split source)) {c : Construct} {opened : Position}
    (h : Event.unterminated c opened ∈ s.events settings source) :
    ∃ ms l, split source = ms ++ [l] ∧ l.construct? = some c ∧
      opened = locate source (ms.flatMap bytes).length := by
  have hmem : Event.unterminated c opened ∈
      (s.events settings source).filter Event.isUnterminated :=
    List.mem_filter.mpr ⟨h, rfl⟩
  rw [filter_isUnterminated_events hwarn, hs] at hmem
  rcases truncations_report (tiles_split source) .start with hnone | ⟨ms, l, d, hsplit, hl, hone⟩
  · simp [hnone] at hmem
  · rw [hone, List.map_singleton, List.mem_singleton] at hmem
    cases hmem
    have hbytes := flatMap_bytes_split source
    rw [hsplit, List.flatMap_append] at hbytes
    refine ⟨ms, l, hsplit, hl, ?_⟩
    rw [← hbytes, locate_length]

/-- With warnings on, a scan warns of at most one construct that the end of the source cuts short. A
string lacks its delimiter, and a block comment its closing mark, from the place that the warning
names to the end of the source. -/
theorem scan_warns_of_truncation {source : Bytes} (h : Admissible source) {settings : Settings}
    (hwarn : settings.warnUnterminated = true) :
    ∃ s, scan source = .ok s ∧
      ((s.events settings source).filter Event.isUnterminated).length ≤ 1 ∧
      (∀ q opened, Event.unterminated (Quote.construct q) opened ∈ s.events settings source →
        ∃ i, opened = locate source i ∧ CutString source s.tokens q i) ∧
      ∀ opened, Event.unterminated .blockComment opened ∈ s.events settings source →
        ∃ i, opened = locate source i ∧ CutComment source s.tokens i := by
  refine ⟨_, scan_of_admissible h, ?_, ?_, ?_⟩
  · rw [filter_isUnterminated_events hwarn, List.length_map]
    rcases truncations_report (tiles_split source) .start with hnone | ⟨_, _, _, _, _, hone⟩
    · rw [hnone]
      exact Nat.zero_le _
    · rw [hone]
      exact Nat.le_refl _
  · intro q opened hmem
    obtain ⟨ms, l, hsplit, hl, hopened⟩ := exists_split_of_unterminated hwarn rfl hmem
    obtain ⟨text, rfl⟩ := eq_openQuoted_of_construct? hl
    exact ⟨_, hopened, cutString_of_split h hsplit⟩
  · intro opened hmem
    obtain ⟨ms, l, hsplit, hl, hopened⟩ := exists_split_of_unterminated hwarn rfl hmem
    obtain ⟨text, rfl⟩ := eq_openComment_of_construct? hl
    exact ⟨_, hopened, cutComment_of_split h hsplit⟩

theorem scan_warns_of_truncation_quote :
    (let source := Bytes.ofString "a `\"\n"
      ∃ s i, scan source = .ok s ∧ Event.unterminated .rawString ⟨1, 2⟩ ∈ s.events {} source ∧
        locate source i = ⟨1, 2⟩ ∧ CutString source s.tokens .back i ∧
        rawTokens (source ++ Bytes.ofString "/*`") =
          .ok (s.tokens ++ [.withLiteral .stringLit (source.drop (i + 1) ++ Bytes.ofString "/*")
            (locate source (i + 1)) ⟨2, 3⟩])) ∧
      let source := Bytes.ofString "x/*/\n"
      ∃ s i, scan source = .ok s ∧ Event.unterminated .blockComment ⟨1, 1⟩ ∈ s.events {} source ∧
        locate source i = ⟨1, 1⟩ ∧ CutComment source s.tokens i := by
  constructor
  · intro source
    have hsource : Admissible source := admissible_of_length (by decide)
    have hsplit : split source =
        [.name (Bytes.ofString "a"), .blank Byte.space,
          .openQuoted .back (Bytes.ofString "\"\n")] :=
      split_eq_iff.mpr (by decide)
    obtain ⟨s, hs, -, hstring, -⟩ := @scan_warns_of_truncation source hsource {} rfl
    have hmem : Event.unterminated .rawString ⟨1, 2⟩ ∈ s.events {} source := by
      rw [scan_of_admissible hsource, hsplit] at hs
      cases hs
      decide
    obtain ⟨i, hopened, hcut⟩ := hstring .back ⟨1, 2⟩ hmem
    exact ⟨s, i, hs, hmem, hopened.symm, hcut, hcut.closes (Bytes.ofString "/*") (by decide)
      (admissible_of_length (by decide))⟩
  · intro source
    have hsource : Admissible source := admissible_of_length (by decide)
    have hsplit : split source =
        [.name (Bytes.ofString "x"), .openComment (Bytes.ofString "/\n")] :=
      split_eq_iff.mpr (by decide)
    obtain ⟨s, hs, -, -, hcomment⟩ := @scan_warns_of_truncation source hsource {} rfl
    have hmem : Event.unterminated .blockComment ⟨1, 1⟩ ∈ s.events {} source := by
      rw [scan_of_admissible hsource, hsplit] at hs
      cases hs
      decide
    obtain ⟨i, hopened, hcut⟩ := hcomment ⟨1, 1⟩ hmem
    exact ⟨s, i, hs, hmem, hopened.symm, hcut⟩

end StatementLexer
