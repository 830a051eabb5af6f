import StatementLexer.Proofs.Region
import StatementLexer.Proofs.SourceMap

namespace StatementLexer

/-- The offsets of the line feeds that stand in no string. -/
def lineFeedsOutsideStrings (source : Bytes) : List Nat :=
  (List.range source.length).filter fun k =>
    source[k]? == some Byte.lineFeed && !(Region.atOffset source k).isString

/-- The line feeds in the literals of the strings. -/
def stringLineFeeds (ts : List Token) : Nat :=
  ((ts.filter fun t => t.is .stringLit).flatMap fun t => t.literal.getD []).count Byte.lineFeed

/-- The bytes behind the delimiter of a string that is reported as cut short by the end of the
source; none if no string is. -/
def StringTail (source : Bytes) (signals : List Signal) (tail : Bytes) : Prop :=
  (∃ before q, source = before ++ Quote.byte q :: tail ∧ q.byte ∉ tail ∧
    Signal.truncated q.construct (locate source before.length) ∈ signals) ∨
    tail = [] ∧ ∀ q p, Signal.truncated (Quote.construct q) p ∉ signals

theorem Quote.byte_ne_lineFeed (q : Quote) : q.byte ≠ Byte.lineFeed := by
  cases q <;> decide

namespace Region

/-- The line breaks for the line feeds outside strings, when the first byte stands in `r` on the
line `line`. -/
def breaks : Region → Nat → Bytes → List Token
  | _, _, [] => []
  | r, line, b :: text =>
      if b = Byte.lineFeed then
        (if r.isString then [] else [.lineBreakAt ⟨line + 1, 0⟩]) ++
          breaks (r.step b) (line + 1) text
      else breaks (r.step b) line text

theorem breaks_of_ne {b : UInt8} (h : b ≠ Byte.lineFeed) (r : Region) (line : Nat) (text : Bytes) :
    r.breaks line (b :: text) = (r.step b).breaks line text := by
  rw [breaks, if_neg h]

theorem breaks_lineFeed (r : Region) (line : Nat) (text : Bytes) :
    r.breaks line (Byte.lineFeed :: text) =
      (if r.isString then [] else [.lineBreakAt ⟨line + 1, 0⟩]) ++
        (r.step Byte.lineFeed).breaks (line + 1) text := by
  rw [breaks, if_pos rfl]

theorem breaks_append (r : Region) (line : Nat) (a b : Bytes) :
    r.breaks line (a ++ b) =
      r.breaks line a ++ (r.run a).breaks (line + a.count Byte.lineFeed) b := by
  induction a generalizing r line with
  | nil => rfl
  | cons c a ih =>
      rcases eq_or_ne c Byte.lineFeed with rfl | hc
      · rw [List.cons_append, breaks_lineFeed, breaks_lineFeed, ih, List.append_assoc, run_cons,
          List.count_cons_self, Nat.add_assoc, Nat.add_comm 1]
      · rw [List.cons_append, breaks_of_ne hc, breaks_of_ne hc, ih, run_cons,
          List.count_cons_of_ne hc]

theorem breaks_of_not_mem {text : Bytes} (h : Byte.lineFeed ∉ text) (r : Region) (line : Nat) :
    r.breaks line text = [] := by
  induction text generalizing r with
  | nil => rfl
  | cons b text ih =>
      rw [List.mem_cons, not_or] at h
      rw [breaks_of_ne (Ne.symm h.1), ih h.2]

theorem breaks_string {q : Quote} {text : Bytes} (h : q.byte ∉ text) (line : Nat) :
    (string q).breaks line text = [] := by
  induction text generalizing line with
  | nil => rfl
  | cons b text ih =>
      rw [List.mem_cons, not_or] at h
      have hstep : (string q).step b = .string q := if_neg (Ne.symm h.1)
      rcases eq_or_ne b Byte.lineFeed with rfl | hb
      · rw [breaks_lineFeed, hstep, ih h.2]
        rfl
      · rw [breaks_of_ne hb, hstep, ih h.2]

theorem HoldsComment.breaks {r : Region} {mark text : Bytes} (h : r.HoldsComment mark)
    (hclosing : ¬ Lexeme.closing <:+: mark ++ text) (line : Nat) :
    r.breaks line text = (Lexeme.lineBreaks line text).filterMap Signal.token? := by
  -- No byte of the text is in a string: the region stays inside the comment up to the next byte.
  induction text generalizing r mark line with
  | nil => rfl
  | cons b text ih =>
      have hstring : r.isString = false := by
        rcases h with ⟨rfl, -⟩ | ⟨rfl, -⟩ <;> rfl
      obtain ⟨mark', hmark, hrest⟩ := h.step hclosing
      rcases eq_or_ne b Byte.lineFeed with rfl | hb
      · rw [breaks_lineFeed, hstring, Lexeme.lineBreaks_lineFeed, ih hmark hrest]
        rfl
      · rw [breaks_of_ne hb, Lexeme.lineBreaks_of_ne hb, ih hmark hrest]

theorem Ready.breaks {r : Region} {rest : Bytes} (h : r.Ready rest) (line : Nat) :
    r.breaks line rest = Region.breaks .code line rest := by
  rcases rest with _ | ⟨b, rest⟩
  · rfl
  · obtain ⟨hstring, hstep⟩ := h b rfl
    rw [Region.breaks, Region.breaks, hstring, hstep]
    rfl

/-- The line breaks of a source are those at the offsets of its line feeds outside strings. -/
theorem breaks_eq_map (before text : Bytes) :
    (run .code before).breaks (1 + before.count Byte.lineFeed) text =
      ((List.range' before.length text.length).filter fun k =>
        (before ++ text)[k]? == some Byte.lineFeed &&
          !(Region.atOffset (before ++ text) k).isString).map fun k =>
        .lineBreakAt ⟨2 + ((before ++ text).take k).count Byte.lineFeed, 0⟩ := by
  induction text generalizing before with
  | nil => rfl
  | cons b text ih =>
      have hrest := ih (before ++ [b])
      have hsource : before ++ [b] ++ text = before ++ b :: text := by simp
      have hbyte : (before ++ b :: text)[before.length]? = some b := by simp
      have htake : (before ++ b :: text).take before.length = before := List.take_left
      rw [hsource, List.length_append, List.length_singleton, run_append, run_cons, run_nil,
        List.count_append, ← Nat.add_assoc] at hrest
      rw [List.length_cons, List.range'_succ, List.filter_cons, Region.atOffset, htake, hbyte]
      rcases eq_or_ne b Byte.lineFeed with rfl | hb
      · rw [List.count_singleton_self] at hrest
        have hline : 1 + before.count Byte.lineFeed + 1 = 2 + before.count Byte.lineFeed := by
          omega
        rw [breaks_lineFeed, hrest]
        cases (run .code before).isString with
        | true => rfl
        | false =>
            rw [beq_self_eq_true, Bool.not_false, Bool.and_self, if_pos rfl, List.map_cons, htake,
              hline]
            rfl
      · have hother : (some b == some Byte.lineFeed) = false := by simpa using hb
        rw [List.count_singleton, if_neg (by simpa using hb), Nat.add_zero] at hrest
        rw [breaks_of_ne hb, hrest, hother]
        rfl

end Region

namespace Lexeme

theorem filter_lineBreaks_tokens (line : Nat) (text : Bytes) :
    (((lineBreaks line text).filterMap Signal.token?).filter fun t => t.is .endOfLine) =
      (lineBreaks line text).filterMap Signal.token? := by
  apply List.filter_eq_self.mpr
  intro t ht
  obtain ⟨signal, hsignal, htoken⟩ := List.mem_filterMap.mp ht
  obtain ⟨i, -, rfl⟩ := List.mem_map.mp hsignal
  cases htoken
  rfl

theorem tokens_lineBreaks (line : Nat) (text : Bytes) :
    (lineBreaks line text).filterMap Signal.token? =
      (List.range (text.count Byte.lineFeed)).map fun n => .lineBreakAt ⟨line + n + 1, 0⟩ := by
  rw [lineBreaks, List.filterMap_map, ← List.filterMap_eq_map]
  rfl

theorem length_lineBreaks_tokens (line : Nat) (text : Bytes) :
    ((lineBreaks line text).filterMap Signal.token?).length = text.count Byte.lineFeed := by
  rw [tokens_lineBreaks, List.length_map, List.length_range]

theorem lineBreaks_of_not_mem {text : Bytes} (h : Byte.lineFeed ∉ text) (line : Nat) :
    lineBreaks line text = [] := by
  rw [lineBreaks, List.count_eq_zero.mpr h]
  rfl

theorem filter_endOfLine_signals {l : Lexeme} (hl : l.WellFormed) (p : Position) :
    (((l.signals p (p.past l.bytes)).filterMap Signal.token?).filter fun t => t.is .endOfLine) =
      if l.isString then [] else (lineBreaks p.line l.bytes).filterMap Signal.token? := by
  have hnone : Byte.lineFeed ∉ l.bytes →
      [] = (lineBreaks p.line l.bytes).filterMap Signal.token? := by
    intro hfree
    rw [lineBreaks_of_not_mem hfree]
    rfl
  have hcomment : l.isComment = true →
      (((l.signals p (p.past l.bytes)).filterMap Signal.token?).filter fun t => t.is .endOfLine) =
        (lineBreaks p.line l.bytes).filterMap Signal.token? := by
    intro hcomment
    rw [tokens_signals_of_isComment hl hcomment, filter_lineBreaks_tokens]
  cases l with
  | lineBreak => rfl
  | lineComment text => exact hcomment rfl
  | blockComment text => exact hcomment rfl
  | openComment text => exact hcomment rfl
  | quoted q text => rfl
  | openQuoted q text => rfl
  | symbol k =>
      have hkind : k ≠ .endOfLine := by
        rintro rfl
        cases hl
      refine Eq.trans ?_ (hnone ((lineFeed_not_mem_bytes hl rfl).resolve_right (by simp)))
      apply List.filter_eq_nil_iff.mpr
      simpa [signals, Signal.token?, Token.is, Token.plain] using hkind
  | _ => exact hnone ((lineFeed_not_mem_bytes hl rfl).resolve_right (by simp))

theorem breaks_comment {text close : Bytes} (htext : ¬ closing <:+: text)
    (hclose : Byte.lineFeed ∉ close) (line : Nat) :
    Region.breaks .code line (Byte.slash :: Byte.asterisk :: (text ++ close)) =
      (lineBreaks line (Byte.slash :: Byte.asterisk :: (text ++ close))).filterMap
        Signal.token? := by
  have hslash : Byte.slash ≠ Byte.lineFeed := by decide
  have hasterisk : Byte.asterisk ≠ Byte.lineFeed := by decide
  have hholds : Region.HoldsComment .blockComment [] := .inl ⟨rfl, rfl⟩
  have hcount : (text ++ close).count Byte.lineFeed = text.count Byte.lineFeed := by
    rw [List.count_append, List.count_eq_zero.mpr hclose, Nat.add_zero]
  rw [Region.breaks_of_ne hslash, Region.breaks_of_ne hasterisk, lineBreaks_of_ne hslash,
    lineBreaks_of_ne hasterisk, lineBreaks_of_count hcount, ← hholds.breaks htext,
    Region.breaks_append, Region.breaks_of_not_mem hclose, List.append_nil]
  rfl

theorem breaks_bytes {l : Lexeme} (hl : l.WellFormed) (line : Nat) :
    Region.breaks .code line l.bytes =
      if l.isString then [] else (lineBreaks line l.bytes).filterMap Signal.token? := by
  have hnone : Byte.lineFeed ∉ l.bytes →
      Region.breaks .code line l.bytes = (lineBreaks line l.bytes).filterMap Signal.token? := by
    intro hfree
    rw [lineBreaks_of_not_mem hfree, Region.breaks_of_not_mem hfree]
    rfl
  cases l with
  | lineBreak => rfl
  | blockComment text =>
      have htext : ¬ closing <:+: text :=
        fun hfound => hl (hfound.trans (List.prefix_append _ _).isInfix)
      exact breaks_comment htext (by decide) line
  | openComment text =>
      have hcomment := @breaks_comment text [] hl List.not_mem_nil line
      rw [List.append_nil] at hcomment
      exact hcomment
  | quoted q text =>
      rw [bytes, Region.breaks_of_ne q.byte_ne_lineFeed, Region.step, Region.enter_quote,
        Region.breaks_append, Region.breaks_string hl, Region.breaks_of_ne q.byte_ne_lineFeed]
      rfl
  | openQuoted q text =>
      rw [bytes, Region.breaks_of_ne q.byte_ne_lineFeed, Region.step, Region.enter_quote,
        Region.breaks_string hl]
      rfl
  | _ => exact hnone ((lineFeed_not_mem_bytes hl rfl).resolve_right (by simp))

theorem filter_endOfLine_tokensFrom {ls : List Lexeme} (h : Tiles ls []) {r : Region}
    (hready : r.Ready (ls.flatMap bytes)) (p : Position) :
    ((tokensFrom p ls).filter fun t => t.is .endOfLine) =
      r.breaks p.line (ls.flatMap bytes) := by
  induction ls generalizing r p with
  | nil => rfl
  | cons l ls ih =>
      obtain ⟨hl, hends, hls⟩ := h
      rw [List.append_nil] at hends
      rw [hready.breaks, List.flatMap_cons, Region.breaks_append, breaks_bytes hl,
        ← filter_endOfLine_signals hl, ← Position.past_line, ← ih hls (ready_run hl hends),
        tokensFrom_cons, List.filter_append]

/-- The bytes of a string that is closed. -/
def closedText : Lexeme → Bytes
  | .quoted _ text => text
  | _ => []

/-- The bytes of a string that is never closed. -/
def openText : Lexeme → Bytes
  | .openQuoted _ text => text
  | _ => []

theorem stringLineFeeds_lineBreaks (line : Nat) (text : Bytes) :
    stringLineFeeds ((lineBreaks line text).filterMap Signal.token?) = 0 := by
  have hnone : (((lineBreaks line text).filterMap Signal.token?).filter fun t =>
      t.is .stringLit) = [] := by
    rw [← filter_lineBreaks_tokens, List.filter_filter]
    apply List.filter_eq_nil_iff.mpr
    intro t _ hboth
    simp only [Token.is, Bool.and_eq_true, beq_iff_eq] at hboth
    rw [hboth.1] at hboth
    cases hboth.2
  rw [stringLineFeeds, hnone]
  rfl

theorem stringLineFeeds_signals {l : Lexeme} (hl : l.WellFormed) (p q : Position) :
    stringLineFeeds ((l.signals p q).filterMap Signal.token?) =
      l.closedText.count Byte.lineFeed := by
  have hcomment : l.isComment = true →
      stringLineFeeds ((l.signals p q).filterMap Signal.token?) = 0 := by
    intro hcomment
    rw [tokens_signals_of_isComment hl hcomment, stringLineFeeds_lineBreaks]
  cases l with
  | lineBreak => rfl
  | blank b => rfl
  | lineComment text => exact hcomment rfl
  | blockComment text => exact hcomment rfl
  | openComment text => exact hcomment rfl
  | quoted d text => exact congrArg (List.count Byte.lineFeed) (List.append_nil text)
  | openQuoted d text => rfl
  | number digits => rfl
  | symbol k =>
      have hkind : k ≠ .stringLit := by
        rintro rfl
        cases hl
      have hnone : ([Token.plain k p q].filter fun t => t.is .stringLit) = [] := by
        simpa [Token.is, Token.plain] using hkind
      change stringLineFeeds [Token.plain k p q] = 0
      rw [stringLineFeeds, hnone]
      rfl
  | name text => rfl

theorem count_lineFeed_bytes {l : Lexeme} (hl : l.WellFormed) (p : Position) :
    l.bytes.count Byte.lineFeed =
      (((l.signals p (p.past l.bytes)).filterMap Signal.token?).filter fun t =>
        t.is .endOfLine).length +
        stringLineFeeds ((l.signals p (p.past l.bytes)).filterMap Signal.token?) +
          l.openText.count Byte.lineFeed := by
  rw [filter_endOfLine_signals hl, stringLineFeeds_signals hl]
  cases l with
  | quoted q text =>
      rw [bytes, List.count_cons_of_ne q.byte_ne_lineFeed, List.count_append, List.count_singleton,
        if_neg (by simpa using q.byte_ne_lineFeed)]
      exact (Nat.zero_add _).symm
  | openQuoted q text =>
      rw [bytes, List.count_cons_of_ne q.byte_ne_lineFeed]
      exact (Nat.zero_add _).symm
  | _ => exact (length_lineBreaks_tokens p.line _).symm

end Lexeme

theorem stringLineFeeds_append (ts us : List Token) :
    stringLineFeeds (ts ++ us) = stringLineFeeds ts + stringLineFeeds us := by
  rw [stringLineFeeds, List.filter_append, List.flatMap_append, List.count_append]
  rfl

namespace Lexeme

theorem count_lineFeed_flatMap {ls : List Lexeme} {rest : Bytes} (h : Tiles ls rest)
    (p : Position) :
    (ls.flatMap bytes).count Byte.lineFeed =
      ((tokensFrom p ls).filter fun t => t.is .endOfLine).length +
        stringLineFeeds (tokensFrom p ls) + (ls.flatMap openText).count Byte.lineFeed := by
  induction ls generalizing p with
  | nil => rfl
  | cons l ls ih =>
      obtain ⟨hl, -, hls⟩ := h
      have hunit := count_lineFeed_bytes hl p
      have hunits := ih hls (p.past l.bytes)
      rw [tokensFrom_cons, List.filter_append, List.length_append, stringLineFeeds_append,
        List.flatMap_cons, List.flatMap_cons, List.count_append, List.count_append]
      omega

theorem truncated_not_mem_signals {l : Lexeme} (h : ∀ q text, l ≠ .openQuoted q text)
    (p p' : Position) (q : Quote) (r : Position) :
    Signal.truncated q.construct r ∉ l.signals p p' := by
  intro hmem
  cases l with
  | openQuoted d text => exact h d text rfl
  | blockComment text =>
      obtain ⟨i, -, hi⟩ := List.mem_map.mp hmem
      cases hi
  | openComment text =>
      rcases List.mem_append.mp hmem with hmem | hmem
      · obtain ⟨i, -, hi⟩ := List.mem_map.mp hmem
        cases hi
      · cases q <;> cases List.mem_singleton.mp hmem
  | _ => simp [signals] at hmem

theorem exists_openText {ls : List Lexeme} (h : Tiles ls []) (p : Position) :
    (∃ before q, ls.flatMap bytes = before ++ Quote.byte q :: ls.flatMap openText ∧
      q.byte ∉ ls.flatMap openText ∧
        Signal.truncated q.construct (p.past before) ∈ report p ls) ∨
      ls.flatMap openText = [] ∧
        ∀ q r, Signal.truncated (Quote.construct q) r ∉ report p ls := by
  induction ls generalizing p with
  | nil => exact .inr ⟨rfl, by simp [report]⟩
  | cons l ls ih =>
      by_cases hopen : ∃ q text, l = .openQuoted q text
      · obtain ⟨q, text, rfl⟩ := hopen
        obtain rfl := eq_nil_of_isOpen h rfl
        have hq : q.byte ∉ text := h.1
        refine .inl ⟨[], q, ?_, ?_, ?_⟩
        · simp [bytes, openText]
        · simpa [openText] using hq
        · simp [report, signals]
      · have hempty : l.openText = [] := by
          cases l with
          | openQuoted q text => exact absurd ⟨q, text, rfl⟩ hopen
          | _ => rfl
        rw [List.flatMap_cons, List.flatMap_cons, hempty, List.nil_append, report]
        rcases ih h.2.2 (p.past l.bytes) with ⟨before, q, hbytes, hq, hmem⟩ | ⟨hnil, hnone⟩
        · refine .inl ⟨l.bytes ++ before, q, ?_, hq, ?_⟩
          · rw [hbytes, List.append_assoc]
          · rw [Position.past_append]
            exact List.mem_append_right _ hmem
        · refine .inr ⟨hnil, ?_⟩
          intro q r hmem
          rcases List.mem_append.mp hmem with hmem | hmem
          · exact truncated_not_mem_signals (fun d text hl => hopen ⟨d, text, hl⟩) _ _ q r hmem
          · exact hnone q r hmem

end Lexeme

open Lexeme

theorem filter_endOfLine_split (source : Bytes) :
    ((tokensFrom .start (split source)).filter fun t => t.is .endOfLine) =
      (lineFeedsOutsideStrings source).map fun k =>
        .lineBreakAt ⟨2 + (source.take k).count Byte.lineFeed, 0⟩ := by
  have hready := Region.ready_of_eq_code rfl ((split source).flatMap bytes)
  have hbreaks := Region.breaks_eq_map [] source
  rw [filter_endOfLine_tokensFrom (tiles_split source) hready, flatMap_bytes_split,
    lineFeedsOutsideStrings, List.range_eq_range']
  exact hbreaks

theorem stringTail_split (source : Bytes) :
    StringTail source (report .start (split source)) ((split source).flatMap openText) := by
  rcases exists_openText (tiles_split source) .start with ⟨before, q, hbytes, hq, hmem⟩ | hnone
  · rw [flatMap_bytes_split] at hbytes
    have hlocate := locate_length before (q.byte :: (split source).flatMap openText)
    rw [← hbytes] at hlocate
    exact .inl ⟨before, q, hbytes, hq, hlocate ▸ hmem⟩
  · exact .inr hnone

/-- The line breaks of a raw stream are those of the line feeds outside strings, each at the start
of the line that it opens. All other line feeds are in the literals of strings or in a string that
is never closed. -/
theorem scan_lineBreaks {source : Bytes} (h : Admissible source) :
    ∃ s tail, scan source = .ok s ∧
      (s.tokens.filter fun t => t.is .endOfLine) =
        (lineFeedsOutsideStrings source).map (fun k =>
          .lineBreakAt ⟨2 + (source.take k).count Byte.lineFeed, 0⟩) ∧
      StringTail source s.signals tail ∧
      source.count Byte.lineFeed =
        (s.tokens.filter fun t => t.is .endOfLine).length + stringLineFeeds s.tokens +
          tail.count Byte.lineFeed ∧
      s.finish.location.line = 1 + source.count Byte.lineFeed := by
  refine ⟨_, _, scan_of_admissible h, filter_endOfLine_split source, stringTail_split source, ?_,
    Position.past_line .start source⟩
  have hcount := count_lineFeed_flatMap (tiles_split source) .start
  rw [flatMap_bytes_split] at hcount
  exact hcount

theorem scan_lineBreaks_strings :
    let source := Bytes.ofString "a//\"\n`\n`/*\n*/\"\n"
    ∃ s tail, scan source = .ok s ∧
      (s.tokens.filter fun t => t.is .endOfLine) = [.lineBreakAt ⟨2, 0⟩, .lineBreakAt ⟨4, 0⟩] ∧
      StringTail source s.signals tail ∧
      4 = 2 + stringLineFeeds s.tokens + tail.count Byte.lineFeed ∧
      s.finish.location.line = 5 := by
  intro source
  have hfeeds : lineFeedsOutsideStrings source = [4, 10] := by decide
  obtain ⟨s, tail, hs, hbreaks, htail, hcount, hline⟩ :=
    @scan_lineBreaks source (admissible_of_length (by decide))
  rw [hfeeds] at hbreaks
  rw [hbreaks] at hcount
  exact ⟨s, tail, hs, hbreaks, htail, hcount, hline⟩

end StatementLexer
