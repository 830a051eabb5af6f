import StatementLexer.Proofs.Truncation

namespace StatementLexer

/-- An event as the log shows it: its message with the fields. -/
def Event.entry (e : Event) : String × List (String × String) :=
  (e.message, e.fields)

/-- The construct that a source ends in when its last byte leaves this region open. -/
def Region.construct? : Region → Option Construct
  | .string q => some q.construct
  | .blockComment => some .blockComment
  | .asterisk => some .blockComment
  | _ => none

/-- The bytes that open a construct. -/
def Construct.opening : Construct → Bytes
  | .string => [Byte.doubleQuote]
  | .rawString => [Byte.backquote]
  | .blockComment => [Byte.slash, Byte.asterisk]

/-- The places of a stream where a token that can end a statement stands before a line break. -/
def statementBreaks (ts : List Token) : List Nat :=
  (List.range ts.length).filter fun i =>
    ts[i]?.any (fun t => t.kind.endsStatement) && ts[i + 1]?.any (fun t => t.kind == .endOfLine)

theorem statementBreaks_cons (t : Token) (ts : List Token) :
    statementBreaks (t :: ts) =
      (if t.kind.endsStatement && ts.head?.any (fun u => u.kind == .endOfLine) then [0] else []) ++
        (statementBreaks ts).map Nat.succ := by
  rw [statementBreaks, List.length_cons, List.range_succ_eq_map, List.filter_cons,
    List.filter_map, List.head?_eq_getElem?]
  change (if t.kind.endsStatement && ts[0]?.any (fun u => u.kind == .endOfLine) then
    0 :: (statementBreaks ts).map Nat.succ else (statementBreaks ts).map Nat.succ) = _
  split <;> rfl

namespace Terminator.Progress

/-- The token emitted last can end a statement. -/
def canEnd (s : Progress) : Bool :=
  s.emitted.head?.any fun t => t.kind.endsStatement

theorem inserted_step (s : Progress) (t : Token) :
    (s.step t).inserted = s.inserted + (s.canEnd && t.kind == .endOfLine).toNat := by
  rw [canEnd]
  by_cases hline : t.kind = .endOfLine
  · rcases hs : s.emitted with _ | ⟨last, before⟩
    · simp [step, hs, hline]
    · cases hlast : last.kind.endsStatement <;> simp [step, hs, hline, hlast]
  · rcases hs : s.emitted with _ | ⟨last, before⟩
    · simp [step, hs, hline]
    · by_cases hboth : t.kind = .semicolon ∧ last.kind = .semicolon <;>
        simp [step, hs, hline, hboth]

theorem canEnd_step (s : Progress) (t : Token) : (s.step t).canEnd = t.kind.endsStatement := by
  have hbreak : Kind.endsStatement .endOfLine = false := rfl
  have hsemicolon : Kind.endsStatement .semicolon = false := rfl
  rw [canEnd]
  by_cases hline : t.kind = .endOfLine
  · rcases hs : s.emitted with _ | ⟨last, before⟩
    · simp [step, hs, hline, hbreak]
    · cases hlast : last.kind.endsStatement <;> simp [step, hs, hline, hlast, hbreak, hsemicolon]
  · rcases hs : s.emitted with _ | ⟨last, before⟩
    · simp [step, hs, hline]
    · by_cases hboth : t.kind = .semicolon ∧ last.kind = .semicolon <;>
        simp [step, hs, hline, hboth]

theorem inserted_foldl (ts : List Token) (s : Progress) :
    (ts.foldl step s).inserted =
      s.inserted + (s.canEnd && ts.head?.any fun t => t.kind == .endOfLine).toNat +
        (statementBreaks ts).length := by
  induction ts generalizing s with
  | nil => simp [statementBreaks]
  | cons t ts ih =>
      rw [List.foldl_cons, ih, inserted_step, canEnd_step, statementBreaks_cons,
        List.length_append, List.length_map]
      cases h : t.kind.endsStatement && ts.head?.any fun u => u.kind == .endOfLine <;>
        simp [Nat.add_assoc]

end Terminator.Progress

namespace Terminator

/-- The line breaks that became terminators are those right behind a token that can end a
statement. -/
theorem inserted_infer (ts : List Token) : (infer ts).inserted = (statementBreaks ts).length := by
  have hfold := Progress.inserted_foldl ts .start
  simpa [infer, Progress.start, Progress.canEnd] using hfold

theorem appended?_eq (ts : List Token) :
    appended? ts =
      (ts.getLast?.filter fun last => last.kind != .semicolon).map fun last =>
        .terminatorAppended last.stop := by
  rcases ts with _ | ⟨t, ts⟩
  · rfl
  · obtain ⟨last, hlast⟩ : ∃ last, (t :: ts).getLast? = some last :=
      ⟨_, List.getLast?_eq_some_getLast (List.cons_ne_nil t ts)⟩
    rw [appended?, missing?, hlast]
    by_cases hkind : last.kind = .semicolon
    · simp [hkind, Option.filter]
    · simp [hkind, Option.filter, Token.terminatorAt, Token.plain]

end Terminator

namespace Region

theorem Ready.run_eq {r : Region} {rest : Bytes} (h : r.Ready rest) (hne : rest ≠ []) :
    r.run rest = run .code rest := by
  rcases rest with _ | ⟨b, rest⟩
  · exact absurd rfl hne
  · rw [run_cons, run_cons, (h b rfl).2]
    rfl

end Region

namespace Lexeme

theorem construct?_run_bytes {l : Lexeme} (hl : l.WellFormed) :
    (Region.run .code l.bytes).construct? = l.construct? := by
  by_cases hdivide : l = .symbol .divide
  · subst hdivide
    decide
  · cases l with
    | lineComment text =>
        have hrun : Region.run .code (lineComment text).bytes = .lineComment :=
          Region.run_lineComment hl
        rw [hrun]
        rfl
    | openComment text =>
        have hholds : Region.HoldsComment .blockComment [] := .inl ⟨rfl, rfl⟩
        obtain ⟨mark, hmark⟩ := hholds.run hl
        have hrun : Region.run .code (openComment text).bytes = Region.run .blockComment text := rfl
        rw [hrun]
        rcases hmark with ⟨hregion, -⟩ | ⟨hregion, -⟩
        · rw [hregion]
          rfl
        · rw [hregion]
          rfl
    | openQuoted q text =>
        rw [bytes, Region.run_cons, Region.step, Region.enter_quote, Region.run_string hl]
        rfl
    | blockComment text => rw [run_code_blockComment hl]; rfl
    | quoted q text => rw [run_code_quoted hl]; rfl
    | lineBreak => rfl
    | blank b => rw [run_code_bytes hl rfl rfl hdivide]; rfl
    | number digits => rw [run_code_bytes hl rfl rfl hdivide]; rfl
    | symbol k => rw [run_code_bytes hl rfl rfl hdivide]; rfl
    | name text => rw [run_code_bytes hl rfl rfl hdivide]; rfl

theorem construct?_run {ls : List Lexeme} (h : Tiles ls []) :
    (Region.run .code (ls.flatMap bytes)).construct? = ls.getLast?.bind construct? := by
  induction ls with
  | nil => rfl
  | cons l ls ih =>
      obtain ⟨hl, hends, htiles⟩ := h
      rw [List.append_nil] at hends
      rw [List.flatMap_cons, Region.run_append]
      rcases ls with _ | ⟨m, ms⟩
      · exact construct?_run_bytes hl
      · have hne : (m :: ms).flatMap bytes ≠ [] := by
          rw [List.flatMap_cons]
          exact List.append_ne_nil_of_left_ne_nil (bytes_ne_nil htiles.1) _
        rw [(ready_run hl hends).run_eq hne, ih htiles, List.getLast?_cons_cons]

theorem lineBreaks_eq_map (line : Nat) (text : Bytes) :
    lineBreaks line text = ((lineBreaks line text).filterMap Signal.token?).map .token := by
  rw [lineBreaks, List.filterMap_map, List.map_filterMap]
  simp [Signal.token?]

theorem signals_eq (l : Lexeme) (p q : Position) :
    l.signals p q =
      ((l.signals p q).filterMap Signal.token?).map .token ++
        (l.construct?.map fun c => .truncated c p).toList := by
  cases l with
  | blockComment text =>
      exact (lineBreaks_eq_map p.line text).trans (List.append_nil _).symm
  | openComment text =>
      rw [signals, List.filterMap_append, List.map_append, ← lineBreaks_eq_map, List.append_assoc]
      rfl
  | _ => rfl

/-- A scan reports its tokens first, and last the construct that its last unit leaves open. -/
theorem report_eq {ls : List Lexeme} (h : Tiles ls []) (p : Position) :
    report p ls =
      (tokensFrom p ls).map .token ++
        ((ls.getLast?.bind construct?).map fun c =>
          .truncated c (p.past (ls.dropLast.flatMap bytes))).toList := by
  induction ls generalizing p with
  | nil => rfl
  | cons l ls ih =>
      have hsignals := signals_eq l p (p.past l.bytes)
      rcases ls with _ | ⟨m, ms⟩
      · rw [report, tokensFrom_cons, report, tokensFrom_nil, List.append_nil, List.append_nil]
        exact hsignals
      · have hclosed : l.construct? = none := by
          rcases hc : l.construct? with _ | c
          · rfl
          · exact absurd (eq_nil_of_isOpen h (isOpen_of_construct? hc)) (List.cons_ne_nil m ms)
        rw [hclosed, Option.map_none, Option.toList_none, List.append_nil] at hsignals
        rw [report, ih h.2.2, tokensFrom_cons p l, List.map_append, ← hsignals,
          List.getLast?_cons_cons, List.dropLast_cons_cons, List.flatMap_cons,
          Position.past_append, List.append_assoc]

theorem opening_of_construct? {l : Lexeme} {c : Construct} (h : l.construct? = some c) :
    c.opening <+: l.bytes := by
  cases l with
  | openComment text =>
      cases h
      exact List.prefix_append _ text
  | openQuoted q text =>
      cases h
      cases q <;> exact List.prefix_append _ text
  | _ => cases h

end Lexeme

open Lexeme Terminator

theorem construct?_run_source (source : Bytes) :
    (Region.run .code source).construct? = (split source).getLast?.bind Lexeme.construct? := by
  have hrun := construct?_run (tiles_split source)
  rwa [flatMap_bytes_split] at hrun

/-- The bytes before the last unit of a source. -/
def beforeLastUnit (source : Bytes) : Bytes :=
  (split source).dropLast.flatMap bytes

theorem beforeLastUnit_append {source : Bytes} {l : Lexeme} (h : (split source).getLast? = some l) :
    beforeLastUnit source ++ l.bytes = source := by
  rw [beforeLastUnit, ← List.flatMap_singleton bytes l, ← List.flatMap_append,
    List.dropLast_append_getLast? l h, flatMap_bytes_split]

theorem locate_beforeLastUnit (source : Bytes) :
    locate source (beforeLastUnit source).length = Position.start.past (beforeLastUnit source) := by
  obtain ⟨ms, hms⟩ := List.dropLast_prefix (split source)
  have hsource : beforeLastUnit source ++ ms.flatMap bytes = source := by
    rw [beforeLastUnit, ← List.flatMap_append, hms, flatMap_bytes_split]
  generalize beforeLastUnit source = before at hsource ⊢
  rw [← hsource, locate_length]

theorem opening_beforeLastUnit {source : Bytes} {c : Construct}
    (h : (Region.run .code source).construct? = some c) :
    c.opening <+: source.drop (beforeLastUnit source).length := by
  rw [construct?_run_source] at h
  obtain ⟨l, hlast, hl⟩ := Option.bind_eq_some_iff.mp h
  have hsource := beforeLastUnit_append hlast
  generalize beforeLastUnit source = before at hsource ⊢
  rw [← hsource, List.drop_left]
  exact opening_of_construct? hl

/-- The warning about the construct that a source ends in, if the settings ask for it. -/
def warnings (settings : Settings) (source : Bytes) : List Event :=
  if settings.warnUnterminated then
    ((Region.run .code source).construct?.map fun c =>
      .unterminated c (locate source (beforeLastUnit source).length)).toList
  else []

theorem filterMap_event?_report (settings : Settings) (source : Bytes) :
    (report .start (split source)).filterMap (Signal.event? settings) =
      (tokensFrom .start (split source)).map .emitted ++ warnings settings source := by
  have htokens : Signal.event? settings ∘ Signal.token = fun t => some (.emitted t) := rfl
  rw [report_eq (tiles_split source), List.filterMap_append, List.filterMap_map, htokens,
    List.filterMap_eq_map', ← construct?_run_source, warnings, locate_beforeLastUnit]
  congr 1
  rcases (Region.run .code source).construct? with _ | c
  · cases settings.warnUnterminated <;> rfl
  · cases hwarn : settings.warnUnterminated <;> simp [Signal.event?, hwarn, beforeLastUnit]

theorem exists_scan_events {source : Bytes} (h : Admissible source) (settings : Settings) :
    ∃ s, scan source = .ok s ∧ rawTokens source = .ok s.tokens ∧
      s.events settings source =
        .scanStarted source.length :: (s.tokens.map .emitted ++ warnings settings source) ++
          [.scanFinished s.tokens.length (1 + source.count Byte.lineFeed)] := by
  refine ⟨_, scan_of_admissible h, rawTokens_of_admissible h, ?_⟩
  have hline : (Position.start.past source).line = 1 + source.count Byte.lineFeed :=
    Position.past_line .start source
  rw [Scan.events, filterMap_event?_report, hline]
  rfl

theorem tokenizeLogged_of_read {settings : Settings} {chunks : List Chunk} {source : Bytes}
    (hread : Source.read settings.maxSourceBytes chunks = .ok source) (h : Admissible source) :
    ∃ raw, rawTokens source = .ok raw ∧
      tokenizeLogged settings chunks = .ok
        ⟨.ok (if settings.insertTerminators then terminate raw else raw),
          .sourceRead source.length :: .scanStarted source.length ::
            (raw.map .emitted ++ warnings settings source) ++
            [.scanFinished raw.length (1 + source.count Byte.lineFeed)] ++
            if settings.insertTerminators then (terminateLogged raw).events else []⟩ := by
  obtain ⟨s, hscan, hraw, hevents⟩ := exists_scan_events h settings
  refine ⟨s.tokens, hraw, ?_⟩
  rw [tokenizeLogged, hread]
  change Except.map _ (tokenizeWith settings source) = _
  rw [tokenizeWith, hscan]
  change Except.map _ (if settings.insertTerminators then _ else _) = _
  rw [hevents]
  cases settings.insertTerminators with
  | false => simp [Except.map]
  | true => rfl

theorem entries_warnings (settings : Settings) (source : Bytes) :
    (warnings settings source).map Event.entry =
      if settings.warnUnterminated then
        ((Region.run .code source).construct?.map fun c =>
          ("unterminated at end of input", [("construct", c.name),
            ("at", (locate source (beforeLastUnit source).length).display)])).toList
      else [] := by
  rw [warnings]
  split
  · cases (Region.run .code source).construct? <;> rfl
  · rfl

theorem entries_terminateLogged (raw : List Token) :
    (terminateLogged raw).events.map Event.entry =
      [("boundaries inferred", [("raw", toString raw.length),
        ("out", toString (inferBoundaries raw).length),
        ("inserted", toString (statementBreaks raw).length)])] ++
      (((inferBoundaries raw).getLast?.filter fun last => last.kind != .semicolon).map
        fun last => ("trailing terminator appended", [("at", last.stop.display)])).toList ++
      [("tokenized", [("tokens", toString (terminate raw).length)])] := by
  rw [terminateLogged, inserted_infer, appended?_eq]
  change (_ :: Option.toList (Option.map _ ((inferBoundaries raw).getLast?.filter _)) ++ _).map _ =
    _
  cases (inferBoundaries raw).getLast?.filter fun last => last.kind != .semicolon <;> rfl

/-- The log of a run tells, in this order, how much was read, every token of the raw stream, the
construct that the source ends in, what the scan came to and, where terminators are inferred, what
became of the line breaks. A run that cannot read its source logs nothing. -/
theorem tokenizeLogged_account (settings : Settings) (chunks : List Chunk) :
    (∀ source, Source.read settings.maxSourceBytes chunks = .ok source → Admissible source →
      ∃ raw tokens events i, rawTokens source = .ok raw ∧
        tokens = (if settings.insertTerminators then terminate raw else raw) ∧
        tokenizeLogged settings chunks = .ok ⟨.ok tokens, events⟩ ∧
        i = (beforeLastUnit source).length ∧
        (∀ c, (Region.run .code source).construct? = some c → c.opening <+: source.drop i) ∧
        events.map Event.entry =
          [("read source", [("bytes", toString source.length)]),
            ("scan started", [("bytes", toString source.length)])] ++
          raw.map (fun t => ("emit", [("token", t.display)])) ++
          (if settings.warnUnterminated then
            ((Region.run .code source).construct?.map fun c =>
              ("unterminated at end of input",
                [("construct", c.name), ("at", (locate source i).display)])).toList
          else []) ++
          [("scan finished", [("tokens", toString raw.length),
            ("lines", toString (1 + source.count Byte.lineFeed))])] ++
          if settings.insertTerminators then
            [("boundaries inferred", [("raw", toString raw.length),
              ("out", toString (inferBoundaries raw).length),
              ("inserted", toString (statementBreaks raw).length)])] ++
            (((inferBoundaries raw).getLast?.filter fun last => last.kind != .semicolon).map
              fun last => ("trailing terminator appended", [("at", last.stop.display)])).toList ++
            [("tokenized", [("tokens", toString tokens.length)])]
          else []) ∧
      ∀ e, Source.read settings.maxSourceBytes chunks = .error e →
        tokenizeLogged settings chunks = .ok ⟨.error e, []⟩ := by
  constructor
  · intro source hread hadmissible
    obtain ⟨raw, hraw, hlogged⟩ := tokenizeLogged_of_read hread hadmissible
    refine ⟨raw, _, _, (beforeLastUnit source).length, hraw, rfl, hlogged, rfl,
      fun _ => opening_beforeLastUnit, ?_⟩
    rw [← entries_warnings]
    cases settings.insertTerminators with
    | false => simp [Event.entry, Event.message, Event.fields]
    | true =>
        simp only [if_true]
        rw [← entries_terminateLogged]
        simp [Event.entry, Event.message, Event.fields]
  · intro e hread
    rw [tokenizeLogged, hread]

theorem tokenizeLogged_account_replaced :
    let chunks : List Chunk :=
      [.bytes (Bytes.ofString "x\n\n"), .failure ⟨.interrupted, "again"⟩,
        .bytes (Bytes.ofString ";y`")]
    let raw : List Token :=
      [.withLiteral .identifier (Bytes.ofString "x") ⟨1, 0⟩ ⟨1, 1⟩, .lineBreakAt ⟨2, 0⟩,
        .lineBreakAt ⟨3, 0⟩, .plain .semicolon ⟨3, 0⟩ ⟨3, 1⟩,
        .withLiteral .identifier (Bytes.ofString "y") ⟨3, 1⟩ ⟨3, 2⟩]
    (∃ tokens events, tokens = terminate raw ∧
      tokenizeLogged {} chunks = .ok ⟨.ok tokens, events⟩ ∧
      events.map Event.entry =
        [("read source", [("bytes", toString 6)]), ("scan started", [("bytes", toString 6)])] ++
        raw.map (fun t => ("emit", [("token", t.display)])) ++
        [("unterminated at end of input",
            [("construct", "raw string literal"), ("at", Position.display ⟨3, 2⟩)]),
          ("scan finished", [("tokens", toString 5), ("lines", toString 3)]),
          ("boundaries inferred",
            [("raw", toString 5), ("out", toString 3), ("inserted", toString 1)]),
          ("trailing terminator appended", [("at", Position.display ⟨3, 2⟩)]),
          ("tokenized", [("tokens", toString tokens.length)])]) ∧
      tokenizeLogged ⟨true, true, some 3⟩ chunks = .ok ⟨.error (.tooLarge 3), []⟩ := by
  intro chunks raw
  constructor
  · let source := Bytes.ofString "x\n\n;y`"
    have hsource : Admissible source := admissible_of_length (by decide)
    have hsplit : split source =
        [.name (Bytes.ofString "x"), .lineBreak, .lineBreak, .symbol .semicolon,
          .name (Bytes.ofString "y"), .openQuoted .back []] :=
      split_eq_iff.mpr (by decide)
    have hread : Source.read none chunks = .ok source := rfl
    obtain ⟨raw', tokens, events, i, hraw, htokens, hlogged, hi, -, hevents⟩ :=
      (tokenizeLogged_account {} chunks).1 source hread hsource
    obtain rfl : raw' = raw := by
      rw [rawTokens_of_admissible hsource, hsplit] at hraw
      cases hraw
      decide
    have hregion : (Region.run .code source).construct? = some .rawString := by decide
    have hlast : ((inferBoundaries raw).getLast?.filter fun last => last.kind != .semicolon) =
        some (.withLiteral .identifier (Bytes.ofString "y") ⟨3, 1⟩ ⟨3, 2⟩) := by decide
    have hopened : locate source i = ⟨3, 2⟩ := by
      rw [hi, beforeLastUnit, hsplit]
      decide
    rw [hregion, hlast, hopened] at hevents
    exact ⟨tokens, events, htokens, hlogged, hevents⟩
  · exact (tokenizeLogged_account ⟨true, true, some 3⟩ chunks).2 _ rfl

end StatementLexer
