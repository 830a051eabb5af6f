import StatementLexer.Proofs.CursorCalls
import StatementLexer.Proofs.ScanLoop

namespace StatementLexer

namespace Loop

variable {σ α : Type}

theorem within_congr {L M : Loop σ α} {I : σ → Prop} (hstop : ∀ s, I s → L.stop? s = M.stop? s)
    (hbody : ∀ s, I s → L.body s = M.body s)
    (hkeeps : ∀ s t, I s → M.body s = .ok (some (.again t)) → I t) {s : σ} (hs : I s) (n : Nat) :
    L.within n s = M.within n s := by
  induction n generalizing s with
  | zero => rw [within, within, hstop s hs]
  | succ n ih =>
      rw [within, within, hstop s hs, hbody s hs]
      rcases M.stop? s with _ | r
      · rcases hturn : M.body s with f | _ | t | r
        · rfl
        · rfl
        · exact ih (hkeeps s t hs hturn)
        · rfl
      · rfl

end Loop

namespace Cursor

theorem source_of_advanceBy {c d : Cursor} {n : Nat} (h : c.advanceBy n = .ok d) :
    d.source = c.source := by
  rw [advanceBy_eq_walk] at h
  rcases hwalk : c.location.walk (c.rest.take n) with f | q
  · rw [hwalk] at h
    cases h
  · rw [hwalk] at h
    cases h
    rw [source, source, List.reverse_append, List.reverse_reverse, List.append_assoc,
      List.take_append_drop]

theorem peek_one {c : Cursor} {b : UInt8} {rest : Bytes} (hrest : c.rest = b :: rest)
    (h : c.source.length < Bytes.capacity) : c.peek 1 = .ok rest.head? := by
  have hbound : Bytes.capacity < offsetBound := by decide
  have hoffset : c.offset < c.source.length := by
    rw [source, hrest, offset, List.length_append, List.length_reverse, List.length_cons]
    omega
  rw [peek, if_pos (by omega), hrest]
  simp [List.head?_eq_getElem?]

theorem accepted_eq_takeWhile (accepts : UInt8 → Bool) (text : Bytes) :
    accepted (fun (_ : Unit) b => (accepts b, ())) () text =
      ((text.takeWhile accepts).length, ()) := by
  induction text with
  | nil => rfl
  | cons b text ih =>
      rw [accepted, List.takeWhile_cons]
      cases accepts b with
      | false => rfl
      | true =>
          dsimp only
          rw [ih]
          rfl

end Cursor

namespace Scan

open Lexeme

theorem source_of_pass {s t : Scan} {n : Nat} {report : Position → List Signal}
    (h : s.pass n report = .ok t) : t.finish.source = s.finish.source := by
  rw [pass] at h
  rcases hadvance : s.finish.advanceBy n with f | c
  · rw [hadvance] at h
    cases h
  · rw [hadvance] at h
    cases h
    exact Cursor.source_of_advanceBy hadvance

/-- Moves over the bytes that are accepted, and cuts them out of the source. -/
def eat (s : Scan) (accepts : UInt8 → Bool) : Except Fault (Bytes × Scan) :=
  s.finish.eatWhile (fun (_ : Unit) b => (accepts b, ())) () >>= fun r =>
    r.2.2.sliceFrom s.finish.offset >>= fun text => .ok (text, ⟨s.signals, r.2.2⟩)

theorem eat_eq (s : Scan) (accepts : UInt8 → Bool) :
    s.eat accepts = (s.pass (s.finish.rest.takeWhile accepts).length fun _ => []).map fun t =>
      (s.finish.rest.takeWhile accepts, t) := by
  obtain ⟨signals, passed, rest, p⟩ := s
  obtain ⟨run, behind, rfl, hrun⟩ : ∃ run behind, rest = run ++ behind ∧
      rest.takeWhile accepts = run :=
    ⟨_, _, List.takeWhile_append_dropWhile.symm, rfl⟩
  rw [eat, pass, Cursor.eatWhile, Cursor.accepted_eq_takeWhile, hrun]
  dsimp only
  rw [Cursor.advanceBy_append]
  rcases p.walk run with f | q
  · rfl
  · simp [bind, Except.bind, Cursor.sliceFrom, Cursor.offset, Except.map]

theorem pass_bind {s : Scan} {w rest : Bytes} (hrest : s.finish.rest = w ++ rest) {n : Nat}
    {report : Position → List Signal} {next : Scan → Except Fault Scan}
    (hnext : ∀ t, t.finish.rest = rest → t.finish.location = s.finish.location.past w →
      next t = t.pass n report) :
    ((s.pass w.length fun _ => []) >>= next) = s.pass (w.length + n) report := by
  rcases hpass : s.pass w.length fun _ => [] with f | t
  · rw [pass_of_error hpass]
    rfl
  · have ht := eq_of_pass hrest hpass
    change next t = _
    rw [hnext t (by rw [ht]) (by rw [ht]), pass_of_ok hpass]
    rfl

theorem eat_bind {s : Scan} {accepts : UInt8 → Bool} {run rest : Bytes}
    (hrun : s.finish.rest.takeWhile accepts = run) (hrest : s.finish.rest.dropWhile accepts = rest)
    {n : Nat} {report : Position → List Signal} {next : Bytes × Scan → Except Fault Scan}
    (hnext : ∀ t, t.finish.rest = rest → t.finish.location = s.finish.location.past run →
      next (run, t) = t.pass n report) :
    (s.eat accepts >>= next) = s.pass (run.length + n) report := by
  have hsplit : s.finish.rest = run ++ rest := by
    rw [← hrun, ← hrest, List.takeWhile_append_dropWhile]
  rw [eat_eq, hrun, ← pass_bind hsplit hnext]
  cases s.pass run.length fun _ => [] <;> rfl

namespace Calls

/-- Moves over a line comment up to its line feed. -/
def lineComment (s : Scan) : Except Fault Scan :=
  (s.pass 2 fun _ => []) >>= fun t =>
    (t.eat (· != Byte.lineFeed)).map fun r => r.2

/-- The loop over the bytes of a block comment, which looks behind every asterisk. -/
def blockComment (opened : Position) : Loop Scan Scan where
  stop? _ := none
  body s :=
    match s.finish.current with
    | none => (s.pass 0 fun _ => [.truncated .blockComment opened]).map fun t => some (.leave t)
    | some b =>
        (if b = Byte.asterisk then s.finish.peek 1 else .ok none) >>= fun next =>
          if next = some Byte.slash then (s.pass 2 fun _ => []).map fun t => some (.leave t)
          else
            (s.pass 1 fun p => if b = Byte.lineFeed then [.token (.lineBreakAt p)] else []).map
              fun t => some (.again t)

def slash (n : Nat) (s : Scan) : Except Fault (Option Scan) :=
  s.finish.peek 1 >>= fun next =>
    if next = some Byte.slash then (lineComment s).map some
    else if next = some Byte.asterisk then
      (s.pass 2 fun _ => []) >>= (blockComment s.finish.location).within n
    else (s.pass 1 fun p => [.token (.plain .divide s.finish.location p)]).map some

def string (q : Quote) (s : Scan) : Except Fault Scan :=
  (s.pass 1 fun _ => []) >>= fun t =>
    t.eat (· != q.byte) >>= fun r =>
      match r.2.finish.current with
      | none => r.2.pass 0 fun _ => [.truncated q.construct s.finish.location]
      | some _ => r.2.pass 1 fun p => [.token (.withLiteral .stringLit r.1 t.finish.location p)]

def number (s : Scan) : Except Fault Scan :=
  s.eat Byte.isDigit >>= fun r =>
    r.2.pass 0 fun p => [.token (.withLiteral .intLit r.1 s.finish.location p)]

/-- The operator at the cursor, with the number of its bytes. -/
def operator? (c : Cursor) (b : UInt8) : Except Fault (Option (Kind × Nat)) :=
  let single := Vocabulary.operators.lookup [b]
  if single.viable then
    (if single.hasLonger then c.peek 1 else .ok none) >>= fun next =>
      .ok ((next.bind fun b' =>
          if (Vocabulary.operators.lookup [b, b']).isWord then
            (Vocabulary.operators.kindOf? [b, b']).map fun k => (k, 2)
          else none) <|>
        (Vocabulary.operators.kindOf? [b]).map fun k => (k, 1))
  else .ok none

def nameBytes (start : Position) (seed : Bytes) (s : Scan) : Except Fault Scan :=
  s.eat Byte.isIdentContinue >>= fun r =>
    r.2.pass 0 fun p => [.token (.withLiteral .identifier (seed ++ r.1) start p)]

/-- Completes a name that starts at `start`. Without a beginning the byte under the cursor belongs
to it, whatever it is. -/
def name (start : Position) (seed : Bytes) (s : Scan) : Except Fault Scan :=
  match seed, s.finish.current with
  | [], some b => (s.pass 1 fun _ => []) >>= nameBytes start [b]
  | _, _ => nameBytes start seed s

def word (n : Nat) (s : Scan) (b : UInt8) : Except Fault (Option Scan) :=
  operator? s.finish b >>= fun found =>
    match found with
    | some (k, m) => (s.pass m fun p => [.token (.plain k s.finish.location p)]).map some
    | none =>
        keywordLoop.within n ([], s) >>= fun r =>
          match r with
          | none => .ok none
          | some (.keyword k, t) =>
              (t.pass 0 fun p => [.token (.plain k s.finish.location p)]).map some
          | some (.seed seed, t) => (name s.finish.location seed t).map some

def unit (n : Nat) (s : Scan) : Except Fault (Option Scan) :=
  match s.finish.current with
  | none => .ok (some s)
  | some b =>
      if b = Byte.lineFeed then (s.pass 1 fun p => [.token (.lineBreakAt p)]).map some
      else if Byte.isWhitespace b then (s.pass 1 fun _ => []).map some
      else if b = Byte.slash then slash n s
      else if b = Byte.doubleQuote then (string .double s).map some
      else if b = Byte.backquote then (string .back s).map some
      else if b = Byte.semicolon then
        (s.pass 1 fun p => [.token (.plain .semicolon s.finish.location p)]).map some
      else if Byte.isDigit b then (number s).map some
      else word n s b

/-- The scanner by its calls on the cursor: it looks at the byte under the cursor and at most one
byte ahead, moves, and cuts out what it has moved over. Each call may fail. -/
def loop (n : Nat) : Loop Scan Scan where
  stop? s := if s.finish.isAtEnd then some s else none
  body s := (unit n s).map fun r => r.map .again

theorem lineComment_eq {s : Scan} {rest : Bytes}
    (h : s.finish.rest = Byte.slash :: Byte.slash :: rest) :
    lineComment s = s.step (.lineComment (rest.takeWhile (· != Byte.lineFeed))) := by
  have hmove : lineComment s =
      s.pass (2 + (rest.takeWhile (· != Byte.lineFeed)).length) fun _ => [] := by
    refine pass_bind (w := [Byte.slash, Byte.slash]) h ?_
    intro t ht _
    rw [eat_eq, ht]
    cases t.pass (rest.takeWhile (· != Byte.lineFeed)).length fun _ => [] <;> rfl
  rw [hmove, Nat.add_comm, step_eq_pass]
  rfl

theorem string_eq {q : Quote} {s : Scan} {rest : Bytes} (h : s.finish.rest = q.byte :: rest) :
    string q s = s.step (Lexeme.string q rest).1 := by
  rcases hdrop : rest.dropWhile (· != q.byte) with _ | ⟨c, rest'⟩
  · have htake : rest.takeWhile (· != q.byte) = rest := by
      have happend := @List.takeWhile_append_dropWhile _ (· != q.byte) rest
      rwa [hdrop, List.append_nil] at happend
    have hmove : string q s = s.pass (1 + (rest.length + 0)) fun _ =>
        [.truncated q.construct s.finish.location] := by
      refine pass_bind (w := [q.byte]) h ?_
      intro t ht _
      refine eat_bind (ht ▸ htake) (ht ▸ hdrop) ?_
      intro u hu _
      rw [Cursor.current, hu]
      rfl
    rw [hmove, Lexeme.string, hdrop, step_eq_pass, Nat.add_comm]
    rfl
  · have hmove : string q s = s.pass (1 + ((rest.takeWhile (· != q.byte)).length + 1)) fun p =>
        [.token (.withLiteral .stringLit (rest.takeWhile (· != q.byte))
          ⟨s.finish.location.line, s.finish.location.column + 1⟩ p)] := by
      refine pass_bind (w := [q.byte]) h ?_
      intro t ht hlocation
      refine eat_bind (by rw [ht]) (ht ▸ hdrop) ?_
      intro u hu _
      rw [Cursor.current, hu, hlocation, Position.past_cons, Position.past_nil,
        Position.next_of_ne (Quote.byte_ne_lineFeed q)]
      rfl
    rw [hmove, Lexeme.string, hdrop, step_eq_pass, Nat.add_comm 1]
    simp [bytes, Lexeme.signals]

theorem number_eq {s : Scan} {b : UInt8} {rest : Bytes} (h : s.finish.rest = b :: rest)
    (hb : Byte.isDigit b = true) :
    number s = s.step (.number (b :: rest.takeWhile Byte.isDigit)) := by
  have hrun : s.finish.rest.takeWhile Byte.isDigit = b :: rest.takeWhile Byte.isDigit := by
    rw [h, List.takeWhile_cons, if_pos hb]
  have hmove : number s = s.pass ((b :: rest.takeWhile Byte.isDigit).length + 0) fun p =>
      [.token (.withLiteral .intLit (b :: rest.takeWhile Byte.isDigit) s.finish.location p)] :=
    eat_bind hrun rfl fun t _ _ => rfl
  rw [hmove, step_eq_pass]
  rfl

theorem nameBytes_eq (start : Position) (seed : Bytes) (s : Scan) :
    nameBytes start seed s =
      s.pass (s.finish.rest.takeWhile Byte.isIdentContinue).length fun p =>
        [.token (.withLiteral .identifier
          (seed ++ s.finish.rest.takeWhile Byte.isIdentContinue) start p)] := by
  rw [nameBytes, ← Nat.add_zero (List.length _)]
  exact eat_bind rfl rfl fun t _ _ => rfl

theorem length_sub_dropWhile (accepts : UInt8 → Bool) (text : Bytes) :
    text.length - (text.dropWhile accepts).length = (text.takeWhile accepts).length := by
  have happend := congrArg List.length (@List.takeWhile_append_dropWhile _ accepts text)
  rw [List.length_append] at happend
  omega

theorem name_eq (start : Position) (seed : Bytes) (s : Scan) :
    name start seed s =
      s.pass (s.finish.rest.length - (extend seed s.finish.rest).2.length) fun p =>
        [.token (.withLiteral .identifier (extend seed s.finish.rest).1 start p)] := by
  rcases seed with _ | ⟨a, seed⟩
  · rcases hrest : s.finish.rest with _ | ⟨b, rest⟩
    · simp only [name, Cursor.current, hrest, List.head?_nil]
      rw [nameBytes_eq, hrest]
      rfl
    · have hmove : name start [] s = s.pass (1 + (rest.takeWhile Byte.isIdentContinue).length)
          fun p => [.token (.withLiteral .identifier
            (b :: rest.takeWhile Byte.isIdentContinue) start p)] := by
        simp only [name, Cursor.current, hrest, List.head?_cons]
        refine pass_bind (w := [b]) hrest ?_
        intro t ht _
        rw [nameBytes_eq, ht]
        rfl
      have hlength : (b :: rest).length - (rest.dropWhile Byte.isIdentContinue).length =
          1 + (rest.takeWhile Byte.isIdentContinue).length := by
        have hle := (List.dropWhile_suffix (l := rest) Byte.isIdentContinue).length_le
        rw [← length_sub_dropWhile, List.length_cons]
        omega
      rw [hmove, extend, hlength]
  · have hextend : extend (a :: seed) s.finish.rest =
        (a :: seed ++ s.finish.rest.takeWhile Byte.isIdentContinue,
          s.finish.rest.dropWhile Byte.isIdentContinue) := rfl
    rw [hextend, length_sub_dropWhile]
    exact nameBytes_eq start (a :: seed) s

theorem length_symbol_of_kindOf? {w : Bytes} {k : Kind}
    (h : Vocabulary.operators.kindOf? w = some k) : (symbol k).bytes.length = w.length :=
  congrArg List.length (bytes_symbol_of_kindOf? h)

theorem map_kindOf? (b : UInt8) (rest : Bytes) :
    ((Vocabulary.operators.kindOf? [b]).map fun k => (k, rest)).map
        (fun r => (r.1, (symbol r.1).bytes.length)) =
      (Vocabulary.operators.kindOf? [b]).map fun k => (k, 1) := by
  rcases hk : Vocabulary.operators.kindOf? [b] with _ | k
  · rfl
  · simp [length_symbol_of_kindOf? hk]

theorem map_operatorPair? (b : UInt8) (rest : Bytes) :
    (operatorPair? b rest).map (fun r => (r.1, (symbol r.1).bytes.length)) =
      rest.head?.bind fun b' =>
        if (Vocabulary.operators.lookup [b, b']).isWord then
          (Vocabulary.operators.kindOf? [b, b']).map fun k => (k, 2)
        else none := by
  rcases rest with _ | ⟨b', rest⟩
  · rfl
  · rw [operatorPair?, List.head?_cons, Option.bind_some]
    split
    · rcases hk : Vocabulary.operators.kindOf? [b, b'] with _ | k
      · rfl
      · simp [length_symbol_of_kindOf? hk]
    · rfl

theorem operator?_eq {c : Cursor} {b : UInt8} {rest : Bytes} (hrest : c.rest = b :: rest)
    (h : c.source.length < Bytes.capacity) :
    operator? c b =
      .ok ((Lexeme.operator? b rest).map fun r => (r.1, (symbol r.1).bytes.length)) := by
  rw [operator?, Lexeme.operator?, Cursor.peek_one hrest h]
  cases (Vocabulary.operators.lookup [b]).viable with
  | false => rfl
  | true =>
      cases (Vocabulary.operators.lookup [b]).hasLonger with
      | false => exact congrArg Except.ok (map_kindOf? b rest).symm
      | true =>
          simp only [if_true, Option.orElse_eq_orElse, Option.orElse_eq_or, Option.map_or,
            map_operatorPair?, map_kindOf?]
          rfl

theorem word_eq {s : Scan} {b : UInt8} {rest : Bytes} (hrest : s.finish.rest = b :: rest)
    (h : s.finish.source.length < Bytes.capacity) (n : Nat) :
    word n s b = s.readWord n b rest := by
  rw [word, operator?_eq hrest h, readWord]
  rcases Lexeme.operator? b rest with _ | ⟨k, rest'⟩
  · change (keywordLoop.within n ([], s) >>= _) = (keywordLoop.within n ([], s) >>= _)
    congr 1
    funext r
    rcases r with _ | ⟨k | seed, t⟩
    · rfl
    · rfl
    · dsimp only
      rw [name_eq]
  · change Except.map _ _ = Except.map _ _
    rw [step_eq_pass]
    rfl

theorem exists_pass_of_again {opened : Position} {s t : Scan}
    (h : (commentLoop opened).body s = .ok (some (.again t))) :
    ∃ report, s.pass 1 report = .ok t := by
  rcases hrest : s.finish.rest with _ | ⟨b, rest⟩
  · simp only [commentLoop, hrest] at h
    cases hpass : s.pass 0 _ <;> rw [hpass] at h <;> cases h
  · simp only [commentLoop, hrest] at h
    split at h
    · cases hpass : s.pass 2 _ <;> rw [hpass] at h <;> cases h
    · rcases hpass : s.pass 1 _ with f | u
      · rw [hpass] at h
        cases h
      · rw [hpass] at h
        cases h
        exact ⟨_, hpass⟩

theorem blockComment_within {s : Scan} (h : s.finish.source.length < Bytes.capacity)
    (opened : Position) (n : Nat) :
    (blockComment opened).within n s = (commentLoop opened).within n s := by
  refine Loop.within_congr (I := fun t : Scan => t.finish.source.length < Bytes.capacity)
    ?_ ?_ ?_ h n
  · exact fun _ _ => rfl
  · intro t ht
    rcases hrest : t.finish.rest with _ | ⟨b, rest⟩
    · simp only [blockComment, commentLoop, Cursor.current, hrest, List.head?_nil]
    · simp only [blockComment, commentLoop, Cursor.current, hrest, List.head?_cons]
      by_cases hb : b = Byte.asterisk
      · rw [if_pos hb, Cursor.peek_one hrest ht]
        simp only [hb, true_and]
        rfl
      · rw [if_neg hb, if_neg fun hclose => hb hclose.1]
        rfl
  · intro t u ht hturn
    obtain ⟨report, hpass⟩ := exists_pass_of_again hturn
    rwa [source_of_pass hpass]

theorem slash_eq {s : Scan} {rest : Bytes} (hrest : s.finish.rest = Byte.slash :: rest)
    (h : s.finish.source.length < Bytes.capacity) {n : Nat} (hn : rest.length ≤ n) :
    slash n s = (s.step (Lexeme.slash rest).1).map some := by
  have hasterisk : Byte.asterisk ≠ Byte.slash := by decide
  rw [slash, Cursor.peek_one hrest h]
  change (if rest.head? = some Byte.slash then _ else _) = _
  rcases rest with _ | ⟨c, rest⟩
  · rw [step_eq_pass]
    rfl
  simp only [List.head?_cons, Option.some.injEq]
  by_cases hslash : c = Byte.slash
  · subst hslash
    rw [if_pos rfl, lineComment_eq hrest, Lexeme.slash, if_pos rfl]
  by_cases hc : c = Byte.asterisk
  · subst hc
    rw [if_neg hasterisk, if_pos rfl, ← within_commentLoop hrest hn]
    rcases hpass : s.pass 2 fun _ => [] with f | t
    · rfl
    · exact blockComment_within (source_of_pass hpass ▸ h) _ n
  · rw [if_neg hslash, if_neg hc, Lexeme.slash, if_neg hslash, if_neg hc, step_eq_pass]
    rfl

theorem unit_eq {s : Scan} {b : UInt8} {rest : Bytes} (hrest : s.finish.rest = b :: rest)
    (h : s.finish.source.length < Bytes.capacity) {n : Nat} (hn : s.finish.rest.length ≤ n) :
    unit n s = (s.step (first b rest).1).map some := by
  simp only [unit, Cursor.current, hrest, List.head?_cons]
  unfold first
  split
  · rw [step_eq_pass]
    rfl
  split
  · rw [step_eq_pass]
    rfl
  split
  · next hb =>
      subst hb
      rw [hrest, List.length_cons] at hn
      exact slash_eq hrest h (Nat.le_of_succ_le hn)
  split
  · next hb => rw [string_eq (q := .double) (hb ▸ hrest)]
  split
  · next hb => rw [string_eq (q := .back) (hb ▸ hrest)]
  split
  · rw [step_eq_pass]
    rfl
  split
  · next hb => rw [number_eq hrest hb]
  · rw [word_eq hrest h, readWord_eq hrest hn]

end Calls

end Scan

/-- The scanner by its calls is the scan. No lookahead and no slice of its own ever fails. -/
theorem within_callLoop {source : Bytes} (h : source.length < Bytes.capacity) {n : Nat}
    (hn : source.length ≤ n) :
    (Scan.Calls.loop n).within n ⟨[], .start source⟩ = (scan source).map some := by
  rw [← within_unitLoop source hn]
  have hlength {s : Scan} (hs : s.finish.source = source) : s.finish.rest.length ≤ n := by
    rw [← hs, Cursor.source, List.length_append] at hn
    omega
  refine Loop.within_congr (I := fun s : Scan => s.finish.source = source) ?_ ?_ ?_ rfl n
  · exact fun _ _ => rfl
  · intro s hs
    rcases hrest : s.finish.rest with _ | ⟨b, rest⟩
    · simp only [Scan.Calls.loop, Scan.unitLoop, Scan.Calls.unit, Scan.unit, Cursor.current, hrest,
        List.head?_nil]
    · change (Scan.Calls.unit n s).map _ = (s.unit n).map _
      rw [Scan.Calls.unit_eq hrest (hs ▸ h) (hlength hs), Scan.unit_eq hrest (hlength hs)]
  · intro s t hs hturn
    rcases hrest : s.finish.rest with _ | ⟨b, rest⟩
    · simp only [Scan.unitLoop, Scan.unit, hrest] at hturn
      cases hturn
      exact hs
    · change (s.unit n).map _ = _ at hturn
      rw [Scan.unit_eq hrest (hlength hs)] at hturn
      rcases hstep : s.step (Lexeme.first b rest).1 with f | u
      · rw [hstep] at hturn
        cases hturn
      · rw [hstep] at hturn
        cases hturn
        exact (Scan.advances_step hrest hstep).source_eq.trans hs

theorem fault_of_scan {source : Bytes} {f : Fault} (h : scan source = .error f) :
    f = .line ∨ f = .column := by
  rw [scan_eq_walk] at h
  rcases hwalk : Position.start.walk source with g | q
  · rw [hwalk] at h
    cases h
    exact Position.fault_of_walk hwalk
  · rw [hwalk] at h
    cases h

/-- A source cannot be tokenized exactly when a line or a column number leaves its range, whatever
the settings. Every other source has its tokens, and no cursor in it fails to look ahead or to cut
out a slice. The calls of the scanner come to the scan, and of these nothing but a move fails. What
the passes over tokens count is at most the length of the stream. -/
theorem tokenize_eq_error_iff {source : Bytes} (h : source.length < Bytes.capacity) :
    ((∃ f, rawTokens source = .error f) ↔ OutOfRange source) ∧
      ((∃ f, tokenize source = .error f) ↔ OutOfRange source) ∧
      (∀ settings, (∃ f, tokenizeWith settings source = .error f) ↔ OutOfRange source) ∧
      (¬ OutOfRange source →
        (∃ raw, rawTokens source = .ok raw ∧ tokenize source = .ok (Terminator.terminate raw) ∧
          ∀ settings, (tokenizeWith settings source).map Tokenized.tokens =
            .ok (if settings.insertTerminators then Terminator.terminate raw else raw)) ∧
        ∀ k ≤ source.length, ∃ c, (Cursor.start source).advanceBy k = .ok c ∧ c.offset = k ∧
          (∀ n < Bytes.capacity, c.peek n = .ok source[k + n]?) ∧
          ∀ i ≤ k, c.sliceFrom i = .ok (slice source i k)) ∧
      (∀ n, source.length ≤ n →
        (Scan.Calls.loop n).within n ⟨[], .start source⟩ = (scan source).map some) ∧
      (∀ f, scan source = .error f → f = .line ∨ f = .column) ∧
      ∀ ts, (Terminator.infer ts).inserted ≤ ts.length ∧
        (Terminator.inferBoundaries ts).length ≤ ts.length ∧
        (Terminator.terminateFinal ts).length ≤ ts.length + 1 := by
  have hraw : (∃ f, rawTokens source = .error f) ↔ OutOfRange source := by
    rw [rawTokens, exists_map_eq_error_iff, scan_eq_error_iff]
  refine ⟨hraw, ?_, ?_, ?_, fun n => within_callLoop h, ?_, Terminator.infer_le⟩
  · rw [tokenize_eq_map_terminate, exists_map_eq_error_iff, hraw]
  · intro settings
    rw [← exists_map_eq_error_iff _ Tokenized.tokens, tokenizeWith_tokens,
      exists_map_eq_error_iff, hraw]
  · intro hrange
    have hadmissible : Admissible source := by
      by_contra hnot
      exact hrange (outOfRange_iff.mpr hnot)
    refine ⟨⟨_, rawTokens_of_admissible hadmissible, tokenize_of_admissible hadmissible, ?_⟩, ?_⟩
    · intro settings
      rw [tokenizeWith_tokens, rawTokens_of_admissible hadmissible]
      rfl
    · intro k hk
      exact Cursor.exists_advanceBy_start hadmissible h hk
  · exact fun f => fault_of_scan

theorem tokenize_eq_error_iff_boundary :
    (∃ ts, tokenize (List.replicate (Position.bound - 2) Byte.lineFeed) = .ok ts) ∧
      (∃ f, tokenize (List.replicate (Position.bound - 1) Byte.lineFeed) = .error f) ∧
      (∃ ts, tokenize (List.replicate (Position.bound - 1) Byte.space) = .ok ts) ∧
      ∃ f, tokenize (List.replicate Position.bound Byte.space) = .error f := by
  have hbound : 2 ≤ Position.bound := by decide
  have hcapacity : Position.bound < Bytes.capacity := by decide
  have hfits : ∀ (n : Nat) (b : UInt8), n ≤ Position.bound →
      (List.replicate n b).length < Bytes.capacity := by
    intro n b hn
    rw [List.length_replicate]
    omega
  have hrange : ∀ (n : Nat) (b : UInt8), n < Position.bound →
      (List.replicate n b).count Byte.lineFeed < Position.bound - 1 →
      ¬ OutOfRange (List.replicate n b) := by
    rintro n b hn hcount (hlines | ⟨run, hrun, -, hlength⟩)
    · omega
    · have hle := hrun.length_le
      rw [List.length_replicate] at hle
      omega
  have hspace : Byte.space ≠ Byte.lineFeed := by decide
  refine ⟨?_, ?_, ?_, ?_⟩
  · have hin := hrange (Position.bound - 2) Byte.lineFeed (by omega) (by
      rw [List.count_replicate_self]
      omega)
    obtain ⟨raw, -, htokens, -⟩ :=
      ((tokenize_eq_error_iff (hfits _ _ (Nat.sub_le _ _))).2.2.2.1 hin).1
    exact ⟨_, htokens⟩
  · apply (tokenize_eq_error_iff (hfits _ _ (Nat.sub_le _ _))).2.1.mpr
    left
    rw [List.count_replicate_self]
  · have hin := hrange (Position.bound - 1) Byte.space (by omega) (by
      rw [List.count_replicate, if_neg (by simpa using hspace)]
      omega)
    obtain ⟨raw, -, htokens, -⟩ :=
      ((tokenize_eq_error_iff (hfits _ _ (Nat.sub_le _ _))).2.2.2.1 hin).1
    exact ⟨_, htokens⟩
  · apply (tokenize_eq_error_iff (hfits _ _ (le_refl _))).2.1.mpr
    right
    refine ⟨_, List.infix_refl _, ?_, ?_⟩
    · intro hmem
      exact hspace (List.eq_of_mem_replicate hmem).symm
    · rw [List.length_replicate]

end StatementLexer
