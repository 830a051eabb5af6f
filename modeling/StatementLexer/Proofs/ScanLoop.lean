import StatementLexer.Proofs.LineFeeds
import StatementLexer.Proofs.LongestMatch

/-!
Every step of a scan moves on. A unit takes at least one byte and reports at most as many tokens as
it takes bytes, so the loop over the units ends with the source. Two loops run inside of it, over
the bytes of a block comment and over those of a keyword. All three are written here as iterations
over a cursor, and none of them needs more iterations than the source has bytes.
-/

namespace StatementLexer

/-- What one iteration of a loop comes to: another one, or the result of the loop. -/
inductive Turn (σ α : Type) where
  | again (s : σ)
  | leave (r : α)

/-- A loop whose condition is asked before each iteration. An iteration comes to nothing when a
loop inside of it needs more iterations than it is given. -/
structure Loop (σ α : Type) where
  stop? : σ → Option α
  body : σ → Except Fault (Option (Turn σ α))

namespace Loop

variable {σ α : Type}

/-- The result of the loop, or nothing if it needs more than `n` iterations. -/
def within (L : Loop σ α) : Nat → σ → Except Fault (Option α)
  | 0, s => .ok (L.stop? s)
  | n + 1, s =>
      match L.stop? s with
      | some r => .ok (some r)
      | none => L.body s >>= fun turn =>
          match turn with
          | none => .ok none
          | some (.leave r) => .ok (some r)
          | some (.again s') => L.within n s'

/-- At `s` the loop is on its way to `target s`: it stops with it, or an iteration ends the loop
with it, or an iteration fails with it or turns to a state of smaller measure with the same
target. -/
inductive Approaches (L : Loop σ α) (measure : σ → Nat) (target : σ → Except Fault α) (s : σ) : Prop
  | stop (r : α) (hstop : L.stop? s = some r) (htarget : target s = .ok r)
  | leave (r : Except Fault α) (hstop : L.stop? s = none) (hmeasure : 0 < measure s)
      (hbody : L.body s = r.map fun a => some (.leave a)) (htarget : target s = r)
  | again (r : Except Fault σ) (hstop : L.stop? s = none) (hmeasure : 0 < measure s)
      (hbody : L.body s = r.map fun t => some (.again t))
      (hfault : ∀ f, r = .error f → target s = .error f)
      (hnext : ∀ t, r = .ok t → measure t < measure s ∧ target t = target s)

/-- A loop that is on its way from every state of small measure takes no more iterations than the
measure says. -/
theorem within_of_approaches {L : Loop σ α} {measure : σ → Nat} {target : σ → Except Fault α}
    {bound : Nat} (h : ∀ s, measure s ≤ bound → L.Approaches measure target s) {n : Nat} {s : σ}
    (hbound : measure s ≤ bound) (hn : measure s ≤ n) : L.within n s = (target s).map some := by
  induction n generalizing s with
  | zero =>
      -- Without a single iteration the measure is zero, and only a loop that stops is left.
      cases h s hbound with
      | stop r hstop htarget =>
          rw [within, hstop, htarget]
          rfl
      | leave r hstop hmeasure => omega
      | again r hstop hmeasure => omega
  | succ n ih =>
      cases h s hbound with
      | stop r hstop htarget =>
          rw [within, hstop, htarget]
          rfl
      | leave r hstop hmeasure hbody htarget =>
          rw [within, hstop, hbody, htarget]
          cases r <;> rfl
      | again r hstop hmeasure hbody hfault hnext =>
          rw [within, hstop, hbody]
          rcases r with f | t
          · rw [hfault f rfl]
            rfl
          · obtain ⟨hless, htarget⟩ := hnext t rfl
            rw [← htarget]
            exact ih (by omega) (by omega)

end Loop

namespace Cursor

theorem advanceBy_add (c : Cursor) (m n : Nat) :
    c.advanceBy (m + n) = c.advanceBy m >>= fun d => d.advanceBy n := by
  induction m generalizing c with
  | zero =>
      rw [Nat.zero_add]
      rfl
  | succ m ih =>
      obtain ⟨passed, rest, p⟩ := c
      rw [Nat.add_right_comm]
      rcases rest with _ | ⟨b, rest⟩
      · rw [advanceBy_nil, advanceBy_nil]
        exact (advanceBy_nil passed p n).symm
      · rw [advanceBy_cons, advanceBy_cons]
        rcases p.step b with f | q
        · rfl
        · exact ih _

end Cursor

open Lexeme

theorem Lexeme.keyword_isSuffix (read input : Bytes) : (keyword read input).2 <:+ input := by
  induction input generalizing read with
  | nil => exact List.suffix_refl _
  | cons b input ih =>
      rw [keyword]
      split
      · split
        · exact List.suffix_cons b input
        · split <;> exact List.suffix_cons b input
      · split
        · exact (ih _).trans (List.suffix_cons b input)
        · exact List.suffix_refl _

theorem Lexeme.length_extend (seed rest : Bytes) :
    (extend seed rest).1.length = seed.length + (rest.length - (extend seed rest).2.length) := by
  have happend := congrArg List.length (extend_append seed rest)
  have hle : (extend seed rest).2.length ≤ rest.length := by
    unfold extend
    split
    · exact Nat.le_succ_of_le (List.dropWhile_suffix _).length_le
    · exact (List.dropWhile_suffix _).length_le
  rw [List.length_append, List.length_append] at happend
  omega

namespace Scan

/-- Moves over `n` bytes and reports what becomes of them. -/
def pass (s : Scan) (n : Nat) (report : Position → List Signal) : Except Fault Scan :=
  s.finish.advanceBy n >>= fun c => .ok ⟨s.signals ++ report c.location, c⟩

theorem step_eq_pass (s : Scan) (l : Lexeme) :
    s.step l = s.pass l.bytes.length (l.signals s.finish.location) := by
  rw [step, Lexeme.read, pass]
  cases s.finish.advanceBy l.bytes.length <;> rfl

theorem pass_zero (s : Scan) : (s.pass 0 fun _ => []) = .ok s := by
  rw [pass, Cursor.advanceBy_zero]
  change Except.ok (Scan.mk (s.signals ++ []) s.finish) = _
  rw [List.append_nil]

section Pass

variable {s t : Scan} {m : Nat} {before : Position → List Signal}

theorem pass_of_error {f : Fault} (h : s.pass m before = .error f) (n : Nat)
    (report : Position → List Signal) : s.pass (m + n) report = .error f := by
  rw [pass] at h
  rw [pass, Cursor.advanceBy_add]
  rcases hadvance : s.finish.advanceBy m with g | c
  · rw [hadvance] at h
    cases h
    rfl
  · rw [hadvance] at h
    cases h

theorem pass_of_ok (h : s.pass m before = .ok t) (n : Nat) (report : Position → List Signal) :
    t.pass n report = s.pass (m + n) fun p => before t.finish.location ++ report p := by
  rw [pass] at h
  rw [pass, pass, Cursor.advanceBy_add]
  rcases hadvance : s.finish.advanceBy m with g | c
  · rw [hadvance] at h
    cases h
  · rw [hadvance] at h
    cases h
    change (c.advanceBy n >>= _) = (c.advanceBy n >>= _)
    simp only [List.append_assoc]

theorem eq_of_pass {w rest : Bytes} (hrest : s.finish.rest = w ++ rest)
    (h : s.pass w.length before = .ok t) :
    t = ⟨s.signals ++ before (s.finish.location.past w),
      ⟨w.reverse ++ s.finish.passed, rest, s.finish.location.past w⟩⟩ := by
  obtain ⟨signals, passed, ahead, p⟩ := s
  obtain rfl : ahead = w ++ rest := hrest
  rw [pass, Cursor.advanceBy_append] at h
  rcases hwalk : p.walk w with f | q
  · rw [hwalk] at h
    cases h
  · rw [hwalk] at h
    cases h
    obtain ⟨rfl, -⟩ := Position.walk_eq_ok hwalk
    rfl

end Pass

/-- The loop over the bytes of a block comment, behind the mark that opened it. A line feed is
reported where the next line starts. -/
def commentLoop (opened : Position) : Loop Scan Scan where
  stop? _ := none
  body s :=
    match s.finish.rest with
    | [] => (s.pass 0 fun _ => [.truncated .blockComment opened]).map fun t => some (.leave t)
    | b :: rest =>
        if b = Byte.asterisk ∧ rest.head? = some Byte.slash then
          (s.pass 2 fun _ => []).map fun t => some (.leave t)
        else
          (s.pass 1 fun p => if b = Byte.lineFeed then [.token (.lineBreakAt p)] else []).map
            fun t => some (.again t)

/-- How many bytes of a block comment lie ahead, and what they report from the line `line` on. -/
def commentAhead (opened : Position) (line : Nat) (rest : Bytes) : Nat × List Signal :=
  match closeComment? rest with
  | some (text, _) => (text.length + 2, lineBreaks line text)
  | none => (rest.length, lineBreaks line rest ++ [.truncated .blockComment opened])

theorem commentAhead_cons {b : UInt8} {rest : Bytes}
    (h : ¬ (b = Byte.asterisk ∧ rest.head? = some Byte.slash)) (opened p : Position) :
    commentAhead opened p.line (b :: rest) =
      (1 + (commentAhead opened (p.next b).line rest).1,
        (if b = Byte.lineFeed then [.token (.lineBreakAt (p.next b))] else []) ++
          (commentAhead opened (p.next b).line rest).2) := by
  have hbreaks : ∀ text, lineBreaks p.line (b :: text) =
      (if b = Byte.lineFeed then [.token (.lineBreakAt (p.next b))] else []) ++
        lineBreaks (p.next b).line text := by
    intro text
    rcases eq_or_ne b Byte.lineFeed with rfl | hb
    · rw [lineBreaks_lineFeed, if_pos rfl]
      rfl
    · rw [lineBreaks_of_ne hb, if_neg hb, Position.next_of_ne hb]
      rfl
  rw [commentAhead, commentAhead, closeComment?, if_neg h]
  rcases closeComment? rest with _ | ⟨text, rest'⟩
  · simp [hbreaks, Nat.add_comm 1]
  · simp [hbreaks, Nat.add_comm 1, Nat.add_right_comm]

theorem commentLoop_approaches (opened : Position) (s : Scan) :
    (commentLoop opened).Approaches (fun t => t.finish.rest.length + 1)
      (fun t =>
        let ahead := commentAhead opened t.finish.location.line t.finish.rest
        t.pass ahead.1 fun _ => ahead.2) s := by
  rcases hrest : s.finish.rest with _ | ⟨b, rest⟩
  · refine .leave (s.pass 0 fun _ => [.truncated .blockComment opened]) rfl (Nat.succ_pos _) ?_ ?_
    · simp only [commentLoop, hrest]
    · simp only [hrest]
      rfl
  by_cases hclose : b = Byte.asterisk ∧ rest.head? = some Byte.slash
  · refine .leave (s.pass 2 fun _ => []) rfl (Nat.succ_pos _) ?_ ?_
    · simp only [commentLoop, hrest, if_pos hclose]
    · simp only [hrest, commentAhead, closeComment?, if_pos hclose]
      rfl
  · refine .again
      (s.pass 1 fun p => if b = Byte.lineFeed then [.token (.lineBreakAt p)] else []) rfl
      (Nat.succ_pos _) ?_ ?_ ?_
    · simp only [commentLoop, hrest, if_neg hclose]
    · intro f hf
      simp only [hrest, commentAhead_cons hclose]
      exact pass_of_error hf _ _
    · intro t ht
      have hlocation : t.finish.location = s.finish.location.next b := by
        rw [eq_of_pass (w := [b]) hrest ht]
        rfl
      have hahead : t.finish.rest = rest := by
        rw [eq_of_pass (w := [b]) hrest ht]
      simp only [hrest, hahead, commentAhead_cons hclose]
      rw [pass_of_ok ht, hlocation]
      exact ⟨Nat.lt_succ_self _, rfl⟩

theorem within_commentLoop {s : Scan} {rest : Bytes}
    (h : s.finish.rest = Byte.slash :: Byte.asterisk :: rest) {n : Nat} (hn : rest.length < n) :
    ((s.pass 2 fun _ => []) >>= (commentLoop s.finish.location).within n) =
      (s.step (slash (Byte.asterisk :: rest)).1).map some := by
  have hstep : s.step (slash (Byte.asterisk :: rest)).1 =
      let ahead := commentAhead s.finish.location s.finish.location.line rest
      s.pass (2 + ahead.1) fun _ => [] ++ ahead.2 := by
    have hasterisk : Byte.asterisk ≠ Byte.slash := by decide
    rw [step_eq_pass, slash, if_neg hasterisk, if_pos rfl, commentAhead]
    rcases closeComment? rest with _ | ⟨text, rest'⟩
    · simp [bytes, Lexeme.signals, Nat.add_comm 2]
    · simp [bytes, Lexeme.signals, Nat.add_comm 2]
  rw [hstep]
  rcases hpass : s.pass 2 fun _ => [] with f | t
  · rw [pass_of_error hpass]
    rfl
  · have hline : t.finish.location.line = s.finish.location.line := by
      rw [eq_of_pass (w := [Byte.slash, Byte.asterisk]) h hpass]
      rfl
    have hahead : t.finish.rest = rest := by
      rw [eq_of_pass (w := [Byte.slash, Byte.asterisk]) h hpass]
    have hwithin := Loop.within_of_approaches
      (fun u _ => commentLoop_approaches s.finish.location u) (Nat.le_refl _)
      (show t.finish.rest.length + 1 ≤ n by rwa [hahead])
    simp only [hahead, hline] at hwithin
    rw [← pass_of_ok hpass]
    exact hwithin

/-- The loop over the bytes of a keyword. The bytes read so far go with the scan. -/
def keywordLoop : Loop (Bytes × Scan) (Attempt × Scan) where
  stop? s := if s.2.finish.isAtEnd then some (.seed s.1, s.2) else none
  body s :=
    match s.2.finish.rest with
    | [] => .ok (some (.leave (.seed s.1, s.2)))
    | b :: _ =>
        let word := s.1 ++ [b]
        let found := Vocabulary.keywords.lookup word
        if found.isWord then
          (s.2.pass 1 fun _ => []).map fun t =>
            if t.finish.current.any Byte.isIdentContinue then some (.leave (.seed word, t))
            else match Vocabulary.keywords.kindOf? word with
              | some k => some (.leave (.keyword k, t))
              | none => some (.leave (.seed word, t))
        else if found.hasLonger then
          (s.2.pass 1 fun _ => []).map fun t => some (.again (word, t))
        else .ok (some (.leave (.seed s.1, s.2)))

/-- The attempt at the head of what lies ahead, and the scan behind the bytes it took. -/
def attempt (s : Bytes × Scan) : Except Fault (Attempt × Scan) :=
  let r := keyword s.1 s.2.finish.rest
  (s.2.pass (s.2.finish.rest.length - r.2.length) fun _ => []).map fun t => (r.1, t)

theorem keywordLoop_approaches (s : Bytes × Scan) :
    keywordLoop.Approaches (fun t => t.2.finish.rest.length) attempt s := by
  obtain ⟨read, s⟩ := s
  rcases hrest : s.finish.rest with _ | ⟨b, rest⟩
  · refine .stop (.seed read, s) ?_ ?_
    · simp [keywordLoop, Cursor.isAtEnd, hrest]
    · simp only [attempt, hrest, List.length_nil, Nat.zero_sub, pass_zero]
      rfl
  have hstop : keywordLoop.stop? (read, s) = none := by
    simp [keywordLoop, Cursor.isAtEnd, hrest]
  have hmeasure : 0 < (read, s).2.finish.rest.length := by
    simp [hrest]
  have hahead : ∀ t, (s.pass 1 fun _ => []) = .ok t → t.finish.rest = rest := by
    intro t ht
    rw [eq_of_pass (w := [b]) hrest ht]
  by_cases hword : (Vocabulary.keywords.lookup (read ++ [b])).isWord = true
  · -- A whole keyword ends the loop, also when it turns out to be the beginning of a name.
    refine .leave (attempt (read, s)) hstop hmeasure ?_ rfl
    have htakes : (keyword read (b :: rest)).2 = rest := by
      rw [keyword, if_pos hword]
      split
      · rfl
      · split <;> rfl
    simp only [keywordLoop, attempt, hrest, if_pos hword, htakes, List.length_cons,
      Nat.add_sub_cancel_left]
    rcases hpass : s.pass 1 fun _ => [] with f | t
    · rfl
    · rw [keyword, if_pos hword]
      simp only [Except.map, Cursor.current, hahead t hpass]
      split
      · rfl
      · rcases Vocabulary.keywords.kindOf? (read ++ [b]) with _ | k <;> rfl
  by_cases hlonger : (Vocabulary.keywords.lookup (read ++ [b])).hasLonger = true
  · -- A beginning takes one byte and leaves the attempt behind it as it is.
    have hkeyword : keyword read (b :: rest) = keyword (read ++ [b]) rest := by
      rw [keyword, if_neg hword, if_pos hlonger]
    have htakes : (b :: rest).length - (keyword (read ++ [b]) rest).2.length =
        1 + (rest.length - (keyword (read ++ [b]) rest).2.length) := by
      have hle := (keyword_isSuffix (read ++ [b]) rest).length_le
      rw [List.length_cons]
      omega
    refine .again ((s.pass 1 fun _ => []).map fun t => (read ++ [b], t)) hstop hmeasure ?_ ?_ ?_
    · simp only [keywordLoop, hrest, if_neg hword, if_pos hlonger]
      cases s.pass 1 fun _ => [] <;> rfl
    · intro f hf
      rcases hpass : s.pass 1 fun _ => [] with g | t
      · rw [hpass] at hf
        cases hf
        simp only [attempt, hrest, hkeyword, htakes, pass_of_error hpass]
        rfl
      · rw [hpass] at hf
        cases hf
    · intro u hu
      rcases hpass : s.pass 1 fun _ => [] with g | t
      · rw [hpass] at hu
        cases hu
      · rw [hpass] at hu
        cases hu
        simp only [attempt, hrest, hahead t hpass, hkeyword, htakes, pass_of_ok hpass]
        exact ⟨Nat.lt_succ_self _, rfl⟩
  · refine .leave (.ok (.seed read, s)) hstop hmeasure ?_ ?_
    · simp only [keywordLoop, hrest, if_neg hword, if_neg hlonger]
      rfl
    · simp only [attempt, hrest]
      rw [keyword, if_neg hword, if_neg hlonger]
      simp only [Nat.sub_self, pass_zero]
      rfl

/-- Reads an operator, a keyword or a name at the head of `b :: rest`, with at most `n` iterations
over the bytes of a keyword. What an attempt at a keyword has read is the beginning of a name. -/
def readWord (n : Nat) (s : Scan) (b : UInt8) (rest : Bytes) : Except Fault (Option Scan) :=
  match operator? b rest with
  | some (k, _) => (s.step (.symbol k)).map some
  | none =>
      keywordLoop.within n ([], s) >>= fun r =>
        match r with
        | none => .ok none
        | some (.keyword k, t) =>
            (t.pass 0 fun p => [.token (.plain k s.finish.location p)]).map some
        | some (.seed seed, t) =>
            let name := extend seed t.finish.rest
            (t.pass (t.finish.rest.length - name.2.length) fun p =>
              [.token (.withLiteral .identifier name.1 s.finish.location p)]).map some

theorem readWord_eq {s : Scan} {b : UInt8} {rest : Bytes} (h : s.finish.rest = b :: rest) {n : Nat}
    (hn : s.finish.rest.length ≤ n) :
    s.readWord n b rest = (s.step (word b rest).1).map some := by
  rw [readWord, word]
  rcases operator? b rest with _ | ⟨k, rest'⟩
  · have hwithin := Loop.within_of_approaches (s := ([], s))
      (fun t _ => keywordLoop_approaches t) (Nat.le_refl _) hn
    simp only [hwithin, attempt, h]
    rcases hkeyword : keyword [] (b :: rest) with ⟨k | seed, rest'⟩
    · obtain ⟨-, hbytes⟩ := (keyword_bytes [] (b :: rest)).1 k rest' hkeyword
      rw [List.nil_append] at hbytes
      have hlength : (b :: rest).length - rest'.length = (symbol k).bytes.length := by
        rw [← hbytes, List.length_append, Nat.add_sub_cancel]
      have hstep : s.step (symbol k) =
          s.pass ((symbol k).bytes.length + 0) fun p => [] ++
            [.token (.plain k s.finish.location p)] := by
        rw [step_eq_pass]
        rfl
      simp only [hlength, hstep]
      rcases hpass : s.pass (symbol k).bytes.length fun _ => [] with f | t
      · rw [pass_of_error hpass]
        rfl
      · rw [← pass_of_ok hpass]
        rfl
    · have hbytes := (keyword_bytes [] (b :: rest)).2 seed rest' hkeyword
      rw [List.nil_append] at hbytes
      have hlength : (b :: rest).length - rest'.length = seed.length := by
        rw [← hbytes, List.length_append, Nat.add_sub_cancel]
      have hstep : s.step (.name (extend seed rest').1) =
          s.pass (seed.length + (rest'.length - (extend seed rest').2.length)) fun p => [] ++
            [.token (.withLiteral .identifier (extend seed rest').1 s.finish.location p)] := by
        rw [step_eq_pass, ← length_extend]
        rfl
      simp only [hlength, hstep]
      rcases hpass : s.pass seed.length fun _ => [] with f | t
      · rw [pass_of_error hpass]
        rfl
      · have hahead : t.finish.rest = rest' := by
          rw [eq_of_pass (h.trans hbytes.symm) hpass]
        rw [← pass_of_ok hpass, ← hahead]
        rfl
  · rfl

/-- Reads the unit at the cursor, with at most `n` iterations in a loop over its bytes. -/
def unit (n : Nat) (s : Scan) : Except Fault (Option Scan) :=
  match s.finish.rest with
  | [] => .ok (some s)
  | b :: rest =>
      if b = Byte.slash ∧ rest.head? = some Byte.asterisk then
        (s.pass 2 fun _ => []) >>= (commentLoop s.finish.location).within n
      else if Byte.startsWord b then s.readWord n b rest
      else (s.step (first b rest).1).map some

theorem unit_eq {s : Scan} {b : UInt8} {rest : Bytes} (h : s.finish.rest = b :: rest) {n : Nat}
    (hn : s.finish.rest.length ≤ n) : s.unit n = (s.step (first b rest).1).map some := by
  simp only [unit, h]
  split
  · next hcomment =>
      obtain ⟨rfl, hhead⟩ := hcomment
      obtain ⟨tail, rfl⟩ := List.head?_eq_some_iff.mp hhead
      rw [h, List.length_cons, List.length_cons] at hn
      exact within_commentLoop h (by omega)
  split
  · next hword =>
      rw [first_of_startsWord hword]
      exact readWord_eq h hn
  · rfl

/-- The loop over the units of a source. -/
def unitLoop (n : Nat) : Loop Scan Scan where
  stop? s := if s.finish.isAtEnd then some s else none
  body s := (s.unit n).map fun r => r.map .again

theorem unitLoop_approaches {n : Nat} {s : Scan} (hn : s.finish.rest.length ≤ n) :
    (unitLoop n).Approaches (fun t => t.finish.rest.length)
      (fun t => (split t.finish.rest).foldlM step t) s := by
  rcases hrest : s.finish.rest with _ | ⟨b, rest⟩
  · refine .stop s ?_ ?_
    · simp [unitLoop, Cursor.isAtEnd, hrest]
    · simp only [hrest, split_nil]
      rfl
  have htarget : (split s.finish.rest).foldlM step s =
      s.step (first b rest).1 >>= fun t => (split (first b rest).2).foldlM step t := by
    rw [hrest, split_cons, List.foldlM_cons]
  refine .again (s.step (first b rest).1) ?_ ?_ ?_ ?_ ?_
  · simp [unitLoop, Cursor.isAtEnd, hrest]
  · simp [hrest]
  · simp only [unitLoop, unit_eq hrest hn]
    cases s.step (first b rest).1 <;> rfl
  · intro f hf
    rw [htarget, hf]
    rfl
  · intro t ht
    have hahead : t.finish.rest = (first b rest).2 :=
      rest_of_step (hrest.trans (first_bytes b rest).2.symm) ht
    rw [htarget, ht, hahead]
    refine ⟨?_, rfl⟩
    rw [hrest]
    exact first_length b rest

end Scan

/-- The loop over the units of a source is the scan of the source, and neither this loop nor one
inside of it needs more iterations than there are bytes. -/
theorem within_unitLoop (source : Bytes) {n : Nat} (h : source.length ≤ n) :
    (Scan.unitLoop n).within n ⟨[], .start source⟩ = (scan source).map some := by
  rw [scan_eq_foldlM]
  exact Loop.within_of_approaches (fun _ ht => Scan.unitLoop_approaches ht) h h

theorem Lexeme.length_tokens_signals_le {l : Lexeme} (h : l.bytes ≠ []) (p q : Position) :
    ((l.signals p q).filterMap Signal.token?).length ≤ l.bytes.length := by
  have hone : 1 ≤ l.bytes.length := List.length_pos_iff.mpr h
  cases l with
  | blank b => exact Nat.zero_le _
  | lineComment text => exact Nat.zero_le _
  | openQuoted q text => exact Nat.zero_le _
  | blockComment text =>
      have hcount := @List.count_le_length _ _ Byte.lineFeed text
      simp only [signals, length_lineBreaks_tokens, bytes, List.length_cons, List.length_append]
      omega
  | openComment text =>
      have hcount := @List.count_le_length _ _ Byte.lineFeed text
      simp only [signals, List.filterMap_append, List.length_append, length_lineBreaks_tokens,
        bytes, List.length_cons]
      exact Nat.le_succ_of_le (Nat.le_succ_of_le hcount)
  | _ => exact hone

namespace Scan

/-- The scan `t` goes on where `s` is. It keeps the source and the tokens of `s`, and has at most
one more token for each byte further on. -/
structure Continues (s t : Scan) : Prop where
  source_eq : t.finish.source = s.finish.source
  offset_le : s.finish.offset ≤ t.finish.offset
  tokens_isPrefix : s.tokens <+: t.tokens
  tokens_le : t.tokens.length + s.finish.offset ≤ s.tokens.length + t.finish.offset

/-- A scan that goes on by at least one byte, and not beyond the end of the source. -/
structure Advances (s t : Scan) : Prop extends Continues s t where
  offset_lt : s.finish.offset < t.finish.offset
  offset_le_length : t.finish.offset ≤ s.finish.source.length

theorem Continues.refl (s : Scan) : s.Continues s :=
  ⟨rfl, Nat.le_refl _, List.prefix_refl _, Nat.le_refl _⟩

theorem Continues.trans {s t u : Scan} (h : s.Continues t) (h' : t.Continues u) :
    s.Continues u := by
  refine ⟨h'.source_eq.trans h.source_eq, h.offset_le.trans h'.offset_le,
    h.tokens_isPrefix.trans h'.tokens_isPrefix, ?_⟩
  have hle := h.tokens_le
  have hle' := h'.tokens_le
  omega

theorem advances_step {s t : Scan} {b : UInt8} {rest : Bytes} (hrest : s.finish.rest = b :: rest)
    (h : s.step (first b rest).1 = .ok t) : s.Advances t := by
  obtain ⟨hne, hbytes⟩ := first_bytes b rest
  have hahead := hrest.trans hbytes.symm
  have hsource : s.finish.source =
      s.finish.passed.reverse ++ ((first b rest).1.bytes ++ (first b rest).2) := by
    rw [Cursor.source, hahead]
  have hpos := List.length_pos_iff.mpr hne
  have htokens := length_tokens_signals_le hne s.finish.location
    (s.finish.location.past (first b rest).1.bytes)
  rw [step_eq_pass] at h
  obtain rfl := eq_of_pass hahead h
  refine ⟨⟨?_, ?_, ?_, ?_⟩, ?_, ?_⟩
  · rw [hsource, Cursor.source, List.reverse_append, List.reverse_reverse, List.append_assoc]
  · simp [Cursor.offset]
  · simp [tokens]
  · simp only [tokens, List.filterMap_append, List.length_append, Cursor.offset,
      List.length_reverse]
    omega
  · simpa [Cursor.offset] using hpos
  · simp only [hsource, Cursor.offset, List.length_append, List.length_reverse]
    omega

theorem continues_foldlM {input : Bytes} {s t : Scan} (hrest : s.finish.rest = input)
    (h : (split input).foldlM step s = .ok t) : s.Continues t ∧ t.finish.rest = [] := by
  fun_induction split input generalizing s with
  | case1 =>
      cases h
      exact ⟨.refl _, hrest⟩
  | case2 b rest ih =>
      rw [List.foldlM_cons] at h
      rcases hstep : s.step (first b rest).1 with f | u
      · rw [hstep] at h
        cases h
      · rw [hstep] at h
        obtain ⟨hcontinues, hend⟩ :=
          ih (rest_of_step (hrest.trans (first_bytes b rest).2.symm) hstep) h
        exact ⟨(advances_step hrest hstep).toContinues.trans hcontinues, hend⟩

end Scan

theorem finish_of_scan {source : Bytes} {s : Scan} (h : scan source = .ok s) :
    s.finish.isAtEnd = true ∧ s.finish.source = source ∧ s.finish.offset = source.length ∧
      s.tokens.length ≤ source.length := by
  rw [scan_eq_foldlM] at h
  obtain ⟨hcontinues, hend⟩ := Scan.continues_foldlM rfl h
  have hsource : s.finish.source = source := hcontinues.source_eq
  have hoffset : s.finish.offset = source.length := by
    rw [← hsource, Cursor.source, hend, List.append_nil, List.length_reverse, Cursor.offset]
  have htokens : s.tokens.length ≤ s.finish.offset := by
    simpa [Scan.tokens, Cursor.offset, Cursor.start] using hcontinues.tokens_le
  refine ⟨?_, hsource, hoffset, hoffset ▸ htokens⟩
  rw [Cursor.isAtEnd, hend]
  rfl

theorem Terminator.length_terminate_le (ts : List Token) :
    (terminate ts).length ≤ ts.length + 1 := by
  have hinferred := (infer_le ts).2.1
  have hfinal := (infer_le (inferBoundaries ts)).2.2
  rw [terminate]
  omega

/-- Wherever a scan is, the unit at the cursor moves it on, not beyond the end of the source, keeps
the tokens reported so far, and adds at most as many as it takes bytes. So the loop over the units
ends for every source, at its end unless a count leaves its range. Neither this loop nor the loops
inside of it, over a block comment and over a keyword, takes more iterations than the source has
bytes. The raw stream has at most one token for each byte, and the final one at most one more. -/
theorem scan_ends_within_length (source : Bytes) :
    (∀ (s : Scan) (b : UInt8) (rest : Bytes), s.finish.rest = b :: rest →
      s.Fits (first b rest).1.bytes →
        ∃ t, s.step (first b rest).1 = .ok t ∧
          (∀ n, s.finish.rest.length ≤ n → s.unit n = .ok (some t)) ∧ s.Advances t) ∧
      (∀ n, source.length ≤ n →
        (Scan.unitLoop n).within n ⟨[], .start source⟩ = (scan source).map some) ∧
      (∀ s, scan source = .ok s →
        s.finish.isAtEnd = true ∧ s.finish.source = source ∧ s.finish.offset = source.length ∧
          s.tokens.length ≤ source.length) ∧
      (Admissible source → ∃ raw ts, rawTokens source = .ok raw ∧ tokenize source = .ok ts ∧
        raw.length ≤ source.length ∧ ts.length ≤ source.length + 1) := by
  refine ⟨?_, fun n hn => within_unitLoop source hn, fun s hs => finish_of_scan hs, ?_⟩
  · intro s b rest hrest hfits
    have hstep : ∃ t, s.step (first b rest).1 = .ok t := by
      rw [Scan.step_eq_walk (hrest.trans (first_bytes b rest).2.symm),
        Position.walk_of_inRange hfits]
      exact ⟨_, rfl⟩
    obtain ⟨t, ht⟩ := hstep
    refine ⟨t, ht, ?_, Scan.advances_step hrest ht⟩
    intro n hn
    rw [Scan.unit_eq hrest hn, ht]
    rfl
  · intro hadmissible
    obtain ⟨s, hs⟩ := exists_scan_iff.mpr hadmissible
    have hraw : rawTokens source = .ok s.tokens := by
      rw [rawTokens, hs]
      rfl
    have hlength := (finish_of_scan hs).2.2.2
    refine ⟨s.tokens, Terminator.terminate s.tokens, hraw, ?_, hlength, ?_⟩
    · rw [tokenize_eq_map_terminate, hraw]
      rfl
    · exact (Terminator.length_terminate_le _).trans (Nat.succ_le_succ hlength)

theorem scan_ends_within_length_behind :
    let s : Scan :=
      ⟨[.token (.withLiteral .identifier (Bytes.ofString "x") ⟨1, 0⟩ ⟨1, 1⟩)],
        ⟨Bytes.ofString "x", Bytes.ofString "/*\n*", ⟨1, 1⟩⟩⟩
    (∃ t, s.unit 4 = .ok (some t) ∧ s.Advances t) ∧
      (Scan.unitLoop 3).within 3 ⟨[], .start (Bytes.ofString "re+")⟩ =
        (scan (Bytes.ofString "re+")).map some ∧
      ∃ raw ts, rawTokens (Bytes.ofString "re+") = .ok raw ∧
        tokenize (Bytes.ofString "re+") = .ok ts ∧ raw.length ≤ 3 ∧ ts.length ≤ 4 := by
  intro s
  have hfits : s.Fits (first Byte.slash (Bytes.ofString "*\n*")).1.bytes := by
    intro before hbefore
    have hsource : Admissible (Bytes.ofString "x/*\n*") := admissible_of_length (by decide)
    exact Position.admissible_iff.mp hsource (0x78 :: before)
      (List.cons_prefix_cons.mpr ⟨rfl, hbefore⟩)
  obtain ⟨hunit, hloop, -, htokens⟩ := scan_ends_within_length (Bytes.ofString "re+")
  obtain ⟨t, -, ht, hadvances⟩ := hunit s Byte.slash (Bytes.ofString "*\n*") rfl hfits
  exact ⟨⟨t, ht 4 (by decide), hadvances⟩, hloop 3 (by decide),
    htokens (admissible_of_length (by decide))⟩

-- The attempt at a keyword looks at all three bytes, and two iterations are too few for it.
example :
    ((Scan.unitLoop 2).within 2 ⟨[], .start (Bytes.ofString "re+")⟩).toOption = some none := by
  decide +kernel

end StatementLexer
