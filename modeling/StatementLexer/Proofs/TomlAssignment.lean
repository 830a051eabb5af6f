import StatementLexer.Proofs.Codec
import StatementLexer.Toml.Document

namespace StatementLexer.Toml

/-- A blank or a line break comes next, or nothing. -/
def Stops (cs : List Char) : Prop :=
  ∀ c, cs.head? = some c → c ∈ [' ', '\t', '\n', '\r']

theorem skipBlanks_append {blanks : List Char} (h : AllBlank blanks) (cs : List Char) :
    skipBlanks (blanks ++ cs) = skipBlanks cs :=
  List.dropWhile_append_of_pos h

theorem skipBlanks_cons {c : Char} (h : isBlank c = false) (cs : List Char) :
    skipBlanks (c :: cs) = c :: cs :=
  List.dropWhile_cons_of_neg (by simp [h])

section Numerals

variable {ds tail : List Char}

theorem Stops.ne {c x : Char} {cs : List Char} (h : Stops (c :: cs))
    (hx : x ∉ [' ', '\t', '\n', '\r']) : c ≠ x := by
  rintro rfl
  exact hx (h c rfl)

theorem Stops.isDigit {c : Char} {cs : List Char} (h : Stops (c :: cs)) : c.isDigit = false := by
  have hc := h c rfl
  simp only [List.mem_cons, List.not_mem_nil, or_false] at hc
  rcases hc with rfl | rfl | rfl | rfl <;> rfl

theorem moreDigits_append (hds : ∀ c ∈ ds, c.isDigit = true) (htail : Stops tail) :
    moreDigits Char.isDigit (ds ++ tail) = some (ds, tail) := by
  induction ds with
  | nil =>
      rcases tail with _ | ⟨c, tail⟩
      · rfl
      · have hunderscore : c ≠ '_' := htail.ne (by decide)
        rw [List.nil_append, moreDigits.eq_def]
        simp [htail.isDigit, hunderscore]
  | cons d ds ih =>
      obtain ⟨hd, hds⟩ := List.forall_mem_cons.mp hds
      rw [List.cons_append, moreDigits.eq_def]
      simp [hd, ih hds]

theorem exists_toDigits_cons (n : Nat) :
    ∃ d ds, Nat.toDigits 10 n = d :: ds ∧ (d = '0' → n = 0) := by
  induction n using Nat.strongRecOn with
  | ind n ih =>
      rw [Nat.toDigits_eq_if (by decide)]
      split
      · next hlt =>
          refine ⟨_, [], rfl, ?_⟩
          have hzero : ∀ m < 10, m.digitChar = '0' → m = 0 := by decide
          exact hzero n hlt
      · next hge =>
          obtain ⟨d, ds, hdigits, hzero⟩ := ih (n / 10) (by omega)
          refine ⟨d, ds ++ [(n % 10).digitChar], by rw [hdigits]; rfl, ?_⟩
          intro hd
          have := hzero hd
          omega

theorem isDigit_of_mem_toDigits {n : Nat} {c : Char} (h : c ∈ Nat.toDigits 10 n) :
    c.isDigit = true :=
  Nat.isDigit_of_mem_toDigits (by decide) (by decide) h

theorem ofDigits_toDigits (n : Nat) : ofDigits 10 (Nat.toDigits 10 n) = n := by
  calc
    ofDigits 10 (Nat.toDigits 10 n) = Nat.ofDigitChars 10 (Nat.toDigits 10 n) 0 := by
      apply List.foldl_ext
      intro m c hc
      rw [digitValue, if_pos (isDigit_of_mem_toDigits hc), Nat.mul_comm]
    _ = n := Nat.ofDigitChars_ten_toDigits

theorem wholeDigits_toDigits (n : Nat) (htail : Stops tail) :
    wholeDigits (Nat.toDigits 10 n ++ tail) = some (Nat.toDigits 10 n, tail) := by
  obtain ⟨d, ds, hdigits, hzero⟩ := exists_toDigits_cons n
  have hall : ∀ c ∈ d :: ds, c.isDigit = true := fun c hc => isDigit_of_mem_toDigits (hdigits ▸ hc)
  obtain ⟨hd, hds⟩ := List.forall_mem_cons.mp hall
  rw [hdigits, List.cons_append]
  unfold wholeDigits
  split
  · next cs heq =>
      cases heq
      obtain rfl := hzero rfl
      cases hdigits
      rfl
  · rw [decimalDigits, digits, if_pos hd, moreDigits_append hds htail]
    rfl

theorem exists_toDigits_append (n : Nat) (tail : List Char) :
    ∃ d cs, Nat.toDigits 10 n ++ tail = d :: cs ∧ d.isDigit = true := by
  obtain ⟨d, ds, hdigits, -⟩ := exists_toDigits_cons n
  exact ⟨d, ds ++ tail, by rw [hdigits]; rfl,
    isDigit_of_mem_toDigits (hdigits ▸ List.mem_cons_self)⟩

theorem sign_toDigits (n : Nat) (tail : List Char) :
    sign (Nat.toDigits 10 n ++ tail) = (false, Nat.toDigits 10 n ++ tail) := by
  obtain ⟨d, cs, happend, hd⟩ := exists_toDigits_append n tail
  rw [happend]
  unfold sign
  split
  · next heq =>
      cases heq
      cases hd
  · next heq =>
      cases heq
      cases hd
  · rfl

theorem exists_of_field (hds : ∀ c ∈ ds, c.isDigit = true) (htail : Stops tail)
    {n low high v : Nat} {rest : List Char} (h : field n low high (ds ++ tail) = some (v, rest)) :
    ∃ more, (∀ c ∈ more, c.isDigit = true) ∧ rest = more ++ tail := by
  unfold field at h
  dsimp only at h
  split at h
  · next hfield =>
      obtain ⟨hlength, hdigits, -⟩ := hfield
      cases h
      have hle : n ≤ ds.length := by
        by_contra hlt
        rw [List.take_append, List.take_of_length_le (by omega)] at hlength hdigits
        rcases tail with _ | ⟨c, tail⟩
        · simp only [List.take_nil, List.append_nil] at hlength
          omega
        · obtain ⟨m, hm⟩ : ∃ m, n - ds.length = m + 1 := ⟨n - ds.length - 1, by omega⟩
          rw [hm, List.take_succ_cons, List.all_append, List.all_cons, htail.isDigit] at hdigits
          simp at hdigits
      refine ⟨ds.drop n, fun c hc => hds c (List.mem_of_mem_drop hc), ?_⟩
      rw [List.drop_append_of_le_length hle]
  · cases h

theorem expect_eq_none (hds : ∀ c ∈ ds, c.isDigit = true) (htail : Stops tail) {x : Char}
    (hdigit : x.isDigit = false) (hx : x ∉ [' ', '\t', '\n', '\r']) :
    expect x (ds ++ tail) = none := by
  rcases ds with _ | ⟨d, ds⟩
  · rcases tail with _ | ⟨c, tail⟩
    · rfl
    · exact if_neg (htail.ne hx)
  · apply if_neg
    rintro rfl
    rw [hds d List.mem_cons_self] at hdigit
    cases hdigit

theorem skipDateTime?_eq_none (hds : ∀ c ∈ ds, c.isDigit = true) (htail : Stops tail) :
    skipDateTime? (ds ++ tail) = none := by
  have hdate : skipDate? (ds ++ tail) = none := by
    rcases hfield : field 4 0 9999 (ds ++ tail) with _ | ⟨year, rest⟩
    · simp [skipDate?, hfield]
    · obtain ⟨more, hmore, rfl⟩ := exists_of_field hds htail hfield
      have hexpect : expect '-' (more ++ tail) = none := expect_eq_none hmore htail rfl (by decide)
      simp [skipDate?, hfield, hexpect]
  have htime : skipTime? (ds ++ tail) = none := by
    rcases hfield : field 2 0 23 (ds ++ tail) with _ | ⟨hour, rest⟩
    · simp [skipTime?, hfield]
    · obtain ⟨more, hmore, rfl⟩ := exists_of_field hds htail hfield
      have hexpect : expect ':' (more ++ tail) = none := expect_eq_none hmore htail rfl (by decide)
      simp [skipTime?, hfield, hexpect]
  simp [skipDateTime?, hdate, htime]

theorem fraction_eq_none (htail : Stops tail) : fraction tail = none := by
  unfold fraction
  split
  · exact absurd rfl (htail.ne (by decide))
  · rfl

theorem exponent_eq_none (htail : Stops tail) : exponent tail = none := by
  unfold exponent
  split
  · next c cs =>
      have hlower : c ≠ 'e' := htail.ne (by decide)
      have hupper : c ≠ 'E' := htail.ne (by decide)
      simp [hlower, hupper]
  · rfl

theorem skipFloat?_eq_none (n : Nat) (htail : Stops tail) :
    skipFloat? (Nat.toDigits 10 n ++ tail) = none := by
  have hdecimal : skipDecimal? (Nat.toDigits 10 n ++ tail) = none := by
    simp [skipDecimal?, sign_toDigits, wholeDigits_toDigits n htail, fraction_eq_none htail,
      exponent_eq_none htail]
  have hspecial : skipSpecial? (Nat.toDigits 10 n ++ tail) = none := by
    obtain ⟨d, cs, happend, hd⟩ := exists_toDigits_append n tail
    rw [skipSpecial?, sign_toDigits, happend]
    dsimp only
    split
    · next heq =>
        cases heq
        cases hd
    · next heq =>
        cases heq
        cases hd
    · rfl
  simp [skipFloat?, hdecimal, hspecial]

theorem skipString?_eq_none (n : Nat) (tail : List Char) :
    skipString? (Nat.toDigits 10 n ++ tail) = none := by
  obtain ⟨d, cs, happend, hd⟩ := exists_toDigits_append n tail
  rw [happend]
  unfold skipString?
  split
  case h_5 => rfl
  all_goals
    next heq =>
      cases heq
      cases hd

theorem toDigits_append_ne (n : Nat) (htail : Stops tail) {x : Char}
    (hx : x ∉ [' ', '\t', '\n', '\r']) (rest : List Char) :
    Nat.toDigits 10 n ++ tail ≠ '0' :: x :: rest := by
  intro heq
  obtain ⟨d, ds, hdigits, hzero⟩ := exists_toDigits_cons n
  rw [hdigits, List.cons_append] at heq
  obtain ⟨hd, heq⟩ := List.cons.inj heq
  obtain rfl := hzero hd
  rw [Nat.toDigits_zero] at hdigits
  obtain ⟨-, rfl⟩ := List.cons.inj hdigits
  rw [List.nil_append] at heq
  subst heq
  exact htail.ne hx rfl

theorem integer_toDigits (n : Nat) (htail : Stops tail) :
    integer (Nat.toDigits 10 n ++ tail) =
      if n < 0x8000000000000000 then some ((n : Int), tail) else none := by
  have hdecimal : decimalInteger (Nat.toDigits 10 n ++ tail) = some ((n : Int), tail) := by
    rw [decimalInteger, sign_toDigits]
    dsimp only
    rw [wholeDigits_toDigits n htail, Option.map_some, ofDigits_toDigits]
    rfl
  have hrange : inRange (n : Int) = decide (n < 0x8000000000000000) := by
    rw [Bool.eq_iff_iff, inRange, Bool.and_eq_true, decide_eq_true_eq, decide_eq_true_eq,
      decide_eq_true_eq]
    omega
  unfold integer
  dsimp only
  split
  · next heq => exact absurd heq (toDigits_append_ne n htail (by decide) _)
  · next heq => exact absurd heq (toDigits_append_ne n htail (by decide) _)
  · next heq => exact absurd heq (toDigits_append_ne n htail (by decide) _)
  · rw [hdecimal, Option.filter_some, hrange]
    simp only [decide_eq_true_eq]

theorem scalar_toDigits (n : Nat) (htail : Stops tail) :
    scalar (Nat.toDigits 10 n ++ tail) =
      if n < 0x8000000000000000 then some (.integer n, tail) else none := by
  have hdigits : ∀ c ∈ Nat.toDigits 10 n, c.isDigit = true := fun c => isDigit_of_mem_toDigits
  obtain ⟨d, cs, happend, hd⟩ := exists_toDigits_append n tail
  unfold scalar
  split
  · next heq =>
      rw [happend] at heq
      cases heq
      cases hd
  · next heq =>
      rw [happend] at heq
      cases heq
      cases hd
  · rw [skipString?_eq_none, skipDateTime?_eq_none hdigits htail, skipFloat?_eq_none n htail,
      integer_toDigits n htail]
    split <;> rfl

end Numerals

theorem value_of_not_opens {cs : List Char} (hbracket : cs.head? ≠ some '[')
    (hbrace : cs.head? ≠ some '\x7b') (depth : Nat) : value depth cs = scalar cs := by
  unfold value
  split
  · exact absurd rfl hbracket
  · exact absurd rfl hbrace
  · rfl

section Keys

variable {k : Key}

theorem isBareKey_of_isBlank {c : Char} (h : isBlank c = true) : isBareKey c = false := by
  simp only [isBlank, Bool.or_eq_true, beq_iff_eq] at h
  rcases h with rfl | rfl <;> rfl

theorem isBlank_of_isBareKey {c : Char} (h : isBareKey c = true) : isBlank c = false := by
  by_contra hblank
  rw [isBareKey_of_isBlank (by simpa using hblank)] at h
  cases h

theorem simpleKey_append (hk : Bare k) {c : Char} (hc : isBareKey c = false) (cs : List Char) :
    simpleKey (k ++ c :: cs) = some (k, c :: cs) := by
  obtain ⟨hne, hbare⟩ := hk
  have htake : (k ++ c :: cs).takeWhile isBareKey = k := by
    rw [List.takeWhile_append_of_pos hbare, List.takeWhile_cons_of_neg (by simp [hc]),
      List.append_nil]
  have hdrop : (k ++ c :: cs).dropWhile isBareKey = c :: cs := by
    rw [List.dropWhile_append_of_pos hbare, List.dropWhile_cons_of_neg (by simp [hc])]
  obtain ⟨d, ds, rfl⟩ := List.exists_cons_of_ne_nil hne
  have hd : isBareKey d = true := hbare d List.mem_cons_self
  unfold simpleKey
  split
  · next heq =>
      obtain ⟨rfl, -⟩ := List.cons.inj heq
      cases hd
  · next heq =>
      obtain ⟨rfl, -⟩ := List.cons.inj heq
      cases hd
  · rw [htake, hdrop]

theorem key_append (hk : Bare k) {before behind : List Char} (hbefore : AllBlank before)
    (hbehind : AllBlank behind) (cs : List Char) :
    key (before ++ (k ++ (behind ++ '=' :: cs))) = some (⟨[], k⟩, '=' :: cs) := by
  have hblanks : skipBlanks (behind ++ '=' :: cs) = '=' :: cs := by
    rw [skipBlanks_append hbehind]
    rfl
  have hkey : skipBlanks (before ++ (k ++ (behind ++ '=' :: cs))) = k ++ (behind ++ '=' :: cs) := by
    obtain ⟨⟨d, ds, rfl⟩, hbare⟩ := And.intro (List.exists_cons_of_ne_nil hk.1) hk.2
    rw [skipBlanks_append hbefore]
    exact skipBlanks_cons (isBlank_of_isBareKey (hbare d List.mem_cons_self)) _
  have hsimple : simpleKey (k ++ (behind ++ '=' :: cs)) = some (k, behind ++ '=' :: cs) := by
    rcases behind with _ | ⟨b, behind⟩
    · exact simpleKey_append hk rfl cs
    · exact simpleKey_append hk (isBareKey_of_isBlank (hbehind b List.mem_cons_self)) _
  change keyPath (78 + 1) _ = _
  rw [keyPath, hkey, hsimple]
  dsimp only
  rw [hblanks]
  rfl

end Keys

theorem LineEnd.stops {ending next : List Char} (h : LineEnd ending next) : Stops ending := by
  cases h with
  | feed next =>
      rintro c ⟨⟩
      decide
  | returnFeed next =>
      rintro c ⟨⟩
      decide
  | last =>
      intro c hc
      cases hc

theorem stops_append {blanks ending : List Char} (hblanks : AllBlank blanks)
    (hending : Stops ending) : Stops (blanks ++ ending) := by
  rcases blanks with _ | ⟨b, blanks⟩
  · exact hending
  · rintro c ⟨⟩
    have hb := hblanks b List.mem_cons_self
    simp only [isBlank, Bool.or_eq_true, beq_iff_eq] at hb
    rcases hb with rfl | rfl <;> decide

theorem LineEnd.length_le {ending next : List Char} (h : LineEnd ending next) :
    next.length ≤ ending.length := by
  cases h with
  | feed next => exact Nat.le_succ _
  | returnFeed next => exact Nat.le_trans (Nat.le_succ _) (Nat.le_succ _)
  | last => exact Nat.le_refl _

theorem finishLine?_append {blanks ending next : List Char} (hblanks : AllBlank blanks)
    (h : LineEnd ending next) : finishLine? (blanks ++ ending) = some next := by
  rw [finishLine?, skipBlanks_append hblanks]
  cases h <;> rfl

/-- The text of a value: what is read of it in front of anything that stops it. It starts with
neither a blank nor a bracket. -/
structure Reads (text : List Char) (r : Option Value) : Prop where
  starts : ∃ c cs, text = c :: cs ∧ isBlank c = false ∧ c ≠ '[' ∧ c ≠ '\x7b'
  scalar : ∀ tail, Stops tail → scalar (text ++ tail) = r.map fun v => (v, tail)

theorem reads_boolean (b : Bool) : Reads (toString b).toList (some (.boolean b)) := by
  cases b with
  | false => exact ⟨⟨'f', ['a', 'l', 's', 'e'], rfl, rfl, by decide, by decide⟩, fun tail _ => rfl⟩
  | true => exact ⟨⟨'t', ['r', 'u', 'e'], rfl, rfl, by decide, by decide⟩, fun tail _ => rfl⟩

theorem reads_integer (n : Nat) :
    Reads (toString n).toList (if n < 0x8000000000000000 then some (.integer n) else none) := by
  rw [Nat.toString_eq_ofList_toDigits, String.toList_ofList]
  constructor
  · obtain ⟨d, cs, happend, hd⟩ := exists_toDigits_append n []
    rw [List.append_nil] at happend
    refine ⟨d, cs, happend, ?_, ?_, ?_⟩
    · exact isBlank_of_isBareKey (by simp [isBareKey, Char.isAlphanum, hd])
    · rintro rfl
      cases hd
    · rintro rfl
      cases hd
  · intro tail htail
    rw [scalar_toDigits n htail]
    split <;> rfl

theorem skipMark_assigns {k : Key} (hk : Bare k) {text line : List Char}
    (hline : Assigns k text line) (rest : List Char) : skipMark (line ++ rest) = line ++ rest := by
  have hhead : (line ++ rest).head? ≠ some '\uFEFF' := by
    obtain @⟨before, beforeSign, afterSign, behind, hbefore, -, -, -⟩ := hline
    obtain ⟨d, ds, rfl⟩ := List.exists_cons_of_ne_nil hk.1
    rcases before with _ | ⟨b, before⟩
    · rintro ⟨⟩
      cases hk.2 _ List.mem_cons_self
    · rintro ⟨⟩
      cases hbefore _ List.mem_cons_self
  unfold skipMark
  split
  · next heq =>
      rw [heq] at hhead
      exact absurd rfl hhead
  · rfl

theorem finishLine?_bare {c : Char} (hc : isBareKey c = true) (cs : List Char) :
    finishLine? (c :: cs) = none := by
  rw [finishLine?, skipBlanks_cons (isBlank_of_isBareKey hc)]
  unfold skipComment
  split
  · next heq =>
      cases heq
      cases hc
  · unfold endOfLine? newline?
    split
    · next heq => cases heq
    · split
      · next heq =>
          cases heq
          cases hc
      · next heq =>
          cases heq
          cases hc
      · rfl

namespace Document

theorem assign_bare {es : Entries} {k : Key} (h : es.lookup k = none) (v : Value) :
    assign ⟨es, []⟩ ⟨[], k⟩ v = some ⟨es ++ [(k, .value v)], []⟩ := by
  simp [assign, Entries.descend, Entries.assign, Entries.add, h]

theorem statement_bare {d : Document} {c : Char} (hc : isBareKey c = true) (cs : List Char) :
    d.statement (c :: cs) =
      match assignment (value (nestingBound - 1)) (c :: cs) with
      | some ((path, v), rest) => (d.assign path v).map fun d => (d, rest)
      | none => none := by
  unfold statement
  split
  · next heq =>
      cases heq
      cases hc
  · next heq =>
      cases heq
      cases hc
  · rfl

end Document

theorem assignment_bare {k : Key} (hk : Bare k) {text : List Char} {r : Option Value}
    (htext : Reads text r) {beforeSign afterSign tail : List Char}
    (hbeforeSign : AllBlank beforeSign) (hafterSign : AllBlank afterSign) (htail : Stops tail)
    (depth : Nat) :
    assignment (value depth) (k ++ (beforeSign ++ '=' :: (afterSign ++ (text ++ tail)))) =
      r.map fun v => ((⟨[], k⟩, v), tail) := by
  have hkey := @key_append k hk [] beforeSign (by simp [AllBlank]) hbeforeSign
    (afterSign ++ (text ++ tail))
  rw [List.nil_append] at hkey
  obtain ⟨c, cs, hcons, hblank, hbracket, hbrace⟩ := htext.starts
  have hskip : skipBlanks (afterSign ++ (text ++ tail)) = text ++ tail := by
    rw [skipBlanks_append hafterSign, hcons]
    exact skipBlanks_cons hblank _
  have hvalue : value depth (text ++ tail) = scalar (text ++ tail) := by
    rw [hcons]
    exact value_of_not_opens (by simpa using hbracket) (by simpa using hbrace) depth
  rw [assignment, hkey]
  change Option.map _ (value depth (skipBlanks (afterSign ++ (text ++ tail)))) = _
  rw [hskip, hvalue, htext.scalar tail htail, Option.map_map]
  rfl

/-- Reading goes on behind a line that assigns a value to a new key, and ends where the value
cannot be read. -/
theorem Document.lines_assigns {es : Entries} {k : Key} (hk : Bare k) (hnew : es.lookup k = none)
    {text line ending next : List Char} {r : Option Value} (htext : Reads text r)
    (hline : Assigns k text line) (hending : LineEnd ending next) :
    lines ⟨es, []⟩ (line ++ ending) =
      r.bind fun v => lines ⟨es ++ [(k, .value v)], []⟩ next := by
  obtain @⟨before, beforeSign, afterSign, behind, hbefore, hbeforeSign, hafterSign, hbehind⟩ :=
    hline
  obtain ⟨d, ds, rfl⟩ := List.exists_cons_of_ne_nil hk.1
  have hd : isBareKey d = true := hk.2 d List.mem_cons_self
  have htail : Stops (behind ++ ending) := stops_append hbehind hending.stops
  have hassignment := assignment_bare hk htext hbeforeSign hafterSign htail (nestingBound - 1)
  simp only [List.append_assoc, List.cons_append] at hassignment ⊢
  generalize hrest : ds ++ (beforeSign ++ '=' :: (afterSign ++ (text ++ (behind ++ ending)))) = rest
    at hassignment ⊢
  have hskip : skipBlanks (before ++ d :: rest) = d :: rest := by
    rw [skipBlanks_append hbefore, skipBlanks_cons (isBlank_of_isBareKey hd)]
  rw [lines, hskip]
  dsimp only
  rw [finishLine?_bare hd, statement_bare hd, hassignment]
  rcases r with _ | v
  · rfl
  · have hlength : next.length < (before ++ d :: rest).length := by
      have hle := hending.length_le
      rw [← hrest]
      simp only [List.length_append, List.length_cons]
      omega
    simp only [Option.map_some, assign_bare hnew, finishLine?_append hbehind hending]
    exact if_pos hlength

end StatementLexer.Toml
