import StatementLexer.Proofs.Report
import StatementLexer.Proofs.Tiling

namespace StatementLexer

/-- The second text is the first with whitespace written before some of its line feeds. -/
inductive Padded : Bytes → Bytes → Prop
  | nil : Padded [] []
  | byte {c : UInt8} {s t : Bytes} (hc : c ≠ Byte.lineFeed) (hrest : Padded s t) :
      Padded (c :: s) (c :: t)
  | lineFeed {w s t : Bytes} (hw : ∀ c ∈ w, Byte.isWhitespace c = true) (hrest : Padded s t) :
      Padded (Byte.lineFeed :: s) (w ++ Byte.lineFeed :: t)

theorem lineFeed_not_mem_whitespace {w : Bytes} (hw : ∀ c ∈ w, Byte.isWhitespace c = true) :
    Byte.lineFeed ∉ w := by
  intro hmem
  cases hw _ hmem

namespace Padded

theorem refl (s : Bytes) : Padded s s := by
  induction s with
  | nil => exact .nil
  | cons c s ih =>
      rcases eq_or_ne c Byte.lineFeed with rfl | hc
      · exact .lineFeed (w := []) (by simp) ih
      · exact .byte hc ih

theorem past {s t : Bytes} (h : Padded s t) (p : Position) : p.past t = p.past s := by
  induction h generalizing p with
  | nil => rfl
  | byte hc hrest ih => exact ih _
  | lineFeed hw hrest ih =>
      have hfree := lineFeed_not_mem_whitespace hw
      rw [Position.past_append, Position.past_of_not_mem hfree]
      exact ih _

theorem count {s t : Bytes} (h : Padded s t) :
    t.count Byte.lineFeed = s.count Byte.lineFeed := by
  induction h with
  | nil => rfl
  | byte hc hrest ih => rw [List.count_cons_of_ne hc, List.count_cons_of_ne hc, ih]
  | lineFeed hw hrest ih =>
      have hfree := List.count_eq_zero.mpr (lineFeed_not_mem_whitespace hw)
      rw [List.count_append, hfree, List.count_cons_self, List.count_cons_self, ih, Nat.zero_add]

theorem eq_of_not_mem {s t : Bytes} (h : Padded s t) (hs : Byte.lineFeed ∉ s) : t = s := by
  induction h with
  | nil => rfl
  | byte hc hrest ih => rw [ih fun hmem => hs (List.mem_cons_of_mem _ hmem)]
  | lineFeed hw hrest ih => exact absurd List.mem_cons_self hs

theorem append {s t s' t' : Bytes} (h : Padded s t) (h' : Padded s' t') :
    Padded (s ++ s') (t ++ t') := by
  induction h with
  | nil => exact h'
  | byte hc hrest ih => exact .byte hc ih
  | lineFeed hw hrest ih =>
      rw [List.append_assoc]
      exact .lineFeed hw ih

theorem exists_of_append {s s' t : Bytes} (h : Padded (s ++ s') t) :
    ∃ u v, t = u ++ v ∧ Padded s u ∧ Padded s' v := by
  induction s generalizing t with
  | nil => exact ⟨[], t, rfl, .nil, h⟩
  | cons c s ih =>
      rcases h with _ | ⟨hc, hrest⟩ | ⟨hw, hrest⟩
      · obtain ⟨u, v, rfl, hu, hv⟩ := ih hrest
        exact ⟨c :: u, v, rfl, .byte hc hu, hv⟩
      · obtain ⟨u, v, rfl, hu, hv⟩ := ih hrest
        exact ⟨_, v, by simp, .lineFeed hw hu, hv⟩

theorem exists_of_lineFeed {t : Bytes} (h : Padded [Byte.lineFeed] t) :
    ∃ w, (∀ c ∈ w, Byte.isWhitespace c = true) ∧ t = w ++ [Byte.lineFeed] := by
  rcases h with _ | ⟨hc, -⟩ | ⟨hw, hrest⟩
  · exact absurd rfl hc
  · cases hrest
    exact ⟨_, hw, rfl⟩

theorem exists_of_cons {c : UInt8} {s t : Bytes} (hc : c ≠ Byte.lineFeed)
    (h : Padded (c :: s) t) : ∃ u, Padded s u ∧ t = c :: u := by
  rcases h with _ | ⟨-, hrest⟩ | ⟨-, hrest⟩
  · exact ⟨_, hrest, rfl⟩
  · exact absurd rfl hc

theorem head?_eq {s t rest : Bytes} {c : UInt8} (h : Padded s t) (hc : Byte.isBlank c = false)
    (hhead : (t ++ rest).head? = some c) : (s ++ rest).head? = some c := by
  rcases h with _ | ⟨hb, hrest⟩ | @⟨w, s, t, hw, hrest⟩
  · exact hhead
  · exact hhead
  · rcases w with _ | ⟨a, w⟩
    · exact hhead
    · obtain rfl : a = c := by simpa using hhead
      have ha := hw a List.mem_cons_self
      simp [Byte.isBlank, ha] at hc

theorem admissible {s t : Bytes} (h : Padded s t) (ht : Admissible t) : Admissible s := by
  apply Position.admissible_iff.mpr
  rintro before ⟨after, rfl⟩
  obtain ⟨u, v, rfl, hu, -⟩ := h.exists_of_append
  rw [← hu.past]
  exact Position.admissible_iff.mp ht u (List.prefix_append _ _)

end Padded

namespace Lexeme

def isString : Lexeme → Bool
  | .quoted .. => true
  | .openQuoted .. => true
  | _ => false

/-- A source of the given units, with whitespace written before line feeds that are in no
string. -/
inductive Respaced : List Lexeme → Bytes → Prop
  | nil : Respaced [] []
  | string {l : Lexeme} {ls : List Lexeme} {text : Bytes} (hl : l.isString = true)
      (hrest : Respaced ls text) : Respaced (l :: ls) (l.bytes ++ text)
  | other {l : Lexeme} {ls : List Lexeme} {part text : Bytes} (hl : l.isString = false)
      (hpart : Padded l.bytes part) (hrest : Respaced ls text) :
      Respaced (l :: ls) (part ++ text)

theorem Respaced.padded {ls : List Lexeme} {text : Bytes} (h : Respaced ls text) :
    Padded (ls.flatMap bytes) text := by
  induction h with
  | nil => exact .nil
  | string hl hrest ih => exact (Padded.refl _).append ih
  | other hl hpart hrest ih => exact hpart.append ih

theorem respaced_refl (ls : List Lexeme) : Respaced ls (ls.flatMap bytes) := by
  induction ls with
  | nil => exact .nil
  | cons l ls ih =>
      cases hl : l.isString with
      | true => exact .string hl ih
      | false => exact .other hl (Padded.refl _) ih

theorem Respaced.append {ls ms : List Lexeme} {s t : Bytes} (h : Respaced ls s)
    (h' : Respaced ms t) : Respaced (ls ++ ms) (s ++ t) := by
  induction h with
  | nil => exact h'
  | string hl hrest ih =>
      rw [List.append_assoc]
      exact .string hl ih
  | other hl hpart hrest ih =>
      rw [List.append_assoc]
      exact .other hl hpart ih

theorem lineFeed_not_mem_bytes {l : Lexeme} (hl : l.WellFormed) (hstring : l.isString = false) :
    Byte.lineFeed ∉ l.bytes ∨ l = .lineBreak ∨ (∃ text, l = .blockComment text) ∨
      ∃ text, l = .openComment text := by
  rcases l with _ | b | text | text | text | _ | _ | digits | k | text
  case lineBreak => exact .inr (.inl rfl)
  case blockComment => exact .inr (.inr (.inl ⟨text, rfl⟩))
  case openComment => exact .inr (.inr (.inr ⟨text, rfl⟩))
  case quoted => cases hstring
  case openQuoted => cases hstring
  all_goals
    left
    intro hmem
  case blank =>
    obtain rfl : Byte.lineFeed = b := by simpa [bytes] using hmem
    cases hl
  case lineComment =>
    apply hl
    simpa [bytes, show Byte.lineFeed ≠ Byte.slash by decide] using hmem
  case number => cases hl.2 _ hmem
  case symbol =>
    rcases mem_operators_or_mem_keywords hl with hk | hk
    · cases Kind.tables.operator_bytes k hk _ hmem
    · cases Kind.tables.keyword_bytes k hk _ hmem
  case name =>
    rcases text with _ | ⟨b, tail⟩
    · cases hmem
    · obtain ⟨hb, htail, -⟩ := hl
      rcases List.mem_cons.mp hmem with rfl | hmem
      · cases hb
      · cases htail _ hmem

theorem closing_infix_of_isBlank {w rest : Bytes} (hw : ∀ c ∈ w, Byte.isBlank c = true)
    (h : closing <:+: w ++ rest) : closing <:+: rest := by
  induction w with
  | nil => exact h
  | cons c w ih =>
      rw [List.forall_mem_cons] at hw
      rw [List.cons_append, closing_infix_cons] at h
      rcases h with ⟨rfl, -⟩ | h
      · cases hw.1
      · exact ih hw.2 h

theorem closing_infix_of_padded {s t rest : Bytes} (h : Padded s t)
    (hclosing : closing <:+: t ++ rest) : closing <:+: s ++ rest := by
  induction h with
  | nil => exact hclosing
  | byte hc hrest ih =>
      rw [List.cons_append, closing_infix_cons] at hclosing ⊢
      rcases hclosing with ⟨hasterisk, hslash⟩ | hclosing
      · exact .inl ⟨hasterisk, hrest.head?_eq rfl hslash⟩
      · exact .inr (ih hclosing)
  | @lineFeed w s t hw hrest ih =>
      have hblank : ∀ c ∈ w ++ [Byte.lineFeed], Byte.isBlank c = true := by
        intro c hc
        rcases List.mem_append.mp hc with hc | hc
        · simp [Byte.isBlank, hw c hc]
        · rw [List.mem_singleton.mp hc]
          rfl
      rw [List.append_cons, List.append_assoc] at hclosing
      have hmark := ih (closing_infix_of_isBlank hblank hclosing)
      exact hmark.trans (List.suffix_cons _ _).isInfix

theorem lineBreaks_of_padded {s t : Bytes} (h : Padded s t) (line : Nat) :
    lineBreaks line t = lineBreaks line s := by
  rw [lineBreaks, h.count, lineBreaks]

/-- A unit `m` behind whitespace `w` that stands for `l` where `l` is written as `part`. -/
structure Respelled (l : Lexeme) (part w : Bytes) (m : Lexeme) : Prop where
  whitespace : ∀ c ∈ w, Byte.isWhitespace c = true
  bytes : part = w ++ m.bytes
  wellFormed : m.WellFormed
  takes : m.takes = l.takes
  head : m.bytes.head? = l.bytes.head?
  lineBreak : w = [] ∨ l = .lineBreak
  signals : ∀ p : Position,
    m.signals (p.past w) (p.past part) = l.signals p (p.past l.bytes)

theorem respelled_self {l : Lexeme} (hl : l.WellFormed) : Respelled l l.bytes [] l := by
  refine ⟨?_, rfl, hl, rfl, rfl, .inl rfl, fun p => rfl⟩
  intro c hc
  cases hc

theorem exists_respelled {l : Lexeme} {part : Bytes} (hl : l.WellFormed)
    (hstring : l.isString = false) (hpart : Padded l.bytes part) :
    ∃ w m, Respelled l part w m := by
  have hempty : ∀ c ∈ ([] : Bytes), Byte.isWhitespace c = true := by simp
  rcases lineFeed_not_mem_bytes hl hstring with hfree | rfl | ⟨text, rfl⟩ | ⟨text, rfl⟩
  · obtain rfl := hpart.eq_of_not_mem hfree
    exact ⟨[], l, respelled_self hl⟩
  · obtain ⟨w, hw, rfl⟩ := hpart.exists_of_lineFeed
    refine ⟨w, .lineBreak, hw, rfl, trivial, rfl, rfl, .inr rfl, ?_⟩
    intro p
    rw [hpart.past]
    rfl
  · obtain ⟨r, hr, rfl⟩ := hpart.exists_of_cons (by decide)
    obtain ⟨u, hu, rfl⟩ := hr.exists_of_cons (by decide)
    obtain ⟨v, close, rfl, hv, hclose⟩ := hu.exists_of_append
    obtain rfl : close = closing := hclose.eq_of_not_mem (by decide)
    refine ⟨[], .blockComment v, hempty, rfl, ?_, rfl, rfl, .inl rfl, ?_⟩
    · intro hclosing
      exact hl (closing_infix_of_padded hv hclosing)
    · intro p
      exact lineBreaks_of_padded hv _
  · obtain ⟨r, hr, rfl⟩ := hpart.exists_of_cons (by decide)
    obtain ⟨u, hu, rfl⟩ := hr.exists_of_cons (by decide)
    refine ⟨[], .openComment u, hempty, rfl, ?_, rfl, rfl, .inl rfl, ?_⟩
    · intro hclosing
      have hmark := @closing_infix_of_padded _ _ [] hu
      simp only [List.append_nil] at hmark
      exact hl (hmark hclosing)
    · intro p
      exact congrArg (· ++ _) (lineBreaks_of_padded hu _)

theorem tiles_blanks {w : Bytes} (hw : ∀ c ∈ w, Byte.isWhitespace c = true) (rest : Bytes) :
    Tiles (w.map .blank) rest := by
  induction w with
  | nil => trivial
  | cons c w ih =>
      rw [List.forall_mem_cons] at hw
      exact ⟨hw.1, fun _ _ => rfl, ih hw.2⟩

@[simp] theorem flatMap_bytes_blanks (w : Bytes) : (w.map blank).flatMap bytes = w := by
  rw [List.flatMap_map]
  exact List.flatMap_singleton' w

theorem report_blanks (p : Position) (w : Bytes) (ls : List Lexeme) :
    report p (w.map .blank ++ ls) = report (p.past w) ls := by
  rw [report_append, flatMap_bytes_blanks]
  suffices h : report p (w.map .blank) = [] by rw [h, List.nil_append]
  induction w generalizing p with
  | nil => rfl
  | cons c w ih => exact ih _

theorem head?_flatMap_bytes {l : Lexeme} (hl : l.WellFormed) (ls : List Lexeme) :
    ((l :: ls).flatMap bytes).head? = l.bytes.head? := by
  obtain ⟨b, tail, hbytes⟩ := List.exists_cons_of_ne_nil (bytes_ne_nil hl)
  rw [List.flatMap_cons, hbytes]
  rfl

/-- The units `ms` behind whitespace `w` that make up `text` and report what `ls` do. A line
comment in front of them takes the whitespace, any other unit leaves it as blanks. -/
structure Reread (ls : List Lexeme) (text w : Bytes) (ms : List Lexeme) : Prop where
  whitespace : ∀ c ∈ w, Byte.isWhitespace c = true
  bytes : text = w ++ ms.flatMap bytes
  tiles : Tiles ms []
  head : (ms.flatMap Lexeme.bytes).head? = (ls.flatMap Lexeme.bytes).head?
  lineFeed : w = [] ∨ (ls.flatMap Lexeme.bytes).head? = some Byte.lineFeed
  report : ∀ p : Position, report (p.past w) ms = report p ls

namespace Reread

variable {l : Lexeme} {ls ms : List Lexeme} {text w : Bytes}

theorem ends {p : UInt8 → Bool} (h : Reread ls text w ms)
    (hends : Ends p (ls.flatMap Lexeme.bytes)) : Ends p (ms.flatMap Lexeme.bytes) := by
  intro c hc
  rw [h.head] at hc
  exact hends c hc

theorem ends_append (h : Reread ls text w ms) (hcomment : ∀ t, l ≠ .lineComment t)
    (hends : Ends l.takes (ls.flatMap Lexeme.bytes)) :
    Ends l.takes (w ++ ms.flatMap Lexeme.bytes) := by
  rcases w with _ | ⟨c, w⟩
  · exact h.ends hends
  · rcases h.lineFeed with hnil | hhead
    · cases hnil
    · have htakes := hends _ hhead
      have hopen : l.isOpen = false := by
        cases hopen : l.isOpen with
        | false => rfl
        | true =>
            rw [takes_of_isOpen hopen] at htakes
            cases htakes
      have hc := h.whitespace c List.mem_cons_self
      apply ends_cons.mpr
      apply takes_of_isBlank hopen
      · simp [Byte.isBlank, hc]
      · intro t ht
        exact absurd ht (hcomment t)

theorem cons_lineComment {t : Bytes} (h : Reread ls text w ms)
    (htiles : Tiles (.lineComment t :: ls) []) :
    Reread (.lineComment t :: ls) ((lineComment t).bytes ++ text) []
      (.lineComment (t ++ w) :: ms) := by
  obtain ⟨hfree, hends, -⟩ := htiles
  rw [List.append_nil] at hends
  refine ⟨by simp, ?_, ⟨?_, ?_, h.tiles⟩, rfl, .inl rfl, ?_⟩
  · simp [h.bytes, Lexeme.bytes]
  · intro hmem
    rcases List.mem_append.mp hmem with hmem | hmem
    · exact hfree hmem
    · exact lineFeed_not_mem_whitespace h.whitespace hmem
  · rw [List.append_nil]
    exact h.ends hends
  · intro p
    have hpast : p.past (lineComment (t ++ w)).bytes = (p.past (lineComment t).bytes).past w := by
      rw [← Position.past_append]
      rfl
    change Lexeme.report (p.past (lineComment (t ++ w)).bytes) ms = Lexeme.report _ ls
    rw [hpast, h.report]

theorem cons_respelled {part v : Bytes} {m : Lexeme} (h : Reread ls text w ms)
    (hm : Respelled l part v m) (hpart : Padded l.bytes part) (hcomment : ∀ t, l ≠ .lineComment t)
    (htiles : Tiles (l :: ls) []) :
    Reread (l :: ls) (part ++ text) v (m :: (w.map .blank ++ ms)) := by
  obtain ⟨hl, hends, -⟩ := htiles
  rw [List.append_nil] at hends
  refine ⟨hm.whitespace, ?_, ⟨hm.wellFormed, ?_, ?_⟩, ?_, ?_, ?_⟩
  · simp [h.bytes, hm.bytes]
  · rw [List.append_nil, List.flatMap_append, flatMap_bytes_blanks, hm.takes]
    exact h.ends_append hcomment hends
  · exact tiles_append.mpr ⟨tiles_blanks h.whitespace _, h.tiles⟩
  · rw [head?_flatMap_bytes hm.wellFormed, head?_flatMap_bytes hl, hm.head]
  · rcases hm.lineBreak with hv | rfl
    · exact .inl hv
    · exact .inr rfl
  · intro p
    have hpast : (p.past v).past m.bytes = p.past part := by
      rw [← Position.past_append, ← hm.bytes]
    rw [Lexeme.report, hpast, report_blanks, hm.signals, hpart.past, h.report]
    rfl

end Reread

theorem exists_reread {ls : List Lexeme} {text : Bytes} (h : Respaced ls text)
    (htiles : Tiles ls []) : ∃ w ms, Reread ls text w ms := by
  induction h with
  | nil => exact ⟨[], [], by simp, rfl, trivial, rfl, .inl rfl, fun p => rfl⟩
  | @string l ls text hl hrest ih =>
      obtain ⟨w, ms, hms⟩ := ih htiles.2.2
      refine ⟨_, _, hms.cons_respelled (respelled_self htiles.1) (Padded.refl _) ?_ htiles⟩
      rintro t rfl
      cases hl
  | @other l ls part text hl hpart hrest ih =>
      obtain ⟨w, ms, hms⟩ := ih htiles.2.2
      by_cases hcomment : ∃ t, l = .lineComment t
      · obtain ⟨t, rfl⟩ := hcomment
        have hfree : Byte.lineFeed ∉ (lineComment t).bytes := by
          simpa using lineFeed_not_mem_bytes htiles.1 hl
        obtain rfl := hpart.eq_of_not_mem hfree
        -- Its own bytes are as before, but it takes the whitespace of the line feed behind it.
        exact ⟨_, _, hms.cons_lineComment htiles⟩
      · obtain ⟨v, m, hm⟩ := exists_respelled htiles.1 hl hpart
        exact ⟨_, _, hms.cons_respelled hm hpart (not_exists.mp hcomment) htiles⟩

/-- Whitespace before line feeds outside strings changes nothing that is reported. -/
theorem report_of_respaced {ls : List Lexeme} {text : Bytes} (h : Respaced ls text)
    (htiles : Tiles ls []) (p : Position) : report p (split text) = report p ls := by
  obtain ⟨w, ms, hms⟩ := exists_reread h htiles
  have hsplit : split text = w.map .blank ++ ms := by
    apply split_eq_iff.mpr
    refine ⟨by simp [hms.bytes], ?_⟩
    exact tiles_append.mpr ⟨tiles_blanks hms.whitespace _, hms.tiles⟩
  rw [hsplit, report_blanks, hms.report]

end Lexeme

open Lexeme

theorem admissible_of_respaced {source text : Bytes} (h : Respaced (split source) text)
    (htext : Admissible text) : Admissible source := by
  have hpadded := h.padded
  rw [flatMap_bytes_split] at hpadded
  exact hpadded.admissible htext

theorem rawTokens_of_respaced {source text : Bytes} (h : Respaced (split source) text)
    (htext : Admissible text) : rawTokens text = rawTokens source := by
  have hsource := admissible_of_respaced h htext
  rw [rawTokens_of_admissible htext, rawTokens_of_admissible hsource, tokensFrom, tokensFrom,
    report_of_respaced h (tiles_split source)]

end StatementLexer
