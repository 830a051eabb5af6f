import StatementLexer.Proofs.Comment
import StatementLexer.Proofs.SourceMap

namespace StatementLexer

namespace Lexeme

theorem tiles_append_of_ne_nil {ls : List Lexeme} {rest : Bytes} (h : Tiles ls rest)
    (hne : rest ≠ []) (b : Bytes) : Tiles ls (rest ++ b) := by
  induction ls with
  | nil => trivial
  | cons l ls ih =>
      obtain ⟨hl, hends, hls⟩ := h
      refine ⟨hl, ?_, ih hls⟩
      rw [← List.append_assoc]
      apply (ends_append_of_ne_nil ?_ b).mpr hends
      simp [hne]

theorem tiles_nil {ls : List Lexeme} {rest : Bytes} (h : Tiles ls rest) : Tiles ls [] := by
  induction ls with
  | nil => trivial
  | cons l ls ih =>
      obtain ⟨hl, hends, hls⟩ := h
      refine ⟨hl, ?_, ih hls⟩
      rw [List.append_nil]
      rcases htext : ls.flatMap bytes with _ | ⟨c, text⟩
      · exact ends_nil _
      · rw [htext] at hends
        exact ends_cons.mpr (ends_cons.mp hends)

theorem split_append_of_concat {a : Bytes} {ls : List Lexeme} {l : Lexeme}
    (h : split a = ls ++ [l]) (b : Bytes) : split (a ++ b) = ls ++ split (l.bytes ++ b) := by
  obtain ⟨rfl, htiles⟩ := split_eq_iff.mp h
  obtain ⟨hls, hl⟩ := tiles_append.mp htiles
  have hne : l.bytes ≠ [] := bytes_ne_nil hl.1
  simp only [List.flatMap_singleton, List.append_nil] at hls
  rw [List.flatMap_append, List.flatMap_singleton, List.append_assoc]
  exact split_append (tiles_append_of_ne_nil hls hne b)

theorem split_flatMap_of_concat {source : Bytes} {ls : List Lexeme} {l : Lexeme}
    (h : split source = ls ++ [l]) : split (ls.flatMap bytes) = ls := by
  obtain ⟨-, htiles⟩ := split_eq_iff.mp h
  exact split_eq_iff.mpr ⟨rfl, tiles_nil (tiles_append.mp htiles).1⟩

theorem lineBreaks_isPrefix {text text' : Bytes}
    (h : text.count Byte.lineFeed ≤ text'.count Byte.lineFeed) (line : Nat) :
    lineBreaks line text <+: lineBreaks line text' := by
  have hrange : List.range (text.count Byte.lineFeed) <+:
      List.range (text'.count Byte.lineFeed) := by
    rw [← Nat.min_eq_left h, ← List.take_range]
    exact List.take_prefix _ _
  exact hrange.map _

theorem tokensFrom_isPrefix_of_ends {l : Lexeme} (hl : l.WellFormed) {b : Bytes}
    (hends : Ends l.takes b) (p : Position) :
    tokensFrom p [l] <+: tokensFrom p (split (l.bytes ++ b)) := by
  have hsplit := @split_append [l] b ⟨hl, hends, trivial⟩
  rw [List.flatMap_singleton] at hsplit
  rw [hsplit, tokensFrom_append]
  exact List.prefix_append _ _

theorem isPrefix_of_closeComment? {text b text' rest : Bytes} (h : ¬ closing <:+: text)
    (hclose : closeComment? (text ++ b) = some (text', rest)) : text <+: text' ++ closing := by
  have hbytes : text' ++ closing ++ rest = text ++ b := closeComment?_bytes hclose
  have hclosed : text' ++ closing <+: text ++ b := hbytes ▸ List.prefix_append _ _
  rcases List.prefix_or_prefix_of_prefix (List.prefix_append text b) hclosed with hle | hle
  · exact hle
  · exact absurd ((List.suffix_append _ _).isInfix.trans hle.isInfix) h

theorem exists_split_openComment {text : Bytes} (h : ¬ closing <:+: text) (b : Bytes) :
    ∃ l ls, split ((openComment text).bytes ++ b) = l :: ls ∧ l.isComment = true ∧
      (openComment text).bytes <+: l.bytes := by
  have hsplit : split ((openComment text).bytes ++ b) =
      (slash (Byte.asterisk :: (text ++ b))).1 :: split (slash (Byte.asterisk :: (text ++ b))).2 :=
    split_cons Byte.slash (Byte.asterisk :: (text ++ b))
  rw [hsplit, slash, if_neg (by decide), if_pos rfl]
  rcases hclose : closeComment? (text ++ b) with _ | ⟨text', rest⟩
  · exact ⟨_, _, rfl, rfl, List.prefix_append _ b⟩
  · have htext := isPrefix_of_closeComment? h hclose
    exact ⟨_, _, rfl, rfl, (List.prefix_cons_inj _).mpr ((List.prefix_cons_inj _).mpr htext)⟩

theorem tokensFrom_openComment_isPrefix {text : Bytes} (h : ¬ closing <:+: text) (b : Bytes)
    (p : Position) :
    tokensFrom p [openComment text] <+: tokensFrom p (split ((openComment text).bytes ++ b)) := by
  obtain ⟨l, ls, hsplit, hcomment, hbytes⟩ := exists_split_openComment h b
  have htiles := tiles_split ((openComment text).bytes ++ b)
  rw [hsplit] at htiles
  rw [hsplit, tokensFrom_cons, tokensFrom_cons, tokensFrom_nil, List.append_nil,
    tokens_signals_of_isComment htiles.1 hcomment,
    tokens_signals_of_isComment (l := .openComment text) h rfl]
  have hbreaks := lineBreaks_isPrefix (hbytes.sublist.count_le Byte.lineFeed) p.line
  exact (hbreaks.filterMap _).trans (List.prefix_append _ _)

theorem tokensFrom_isPrefix_of_not_isToken {l : Lexeme} (hl : l.WellFormed)
    (htoken : l.isToken = false) (b : Bytes) (p : Position) :
    tokensFrom p [l] <+: tokensFrom p (split (l.bytes ++ b)) := by
  cases l with
  | lineBreak => exact tokensFrom_isPrefix_of_ends hl (fun _ _ => rfl) p
  | blank c => exact List.nil_prefix
  | lineComment text => exact List.nil_prefix
  | blockComment text => exact tokensFrom_isPrefix_of_ends hl (fun _ _ => rfl) p
  | openComment text => exact tokensFrom_openComment_isPrefix hl b p
  | openQuoted q text => exact List.nil_prefix
  | quoted q text => cases htoken
  | number digits => cases htoken
  | symbol k => cases htoken
  | name text => cases htoken

theorem exists_tokensFrom_of_isToken {l : Lexeme} (htoken : l.isToken = true) (p : Position) :
    ∃ t, tokensFrom p [l] = [t] := by
  cases l with
  | quoted q text => exact ⟨_, rfl⟩
  | number digits => exact ⟨_, rfl⟩
  | symbol k => exact ⟨_, rfl⟩
  | name text => exact ⟨_, rfl⟩
  | _ => cases htoken

theorem isBlank_of_getLast? {l : Lexeme} (hl : l.WellFormed) (htoken : l.isToken = true) {c : UInt8}
    (hc : l.bytes.getLast? = some c) : Byte.isBlank c = false := by
  have hmem : c ∈ l.bytes := List.mem_of_getLast? hc
  apply Bool.eq_false_iff.mpr
  intro hblank
  cases l with
  | quoted q text =>
      rw [bytes, ← List.cons_append, List.getLast?_concat, Option.some.injEq] at hc
      subst hc
      cases q <;> contradiction
  | number digits =>
      have hbyte := hl.2 c hmem
      simp [isDigit_of_isBlank hblank] at hbyte
  | symbol k =>
      rcases mem_operators_or_mem_keywords hl with hk | hk
      · have hbyte := Kind.tables.operator_bytes k hk c hmem
        simp [hblank] at hbyte
      · have hbyte := Kind.tables.keyword_bytes k hk c hmem
        simp [isIdentContinue_of_isBlank hblank] at hbyte
  | name text =>
      rcases text with _ | ⟨b, tail⟩
      · exact absurd hl id
      · obtain ⟨hb, htail, -⟩ := hl
        rcases List.mem_cons.mp hmem with rfl | hmem
        · simp [startsName_of_isBlank hblank] at hb
        · have hbyte := htail c hmem
          simp [isIdentContinue_of_isBlank hblank] at hbyte
  | _ => cases htoken

theorem not_isToken_of_isBlank {ls : List Lexeme} {l : Lexeme} (hl : l.WellFormed)
    (h : ∀ c ∈ ((ls ++ [l]).flatMap bytes).getLast?, Byte.isBlank c = true) :
    l.isToken = false := by
  apply Bool.eq_false_iff.mpr
  intro htoken
  rcases List.eq_nil_or_concat' l.bytes with hnil | ⟨text, c, hbytes⟩
  · exact bytes_ne_nil hl hnil
  · have hcontent := isBlank_of_getLast? hl htoken (hbytes ▸ List.getLast?_concat)
    have hlast : ((ls ++ [l]).flatMap bytes).getLast? = some c := by
      rw [List.flatMap_append, List.flatMap_singleton, hbytes, ← List.append_assoc,
        List.getLast?_concat]
    simp [h c hlast] at hcontent

end Lexeme

open Lexeme

/-- Bytes that are appended to a source change at most the last token of its scan, and none if the
source ends in a blank. -/
theorem rawTokens_append_extends (a b : Bytes) (h : Admissible (a ++ b)) :
    ∃ ts us, rawTokens a = .ok ts ∧ rawTokens (a ++ b) = .ok us ∧ ts.dropLast <+: us ∧
      ((∀ c ∈ a.getLast?, Byte.isBlank c = true) → ts <+: us) := by
  have ha : Admissible a := h.of_infix (List.prefix_append _ _).isInfix
  refine ⟨_, _, rawTokens_of_admissible ha, rawTokens_of_admissible h, ?_⟩
  rcases List.eq_nil_or_concat' (split a) with hnil | ⟨ls, l, hconcat⟩
  · rw [hnil]
    exact ⟨List.nil_prefix, fun _ => List.nil_prefix⟩
  · obtain ⟨rfl, htiles⟩ := split_eq_iff.mp hconcat
    have hl : l.WellFormed := (tiles_append.mp htiles).2.1
    rw [split_append_of_concat hconcat b, hconcat, tokensFrom_append, tokensFrom_append]
    cases htoken : l.isToken with
    | true =>
        obtain ⟨t, ht⟩ := exists_tokensFrom_of_isToken htoken (Position.start.past (ls.flatMap bytes))
        rw [ht, List.dropLast_concat]
        refine ⟨List.prefix_append _ _, ?_⟩
        intro hblank
        simp [not_isToken_of_isBlank hl hblank] at htoken
    | false =>
        have hprefix := (List.prefix_append_right_inj (tokensFrom .start ls)).mpr
          (tokensFrom_isPrefix_of_not_isToken hl htoken b (Position.start.past (ls.flatMap bytes)))
        exact ⟨(List.dropLast_prefix _).trans hprefix, fun _ => hprefix⟩

theorem rawTokens_append_extends_comment :
    (∃ ts us, rawTokens (Bytes.ofString "a <") = .ok ts ∧
      rawTokens (Bytes.ofString "a <= b") = .ok us ∧ ts.dropLast <+: us) ∧
      ∃ ts us, rawTokens (Bytes.ofString "a/*\n*\n") = .ok ts ∧
        rawTokens (Bytes.ofString "a/*\n*\n*/b") = .ok us ∧ ts <+: us := by
  constructor
  · obtain ⟨ts, us, hts, hus, hstable, -⟩ := rawTokens_append_extends (Bytes.ofString "a <")
      (Bytes.ofString "= b") (admissible_of_length (by decide))
    exact ⟨ts, us, hts, hus, hstable⟩
  · obtain ⟨ts, us, hts, hus, -, hwhole⟩ := rawTokens_append_extends
      (Bytes.ofString "a/*\n*\n") (Bytes.ofString "*/b") (admissible_of_length (by decide))
    refine ⟨ts, us, hts, hus, hwhole ?_⟩
    intro c hc
    cases hc
    rfl

end StatementLexer
