import StatementLexer.Proofs.Comment
import StatementLexer.Proofs.SourceMap

namespace StatementLexer

def Byte.blanked (b : UInt8) : UInt8 :=
  if b = lineFeed then b else space

namespace Lexeme

def blankedBytes (l : Lexeme) : Bytes :=
  if l.isComment then l.bytes.map Byte.blanked else l.bytes

end Lexeme

open Lexeme

/-- The source with every byte of a comment replaced by a space, line feeds excepted. -/
def blankComments (source : Bytes) : Bytes :=
  (split source).flatMap blankedBytes

namespace Lexeme

def spaceUnit (b : UInt8) : Lexeme :=
  if b = Byte.lineFeed then .lineBreak else .blank Byte.space

def uncommented (l : Lexeme) : List Lexeme :=
  if l.isComment then l.bytes.map spaceUnit else [l]

theorem bytes_spaceUnit (b : UInt8) : (spaceUnit b).bytes = [Byte.blanked b] := by
  unfold spaceUnit Byte.blanked
  split
  · next hb => rw [hb, bytes]
  · rfl

theorem flatMap_bytes_uncommented (l : Lexeme) : l.uncommented.flatMap bytes = l.blankedBytes := by
  unfold uncommented blankedBytes
  split
  · rw [List.flatMap_map, funext bytes_spaceUnit]
    exact List.flatMap_pure_eq_map _ _
  · exact List.flatMap_singleton _ _

theorem lineFeeds_blankedBytes (l : Lexeme) :
    l.blankedBytes.map (· == Byte.lineFeed) = l.bytes.map (· == Byte.lineFeed) := by
  unfold blankedBytes
  split
  · rw [List.map_map]
    apply List.map_congr_left
    intro b _
    rcases eq_or_ne b Byte.lineFeed with rfl | hb
    · rfl
    · simp [Byte.blanked, hb, show Byte.space ≠ Byte.lineFeed by decide]
  · rfl

theorem tiles_spaceUnits (text rest : Bytes) : Tiles (text.map spaceUnit) rest := by
  induction text with
  | nil => trivial
  | cons b text ih =>
      rw [List.map_cons, spaceUnit]
      split
      · exact ⟨trivial, fun _ _ => rfl, ih⟩
      · exact ⟨rfl, fun _ _ => rfl, ih⟩

theorem ends_uncommented {l : Lexeme} {ls : List Lexeme} (h : Tiles (l :: ls) [])
    (hl : l.isComment = false) : Ends l.takes ((ls.flatMap uncommented).flatMap bytes) := by
  rcases ls with _ | ⟨m, ls⟩
  · exact ends_nil _
  · -- Only the last unit of a source can be open.
    have hopen : l.isOpen = false := by
      apply Bool.eq_false_iff.mpr
      intro hopen
      cases eq_nil_of_isOpen h hopen
    obtain ⟨-, hends, htiles⟩ := h
    rw [List.flatMap_cons, List.flatMap_append, flatMap_bytes_uncommented, blankedBytes]
    split
    · next hm =>
        obtain ⟨tail, htail⟩ := exists_bytes_of_isComment hm
        rw [htail]
        apply ends_cons.mpr
        apply takes_of_isBlank hopen rfl
        rintro text rfl
        cases hl
    · rw [List.append_nil, List.flatMap_cons] at hends
      have hne := bytes_ne_nil htiles.1
      exact (ends_append_of_ne_nil hne _).mpr ((ends_append_of_ne_nil hne _).mp hends)

theorem tiles_uncommented {ls : List Lexeme} (h : Tiles ls []) :
    Tiles (ls.flatMap uncommented) [] := by
  induction ls with
  | nil => trivial
  | cons l ls ih =>
      rw [List.flatMap_cons, tiles_append, List.append_nil]
      refine ⟨?_, ih h.2.2⟩
      unfold uncommented
      cases hl : l.isComment with
      | true => exact tiles_spaceUnits _ _
      | false => exact ⟨h.1, ends_uncommented h hl, trivial⟩

theorem split_blankComments (source : Bytes) :
    split (blankComments source) = (split source).flatMap uncommented := by
  apply split_eq_iff.mpr
  refine ⟨?_, tiles_uncommented (tiles_split source)⟩
  rw [List.flatMap_assoc, funext flatMap_bytes_uncommented]
  rfl

theorem tokensFrom_spaceUnits (p : Position) (text : Bytes) :
    tokensFrom p (text.map spaceUnit) = (lineBreaks p.line text).filterMap Signal.token? := by
  induction text generalizing p with
  | nil => rfl
  | cons b text ih =>
      rw [List.map_cons, tokensFrom_cons, ih, bytes_spaceUnit]
      rcases eq_or_ne b Byte.lineFeed with rfl | hb
      · rw [lineBreaks_lineFeed]
        rfl
      · have hspace : spaceUnit b = .blank Byte.space := if_neg hb
        rw [hspace, lineBreaks_of_ne hb, Byte.blanked, if_neg hb]
        rfl

theorem tokensFrom_uncommented {ls : List Lexeme} (h : Tiles ls []) (p : Position) :
    tokensFrom p (ls.flatMap uncommented) = tokensFrom p ls := by
  induction ls generalizing p with
  | nil => rfl
  | cons l ls ih =>
      have hpast := Position.past_of_lineFeeds (lineFeeds_blankedBytes l) p
      rw [List.flatMap_cons, tokensFrom_append, flatMap_bytes_uncommented, hpast, ih h.2.2,
        tokensFrom_cons]
      unfold uncommented
      cases hl : l.isComment with
      | true =>
          change tokensFrom p (l.bytes.map spaceUnit) ++ _ = _
          rw [tokensFrom_spaceUnits, tokens_signals_of_isComment h.1 hl]
      | false =>
          change tokensFrom p [l] ++ _ = _
          rw [tokensFrom_cons, tokensFrom_nil, List.append_nil]

theorem isComment_of_mem_uncommented {l m : Lexeme} (h : m ∈ l.uncommented) :
    m.isComment = false := by
  unfold uncommented at h
  split at h
  · obtain ⟨b, -, rfl⟩ := List.mem_map.mp h
    unfold spaceUnit
    split <;> rfl
  · next hl =>
      rw [List.mem_singleton.mp h]
      simpa using hl

end Lexeme

theorem lineFeeds_blankComments (source : Bytes) :
    (blankComments source).map (· == Byte.lineFeed) = source.map (· == Byte.lineFeed) := by
  have hsource := congrArg (List.map (· == Byte.lineFeed)) (flatMap_bytes_split source)
  rw [← hsource, blankComments, List.map_flatMap, List.map_flatMap, funext lineFeeds_blankedBytes]

theorem tokensFrom_blankComments (source : Bytes) (p : Position) :
    tokensFrom p (split (blankComments source)) = tokensFrom p (split source) := by
  rw [split_blankComments, tokensFrom_uncommented (tiles_split source)]

/-- Spaces in the place of comments change no token of the raw stream or of the final one, and leave
no comment. -/
theorem tokenize_blankComments {source : Bytes} (h : Admissible source) :
    (∃ raw ts, rawTokens source = .ok raw ∧ rawTokens (blankComments source) = .ok raw ∧
      tokenize source = .ok ts ∧ tokenize (blankComments source) = .ok ts) ∧
      (∀ l ∈ split (blankComments source), l.isComment = false) ∧
      ∀ before l after, split source = before ++ l :: after →
        l.StopsBefore (after.flatMap bytes) := by
  have hblank := Position.admissible_of_lineFeeds (lineFeeds_blankComments source).symm h
  refine ⟨⟨_, _, rawTokens_of_admissible h, ?_, tokenize_of_admissible h, ?_⟩, ?_, ?_⟩
  · rw [rawTokens_of_admissible hblank, tokensFrom_blankComments]
  · rw [tokenize_of_admissible hblank, tokensFrom_blankComments]
  · intro m hm
    rw [split_blankComments] at hm
    obtain ⟨l, -, hl⟩ := List.mem_flatMap.mp hm
    exact isComment_of_mem_uncommented hl
  · intro before l after hsplit
    have htiles := tiles_split source
    rw [hsplit] at htiles
    exact stopsBefore_of_tiles (tiles_append.mp htiles).2

theorem tokenize_blankComments_string :
    blankComments (Bytes.ofString "a/*\n//*/`//`<//b\n/*/") =
      Bytes.ofString "a  \n    `//`<   \n   " ∧
      ∃ raw ts, rawTokens (Bytes.ofString "a/*\n//*/`//`<//b\n/*/") = .ok raw ∧
        rawTokens (Bytes.ofString "a  \n    `//`<   \n   ") = .ok raw ∧
        tokenize (Bytes.ofString "a/*\n//*/`//`<//b\n/*/") = .ok ts ∧
        tokenize (Bytes.ofString "a  \n    `//`<   \n   ") = .ok ts := by
  have hsplit : split (Bytes.ofString "a/*\n//*/`//`<//b\n/*/") =
      [.name (Bytes.ofString "a"), .blockComment (Bytes.ofString "\n//"),
        .quoted .back (Bytes.ofString "//"), .symbol .lt, .lineComment (Bytes.ofString "b"),
        .lineBreak, .openComment (Bytes.ofString "/")] :=
    split_eq_iff.mpr (by decide)
  have hblank : blankComments (Bytes.ofString "a/*\n//*/`//`<//b\n/*/") =
      Bytes.ofString "a  \n    `//`<   \n   " := by
    rw [blankComments, hsplit]
    decide
  refine ⟨hblank, ?_⟩
  rw [← hblank]
  exact (tokenize_blankComments (admissible_of_length (by decide))).1

end StatementLexer
