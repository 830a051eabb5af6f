import StatementLexer.Proofs.FileTree
import StatementLexer.Proofs.SettingsText
import StatementLexer.Proofs.Utf8
import StatementLexer.Settings.File

namespace StatementLexer.Settings

open FileTree

theorem decode?_ofString (text : String) :
    Utf8.decode? (Bytes.ofString text) = some text.toList := by
  rw [Utf8.decode?_eq_some_iff, Utf8.encode, Bytes.ofString, String.toUTF8_eq_toByteArray,
    ← String.utf8Encode_toList, List.utf8Encode, List.data_toByteArray]

/-- Settings are read back from the text that is written for them. -/
def ReadsBack (codec : Codec) : Prop :=
  ∀ (s : Settings) (text : String), s.render codec = .ok text → parse text.toList codec = .ok s

theorem load_of_find {t : FileTree} {path text : String}
    (h : t.find (.ofString path) = .ok (.file (Bytes.ofString text))) (codec : Codec) :
    load t path codec = (parse text.toList codec).mapError .settings := by
  rw [load, h, read_of_find h]
  simp [Except.mapError, bind, Except.bind, decode?_ofString]

theorem untouched_parent (t : FileTree) (p : Path) (place : Place) :
    Untouched p.IsAncestor t (t.createDirectories p.parent).1 place := by
  refine (untouched_createDirectories t p.parent place).imp_right ?_
  rintro ⟨⟨before, hbefore, hplace⟩, hitems⟩
  exact ⟨⟨before, hbefore.trans p.steps_parent_isPrefix, hplace⟩, hitems⟩

/-- Before anything is written, only directories are created, above the path. -/
theorem save_cases (s : Settings) (t : FileTree) (path : String) (codec : Codec) :
    ∃ made : FileTree, (∀ place, Untouched (Path.ofString path).IsAncestor t made place) ∧
      ((∃ e, s.save t path codec = (made, .error e)) ∨
        ∃ text written, s.render codec = .ok text ∧
          made.write (.ofString path) (Bytes.ofString text) = .ok written ∧
          s.save t path codec = (written, .ok ())) := by
  have hmade := untouched_parent t (.ofString path)
  rcases hcreate : t.createDirectories (Path.ofString path).parent with ⟨made, e | _⟩
  · rw [hcreate] at hmade
    exact ⟨made, hmade, .inl ⟨.io e, by simp [save, hcreate]⟩⟩
  · rw [hcreate] at hmade
    refine ⟨made, hmade, ?_⟩
    rcases hrender : s.render codec with e | text
    · exact .inl ⟨.settings e, by simp [save, hcreate, hrender]⟩
    · rcases hwrite : made.write (.ofString path) (Bytes.ofString text) with e | written
      · exact .inl ⟨.io e, by simp [save, hcreate, hrender, hwrite]⟩
      · exact .inr ⟨text, written, rfl, hwrite, by simp [save, hcreate, hrender, hwrite]⟩

/-- If saving fails, no file is created, removed or changed. If it succeeds, the settings are loaded
from the path, its place holds their text, and no other file is created, removed or changed. In
both cases directories are only created, and only above the path. -/
theorem save_touches_only_its_file {codec : Codec} (h : ReadsBack codec) (s : Settings)
    (t t' : FileTree) (path : String) :
    (∀ e, s.save t path codec = (t', .error e) →
      ∀ place, Untouched (Path.ofString path).IsAncestor t t' place) ∧
    (s.save t path codec = (t', .ok ()) →
      load t' path codec = .ok s ∧
      (∃ text, s.render codec = .ok text ∧
        t'.item? (Path.ofString path).place = some (.file (Bytes.ofString text))) ∧
      ∀ place, place ≠ (Path.ofString path).place →
        Untouched (Path.ofString path).IsAncestor t t' place) := by
  obtain ⟨made, hmade, ⟨e, hsave⟩ | ⟨text, written, hrender, hwrite, hsave⟩⟩ :=
    save_cases s t path codec
  · rw [hsave]
    refine ⟨?_, ?_⟩
    · rintro e' ⟨⟩
      exact hmade
    · rintro ⟨⟩
  · rw [hsave]
    refine ⟨?_, ?_⟩
    · rintro e' ⟨⟩
    · rintro ⟨⟩
      obtain ⟨names, name, hwritable, rfl⟩ := write_eq_ok hwrite
      have hitem := hwritable.item?_put (Bytes.ofString text)
      have hplace := (hitem _).trans (if_pos rfl)
      have hfind := hwritable.find_eq _ (hwritable.keeps _) hplace
      refine ⟨?_, ⟨text, hrender, hplace⟩, fun place hne => ?_⟩
      · rw [load_of_find hfind, h s text hrender]
        rfl
      · have hkept := (hitem place).trans (if_neg hne)
        exact (hmade place).trans (.inl hkept)

theorem save_touches_only_its_file_directory :
    ReadsBack Toml.codec ∧ ∃ made written : FileTree,
      (save { maxSourceBytes := some 9223372036854775808 } (.file "f" [65] .empty) "d/s" =
          (made, .error (.settings (.unwritable "out-of-range value for u64 type"))) ∧
        made.item? ["d"] = some .directory ∧
        ∀ place, Untouched (Path.ofString "d/s").IsAncestor (.file "f" [65] .empty) made place) ∧
      save {} (.file "f" [65] .empty) "d/s" = (written, .ok ()) ∧
      load written "d/s" = .ok {} ∧
      Untouched (Path.ofString "d/s").IsAncestor (.file "f" [65] .empty) written ["f"] := by
  have hpath : Path.ofString "d/s" = ⟨["d", "s"]⟩ := by
    rw [Path.ofString, String.splitOn, if_neg (by decide)]
    rw [String.splitOnAux, if_neg (by decide), if_neg (by decide)]
    rw [String.splitOnAux, if_neg (by decide), if_pos (by decide), if_pos (by decide)]
    rw [String.splitOnAux, if_neg (by decide), if_neg (by decide)]
    rw [String.splitOnAux, if_pos (by decide)]
    decide
  have hcheck : Path.check ⟨["d", "s"]⟩ = .ok () := by
    have htext : Path.text ⟨["d", "s"]⟩ = "d/s" := by decide
    rw [Path.check, htext, if_neg (by simp), if_neg (by decide)]
  have hcheck' : Path.check ⟨["d"]⟩ = .ok () := by
    have htext : Path.text ⟨["d"]⟩ = "d" := by decide
    rw [Path.check, htext, if_neg (by simp), if_neg (by decide)]
  have hcreate : createDirectories (.file "f" [65] .empty) (Path.parent ⟨["d", "s"]⟩) =
      (.file "f" [65] (.directory "d" .empty .empty), .ok ()) := by
    change createDirectories _ ⟨["d"]⟩ = _
    rw [createDirectories, hcheck']
    rfl
  have hrender : render { maxSourceBytes := some 9223372036854775808 } =
      .error (.unwritable "out-of-range value for u64 type") := rfl
  have hwrite (data : Bytes) :
      write (.file "f" [65] (.directory "d" .empty .empty)) ⟨["d", "s"]⟩ data =
        .ok (.file "f" [65] (.directory "d" (.file "s" data .empty) .empty)) := by
    rw [write, hcheck]
    rfl
  have herror : save { maxSourceBytes := some 9223372036854775808 } (.file "f" [65] .empty) "d/s" =
      (.file "f" [65] (.directory "d" .empty .empty),
        .error (.settings (.unwritable "out-of-range value for u64 type"))) := by
    simp only [save, hpath, hcreate, hrender]
  obtain ⟨text, htext⟩ : ∃ text, render {} = .ok text := ⟨_, rfl⟩
  have hok : save {} (.file "f" [65] .empty) "d/s" =
      (.file "f" [65] (.directory "d" (.file "s" (Bytes.ofString text) .empty) .empty),
        .ok ()) := by
    simp only [save, hpath, hcreate, htext, hwrite]
  have hreads : ReadsBack Toml.codec := fun s text => parse_render Toml.documented_codec
  have huntouched := (save_touches_only_its_file hreads _ _ _ _).1 _ herror
  obtain ⟨hload, -, hothers⟩ := (save_touches_only_its_file hreads _ _ _ _).2 hok
  refine ⟨hreads, _, _, ⟨herror, by decide, huntouched⟩, hok, hload, hothers ["f"] ?_⟩
  rw [hpath]
  decide

end StatementLexer.Settings
