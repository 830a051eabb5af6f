import StatementLexer.FileTree.Access
import StatementLexer.Settings.Document
import StatementLexer.Text.Utf8

namespace StatementLexer.Settings

def load (t : FileTree) (path : String) (codec : Codec := Toml.codec) : Except Error Settings :=
  match t.find (.ofString path) with
  | .error _ => .error (.settings (.missing path))
  | .ok _ =>
      (t.read (.ofString path)).mapError .io >>= fun data =>
        match Utf8.decode? data with
        | some text => (parse text codec).mapError .settings
        | none => .error (.io .notUtf8)

/-- Writes settings to the file at a path. The directories that lead to it are created first,
and they stay when the settings turn out not to be writable. -/
def save (s : Settings) (t : FileTree) (path : String) (codec : Codec := Toml.codec) :
    FileTree × Except Error Unit :=
  let p := FileTree.Path.ofString path
  match t.createDirectories p.parent with
  | (made, .error e) => (made, .error (.io e))
  | (made, .ok _) =>
      match s.render codec with
      | .error e => (made, .error (.settings e))
      | .ok text =>
          match made.write p (Bytes.ofString text) with
          | .error e => (made, .error (.io e))
          | .ok written => (written, .ok ())

end StatementLexer.Settings
