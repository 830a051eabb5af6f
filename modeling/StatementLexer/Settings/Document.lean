import StatementLexer.Error
import StatementLexer.Settings.Basic
import StatementLexer.Toml.Record

namespace StatementLexer.Settings

/-- The name under which settings are kept by default. -/
def fileName : String := "rugiac-lex.toml"

def insertTerminatorsKey : String := "insert_terminators"
def warnUnterminatedKey : String := "warn_unterminated"
def maxSourceBytesKey : String := "max_source_bytes"

/-- Switches are on and no limit is set where a document does not say otherwise. -/
def fields : List Field :=
  [⟨insertTerminatorsKey, .flag true⟩, ⟨warnUnterminatedKey, .flag true⟩,
    ⟨maxSourceBytesKey, .limit none⟩]

/-- The data of the fields, in their order. -/
def data (s : Settings) : List Datum :=
  [.flag s.insertTerminators, .flag s.warnUnterminated, .limit s.maxSourceBytes]

def ofData? : List Datum → Option Settings
  | [.flag insertTerminators, .flag warnUnterminated, .limit maxSourceBytes] =>
      some { insertTerminators, warnUnterminated, maxSourceBytes }
  | _ => none

def parse (text : List Char) (codec : Codec := Toml.codec) : Except SettingsError Settings :=
  match ((codec.read text).bind (codec.decode fields)).bind ofData? with
  | some s => .ok s
  | none => .error .malformed

def render (s : Settings) (codec : Codec := Toml.codec) : Except SettingsError String :=
  (codec.write ((fields.map Field.key).zip s.data)).mapError .unwritable

end StatementLexer.Settings
