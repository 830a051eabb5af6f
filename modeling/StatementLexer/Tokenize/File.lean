import StatementLexer.Settings.File
import StatementLexer.Tokenize.Basic

namespace StatementLexer.Source

def load (t : FileTree) (path : String) (limit : Option Nat) : Except Error Bytes :=
  (t.read (.ofString path)).mapError .io >>= fun data => read limit [.bytes data]

end StatementLexer.Source

namespace StatementLexer

/-- Tokenizes the source in a file under the settings in another file. -/
def tokenizeFile (t : FileTree) (source settings : String) (codec : Codec := Toml.codec) :
    Except Error (List Token) :=
  Settings.load t settings codec >>= fun s =>
    Source.load t source s.maxSourceBytes >>= fun data =>
      ((tokenizeWith s data).map Tokenized.tokens).mapError .fault

end StatementLexer
