import StatementLexer.Byte
import StatementLexer.Fault
import StatementLexer.Position
import StatementLexer.Trie
import StatementLexer.Token.Kind
import StatementLexer.Token.Vocabulary
import StatementLexer.Token.Basic
import StatementLexer.Token.Display
import StatementLexer.Text.Utf8
import StatementLexer.Text.Printable
import StatementLexer.Text.Quoted
import StatementLexer.Cursor
import StatementLexer.Lexeme.Basic
import StatementLexer.Lexeme.Word
import StatementLexer.Lexeme.Split
import StatementLexer.Scan
import StatementLexer.Terminator
import StatementLexer.Error
import StatementLexer.Source
import StatementLexer.Event
import StatementLexer.Settings.Basic
import StatementLexer.Tokenize.Basic
import StatementLexer.Toml.Table
import StatementLexer.Toml.Line
import StatementLexer.Toml.Quoted
import StatementLexer.Toml.Key
import StatementLexer.Toml.Number
import StatementLexer.Toml.DateTime
import StatementLexer.Toml.Value
import StatementLexer.Toml.Document
import StatementLexer.Codec
import StatementLexer.Toml.Record
import StatementLexer.Settings.Document
import StatementLexer.FileTree.Basic
import StatementLexer.FileTree.Path
import StatementLexer.FileTree.Access
import StatementLexer.Settings.File
import StatementLexer.Tokenize.File
import StatementLexer.Proofs.Tables
import StatementLexer.Proofs.Trie
import StatementLexer.Proofs.Vocabulary
import StatementLexer.Proofs.Word
import StatementLexer.Proofs.Tiling
import StatementLexer.Proofs.Location
import StatementLexer.Proofs.Report
import StatementLexer.Proofs.SourceMap
import StatementLexer.Proofs.Gaps
import StatementLexer.Proofs.TokenLanguage
import StatementLexer.Proofs.Padding
import StatementLexer.Proofs.LineEnding
import StatementLexer.Proofs.NormalStream
import StatementLexer.Proofs.Extension
import StatementLexer.Proofs.TokenOrder
import StatementLexer.Proofs.Blanking
import StatementLexer.Proofs.OutOfRange
import StatementLexer.Proofs.LongestMatch
import StatementLexer.Proofs.Reading
import StatementLexer.Proofs.BlankLines
import StatementLexer.Proofs.Region
import StatementLexer.Proofs.LineFeeds
import StatementLexer.Proofs.Truncation
import StatementLexer.Proofs.TrieSummary
import StatementLexer.Proofs.VocabularyAgreement
import StatementLexer.Proofs.Log
import StatementLexer.Proofs.Utf8
import StatementLexer.Proofs.Dump
import StatementLexer.Proofs.LiteralText
import StatementLexer.Proofs.CursorCalls
import StatementLexer.Proofs.Codec
import StatementLexer.Proofs.TomlAssignment
import StatementLexer.Proofs.TomlCodec
import StatementLexer.Proofs.SettingsText
import StatementLexer.Proofs.FileTree
import StatementLexer.Proofs.SettingsFile
import StatementLexer.Proofs.ScanLoop
import StatementLexer.Proofs.ScanCalls
