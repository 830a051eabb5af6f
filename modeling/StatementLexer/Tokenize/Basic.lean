import StatementLexer.Event
import StatementLexer.Scan
import StatementLexer.Settings.Basic
import StatementLexer.Source
import StatementLexer.Terminator

namespace StatementLexer

/-- A stream of tokens with the log of how it came about. -/
structure Tokenized where
  tokens : List Token
  events : List Event
  deriving DecidableEq, Repr

/-- A cut construct is logged only if the settings ask for it. -/
def Signal.event? (settings : Settings) : Signal → Option Event
  | .token t => some (.emitted t)
  | .truncated c opened =>
      if settings.warnUnterminated then some (.unterminated c opened) else none

def Scan.events (settings : Settings) (source : Bytes) (s : Scan) : List Event :=
  .scanStarted source.length :: s.signals.filterMap (Signal.event? settings) ++
    [.scanFinished s.tokens.length s.finish.location.line]

namespace Terminator

/-- The log of the last pass. An empty stream gets its terminator without a word. -/
def appended? (ts : List Token) : Option Event :=
  match ts with
  | [] => none
  | _ :: _ => (missing? ts).map fun t => .terminatorAppended t.start

def terminateLogged (ts : List Token) : Tokenized :=
  let inference := infer ts
  let final := terminateFinal inference.tokens
  { tokens := final
    events :=
      .boundariesInferred ts.length inference.tokens.length inference.inserted ::
        (appended? inference.tokens).toList ++ [.tokenized final.length] }

end Terminator

/-- Tokenizes a source. Without inferred terminators the result is the raw stream. -/
def tokenizeWith (settings : Settings) (source : Bytes) : Except Fault Tokenized :=
  scan source >>= fun s =>
    if settings.insertTerminators then
      let r := Terminator.terminateLogged s.tokens
      .ok ⟨r.tokens, s.events settings source ++ r.events⟩
    else .ok ⟨s.tokens, s.events settings source⟩

def tokenize (source : Bytes) : Except Fault (List Token) :=
  (tokenizeWith {} source).map Tokenized.tokens

/-- The final stream is the raw one after both passes. -/
theorem tokenize_eq_map_terminate (source : Bytes) :
    tokenize source = (rawTokens source).map Terminator.terminate := by
  rw [tokenize, tokenizeWith, rawTokens]
  cases scan source with
  | error f => rfl
  | ok s => rfl

/-- What a run over a reader comes to, an error included, with everything it has logged. -/
structure Logged where
  outcome : Except Error (List Token)
  events : List Event

/-- Reads a source and tokenizes it. Nothing is logged when reading fails. -/
def tokenizeLogged (settings : Settings) (chunks : List Chunk) : Except Fault Logged :=
  match Source.read settings.maxSourceBytes chunks with
  | .error e => .ok ⟨.error e, []⟩
  | .ok source =>
      (tokenizeWith settings source).map fun r =>
        ⟨.ok r.tokens, .sourceRead source.length :: r.events⟩

/-- The tokens of a run over a reader with its log, if the run comes to tokens. -/
def tokenizeChunks (settings : Settings) (chunks : List Chunk) : Except Error Tokenized :=
  (tokenizeLogged settings chunks).mapError .fault >>= fun r =>
    r.outcome.map fun tokens => ⟨tokens, r.events⟩

theorem tokenizeChunks_of_error {settings : Settings} {chunks : List Chunk} {e : Error}
    (h : Source.read settings.maxSourceBytes chunks = .error e) :
    tokenizeChunks settings chunks = .error e := by
  rw [tokenizeChunks, tokenizeLogged, h]
  rfl

theorem tokenizeChunks_of_ok {settings : Settings} {chunks : List Chunk} {source : Bytes}
    (h : Source.read settings.maxSourceBytes chunks = .ok source) :
    tokenizeChunks settings chunks =
      ((tokenizeWith settings source).mapError .fault).map fun r =>
        ⟨r.tokens, .sourceRead source.length :: r.events⟩ := by
  rw [tokenizeChunks, tokenizeLogged, h]
  dsimp only
  cases tokenizeWith settings source <;> rfl

end StatementLexer
