import StatementLexer.Fault

namespace StatementLexer

inductive IoKind where
  | other
  | interrupted
  | unexpectedEof
  | permissionDenied
  | notFound
  | alreadyExists
  | notADirectory
  | isADirectory
  | invalidFilename
  | invalidInput
  | invalidData
  deriving DecidableEq, Repr

structure IoError where
  kind : IoKind
  text : String
  deriving DecidableEq, Repr

namespace IoError

def notFound : IoError := ⟨.notFound, "No such file or directory (os error 2)"⟩
def alreadyExists : IoError := ⟨.alreadyExists, "File exists (os error 17)"⟩
def notADirectory : IoError := ⟨.notADirectory, "Not a directory (os error 20)"⟩
def isADirectory : IoError := ⟨.isADirectory, "Is a directory (os error 21)"⟩
def nameTooLong : IoError := ⟨.invalidFilename, "File name too long (os error 36)"⟩
def nulInPath : IoError := ⟨.invalidInput, "file name contained an unexpected NUL byte"⟩
def notUtf8 : IoError := ⟨.invalidData, "stream did not contain valid UTF-8"⟩

end IoError

/-- What is wrong with settings in a file: there is no file at the path, its text cannot be
read as settings, or the settings cannot be written as text, for the reason given. -/
inductive SettingsError where
  | missing (path : String)
  | malformed
  | unwritable (reason : String)
  deriving DecidableEq, Repr

def SettingsError.message : SettingsError → String
  | .missing path => "Configuration file not found: " ++ path
  | .malformed => "Failed to parse configuration"
  | .unwritable reason => "Failed to serialize configuration: " ++ reason

inductive Error where
  | tooLarge (limit : Nat)
  | io (e : IoError)
  | settings (e : SettingsError)
  | fault (f : Fault)
  deriving DecidableEq, Repr

def Error.message : Error → String
  | .tooLarge limit => "Source exceeds the configured limit of " ++ toString limit ++ " bytes"
  | .io e => "IO error: " ++ e.text
  | .settings e => "Configuration error: " ++ e.message
  | .fault _ => "Position out of range"

end StatementLexer
