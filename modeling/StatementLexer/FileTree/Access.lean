import StatementLexer.FileTree.Basic
import StatementLexer.FileTree.Path

namespace StatementLexer.FileTree

def directoryAt (t : FileTree) (here : Place) : Except IoError FileTree :=
  match t.node? here with
  | some (.directory inside) => .ok inside
  | some (.file _) => .error .notADirectory
  | none => .error .notFound

/-- Where a step leads from a place, which has to be a directory. The top is above itself. -/
def step (t : FileTree) (here : Place) (name : String) : Except IoError Place :=
  t.directoryAt here >>= fun inside =>
    if name = "." then .ok here
    else if name = ".." then .ok here.dropLast
    else if Path.maxNameSize < name.utf8ByteSize then .error .nameTooLong
    else if (inside.child? name).isSome then .ok (here ++ [name])
    else .error .notFound

def follow (t : FileTree) (names : List String) : Except IoError Place :=
  names.foldlM t.step []

/-- What a path leads to. A path without steps leads nowhere. -/
def find (t : FileTree) (p : Path) : Except IoError Node :=
  p.check >>= fun _ =>
    if p.steps.isEmpty then .error .notFound
    else
      t.follow p.steps >>= fun here =>
        match t.node? here with
        | some (.file data) => if p.endsInSlash then .error .notADirectory else .ok (.file data)
        | some (.directory inside) => .ok (.directory inside)
        | none => .error .notFound

def read (t : FileTree) (p : Path) : Except IoError Bytes :=
  t.find p >>= fun node =>
    match node with
    | .file data => .ok data
    | .directory _ => .error .isADirectory

/-- Writes a file into a directory that is there. A file needs a name of its own: a path that
ends in dots or in a slash means a directory, whatever it leads to. -/
def write (t : FileTree) (p : Path) (data : Bytes) : Except IoError FileTree :=
  p.check >>= fun _ =>
    match p.steps.getLast? with
    | none => .error .notFound
    | some name =>
        t.follow p.steps.dropLast >>= fun here =>
          t.directoryAt here >>= fun inside =>
            if name = "." || name = ".." || p.endsInSlash then .error .isADirectory
            else if Path.maxNameSize < name.utf8ByteSize then .error .nameTooLong
            else
              match inside.child? name with
              | some (.directory _) => .error .isADirectory
              | _ => .ok (t.put (here ++ [name]) (.file data))

/-- Takes steps from a place and creates the directories that are missing. The ones created
before a step that fails stay. A missing name that only dots follow is not created: staying
there asks for a directory that is there already. -/
def build : FileTree → Place → List String → FileTree × Except IoError Unit
  | t, _, [] => (t, .ok ())
  | t, here, name :: names =>
      match t.step here name with
      | .ok next =>
          match t.node? next with
          | some (.file _) => (t, .error .alreadyExists)
          | _ => t.build next names
      | .error e =>
          if e = .notFound && (names.isEmpty || names.any (· != ".")) then
            (t.put (here ++ [name]) (.directory .empty)).build (here ++ [name]) names
          else (t, .error e)

/-- Creates the directories of a path that are missing. A file in the way is met before anything
is created, unless it lies beyond a directory that is missing. -/
def createDirectories (t : FileTree) (p : Path) : FileTree × Except IoError Unit :=
  match p.check >>= fun _ => t.follow p.steps with
  | .ok here =>
      match t.node? here with
      | some (.file _) => (t, .error .alreadyExists)
      | _ => (t, .ok ())
  | .error e => if e = .notFound then t.build [] p.steps else (t, .error e)

end StatementLexer.FileTree
