import EditorSync.Disk.Edit
import EditorSync.Workspace.Basic

namespace EditorSync

structure Shadows where
  workspace : Workspace
  metadataDir : String
  deriving DecidableEq, Repr

namespace Shadows

def copiesDir : String := "workingCopies"

def flatten (path : String) : String :=
  String.ofList ((path.toList.dropWhile (· = '/')).map fun c => if c = '/' then '.' else c)

def dir (s : Shadows) (disk : Disk) (project : String) : Except SyncError String := do
  let real ← s.workspace.realPath disk project
  return Path.append (Path.append real s.metadataDir) copiesDir

def path (s : Shadows) (disk : Disk) (project file : String) : Except SyncError String := do
  return Path.append (← s.dir disk project) (flatten file)

def readOptional (disk : Disk) (path : String) : Except SyncError (Option String) :=
  match disk.readText path with
  | .ok text => .ok (some text)
  | .error .notFound => .ok none
  | .error e => .error (.io path e.message)

def readReal (s : Shadows) (disk : Disk) (file : String) : Except SyncError (Option String) := do
  readOptional disk (← s.workspace.realPath disk file)

def read (s : Shadows) (disk : Disk) (project file : String) :
    Except SyncError (Option String) := do
  readOptional disk (← s.path disk project file)

/-- An effect on the disk. What has been done stays when a later step fails. -/
abbrev Effect := Disk × Except SyncError Unit

def Effect.ofExcept (disk : Disk) (path : String) : Except Disk.Fault Disk → Effect
  | .ok disk => (disk, .ok ())
  | .error e => (disk, .error (.io path e.message))

def Effect.ofRemoval (disk : Disk) (path : String) : Except Disk.Fault Disk → Effect
  | .error .notFound => (disk, .ok ())
  | r => Effect.ofExcept disk path r

def write (s : Shadows) (disk : Disk) (project file content : String) : Effect :=
  match s.dir disk project with
  | .error e => (disk, .error e)
  | .ok dir =>
    match disk.makeDirs dir with
    | (disk, .error e) => (disk, .error (.io dir e.message))
    | (disk, .ok ()) =>
      let path := Path.append dir (flatten file)
      .ofExcept disk path (disk.write path (Text.encode content))

def remove (s : Shadows) (disk : Disk) (project file : String) : Effect :=
  match s.path disk project file with
  | .error e => (disk, .error e)
  | .ok path => .ofRemoval disk path (disk.removeFile path)

def rename (s : Shadows) (disk : Disk) (oldProject oldFile newProject newFile : String) : Effect :=
  match s.path disk oldProject oldFile, s.dir disk newProject with
  | .error e, _ => (disk, .error e)
  | _, .error e => (disk, .error e)
  | .ok source, .ok dir =>
    if !disk.isThere source then (disk, .ok ())
    else
      match disk.makeDirs dir with
      | (disk, .error e) => (disk, .error (.io dir e.message))
      | (disk, .ok ()) =>
        .ofExcept disk source (disk.rename source (Path.append dir (flatten newFile)))

def removeProject (s : Shadows) (disk : Disk) (project : String) : Effect :=
  match s.dir disk project with
  | .error e => (disk, .error e)
  | .ok dir => .ofRemoval disk dir (disk.removeDirs dir)

end Shadows
end EditorSync
