import EditorSync.Disk.Basic
import EditorSync.SyncError

namespace EditorSync

/-- A directory tree whose files are addressed by paths from its root. The projects in it are
listed, or else they are the directories at the top. -/
structure Workspace where
  root : String
  canonicalRoot : String
  projects : Option (List String)
  deriving DecidableEq, Repr

namespace Workspace

def normalize (path : String) : Except SyncError String :=
  match Path.normalize? path with
  | some p => .ok p
  | none => .error (.pathOutsideWorkspace path)

def ofRoot (disk : Disk) (root : String) : Workspace :=
  ⟨root, (disk.canonical? root).getD root, none⟩

def withProjects (disk : Disk) (root : String) (projects : List String) :
    Except SyncError Workspace := do
  let projects ← projects.mapM normalize
  return { ofRoot disk root with projects := some projects }

def relative (normalized : String) : String :=
  String.ofList (normalized.toList.dropWhile (· = '/'))

/-- The place of a workspace path on the disk. A path that leads out of the workspace through
a link has none. -/
def realPath (w : Workspace) (disk : Disk) (path : String) : Except SyncError String := do
  let normalized ← normalize path
  let joined := Path.append w.root (relative normalized)
  match disk.canonical? joined with
  | some canonical =>
    if Path.contains w.canonicalRoot canonical then return joined
    else throw (.pathOutsideWorkspace path)
  | none => return joined

def componentsBelow? (base path : String) : Option (List Path.Component) :=
  if Path.contains base path then
    some ((Path.components path).drop (Path.components base).length)
  else none

def nameOf? : Path.Component → Option String
  | .name s => some s
  | _ => none

def workspacePath (w : Workspace) (disk : Disk) (real : String) : Except SyncError String :=
  let absolute := (disk.canonical? real).getD real
  let names := do
    let below ← (componentsBelow? w.canonicalRoot absolute).or (componentsBelow? w.root absolute)
    below.mapM nameOf?
  match names with
  | some (name :: rest) => .ok (Path.ofNames (name :: rest))
  | _ => .error (.pathOutsideWorkspace real)

def deepest (projects : List String) (path : String) : Option String :=
  (projects.filter fun p => Path.isProperAncestor p path).foldl (fun best p =>
    match best with
    | none => some p
    | some q => if q.utf8ByteSize ≤ p.utf8ByteSize then some p else some q) none

def projectOf (w : Workspace) (disk : Disk) (path : String) : Except SyncError String := do
  let normalized ← normalize path
  match w.projects with
  | some projects =>
    match deepest projects normalized with
    | some p => return p
    | none => throw (.projectResolution path)
  | none =>
    match Path.names normalized with
    | top :: _ :: _ =>
      if disk.isDir (Path.append w.root top) then return Path.ofNames [top]
      else throw (.projectResolution path)
    | _ => throw (.projectResolution path)

def isProject (w : Workspace) (disk : Disk) (path : String) : Bool :=
  match Path.normalize? path with
  | none => false
  | some normalized =>
    match w.projects with
    | some projects => projects.contains normalized
    | none =>
      (Path.names normalized).length ≤ 1 && disk.isDir (Path.append w.root (relative normalized))

end Workspace
end EditorSync
