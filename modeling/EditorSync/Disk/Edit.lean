import EditorSync.Disk.Basic

namespace EditorSync.Disk

open Text (Bytes)

def put (d : Disk) (place : List String) (e : Entry) : Disk := ⟨d.entries.insert place e⟩

def removeTree (d : Disk) (place : List String) : Disk :=
  ⟨d.entries.filter fun p _ => !place.isPrefixOf p⟩

def write (d : Disk) (path : String) (content : Bytes) : Except Fault Disk := do
  match ← d.locate true path with
  | .found place (.file _) => return d.put place (.file content)
  | .found _ _ => throw .isDirectory
  | .vacant place => return d.put place (.file content)

def makeDir (d : Disk) (path : String) : Except Fault Disk := do
  match ← d.locate false path with
  | .found _ _ => throw .occupied
  | .vacant place => return d.put place .dir

def parent? (path : String) : Option String :=
  match Path.names path with
  | [] => none
  | names => some (Path.ofNames names.dropLast)

/-- Makes a directory and those above it that are missing. What has been made stays when a
later step fails. The fuel is the number of names in the path. -/
def makeDirsWith : Nat → Disk → String → Disk × Except Fault Unit
  | fuel, d, path =>
    match d.makeDir path with
    | .ok d => (d, .ok ())
    | .error e =>
      if e ≠ .notFound then (d, if d.isDir path then .ok () else .error e)
      else
        match fuel, parent? path with
        | fuel + 1, some above =>
          match makeDirsWith fuel d above with
          | (d, .error e) => (d, .error e)
          | (d, .ok ()) =>
            match d.makeDir path with
            | .ok d => (d, .ok ())
            | .error e => (d, if d.isDir path then .ok () else .error e)
        | _, _ => (d, .error e)

def makeDirs (d : Disk) (path : String) : Disk × Except Fault Unit :=
  makeDirsWith (Path.names path).length d path

def removeFile (d : Disk) (path : String) : Except Fault Disk := do
  match ← d.locate false path with
  | .found _ .dir => throw .isDirectory
  | .found place _ => return ⟨d.entries.erase place⟩
  | .vacant _ => throw .notFound

def removeDirs (d : Disk) (path : String) : Except Fault Disk := do
  match ← d.locate false path with
  | .found place .dir => return d.removeTree place
  | .found place (.link _) => return ⟨d.entries.erase place⟩
  | .found _ (.file _) => throw .notDirectory
  | .vacant _ => throw .notFound

def checkReplace (d : Disk) (new : Entry) (place : List String) : Option Entry → Except Fault Unit
  | none => .ok ()
  | some .dir =>
    match new with
    | .dir =>
      if d.entries.keys.any fun p => place.isPrefixOf p && p ≠ place then .error .notEmpty
      else .ok ()
    | _ => .error .isDirectory
  | some _ =>
    match new with
    | .dir => .error .notDirectory
    | _ => .ok ()

def moveTree (d : Disk) (source target : List String) : Disk :=
  let moved := d.entries.entries.filter fun (p, _) => source.isPrefixOf p
  moved.foldl (fun d (p, e) => d.put (target ++ p.drop source.length) e)
    ((d.removeTree target).removeTree source)

def rename (d : Disk) (source target : String) : Except Fault Disk := do
  match ← d.locate false source with
  | .vacant _ => throw .notFound
  | .found a e =>
    let (b, old) ← match ← d.locate false target with
      | .found b old => pure (b, some old)
      | .vacant b => pure (b, none)
    if a = b then return d
    if a.isPrefixOf b then throw .badPath
    d.checkReplace e b old
    return d.moveTree a b

end EditorSync.Disk
