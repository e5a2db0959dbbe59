namespace EditorSync.Path

def segments (path : String) : List String :=
  (path.toList.splitOn '/').map String.ofList

def join (names : List String) : String := "/".intercalate names

def ofNames (names : List String) : String := "/" ++ join names

def isAbsolute (path : String) : Bool := path.toList.head? == some '/'

def names (path : String) : List String :=
  (segments path).filter fun s => s ≠ "" ∧ s ≠ "."

inductive Component where
  | root
  | here
  | parent
  | name (s : String)
  deriving DecidableEq, Repr

def Component.ofName (s : String) : Component := if s = ".." then .parent else .name s

def components (path : String) : List Component :=
  let rest := (names path).map Component.ofName
  if isAbsolute path then .root :: rest
  else if (segments path).head? = some "." then .here :: rest
  else rest

def isProperAncestor (ancestor path : String) : Bool :=
  (components ancestor).isPrefixOf (components path) &&
    (components ancestor).length < (components path).length

def contains (ancestor path : String) : Bool :=
  (components ancestor).isPrefixOf (components path)

def normalize? (path : String) : Option String :=
  if ".." ∈ segments path then none else some (ofNames (names path))

def append (base path : String) : String :=
  if isAbsolute path then path
  else if base = "" ∨ base.toList.getLast? = some '/' then base ++ path
  else base ++ "/" ++ path

def extension? (path : String) : Option String :=
  match (components path).getLast? with
  | some (.name name) =>
    match name.toList.reverse.span (· ≠ '.') with
    | (_, []) => none
    | (_, [_]) => none
    | (ext, _) => some (String.ofList ext.reverse)
  | _ => none

/-- A path as seen from a directory. Parent segments and a slash at the end stay, and so do two
slashes at the start. -/
def absolute (directory path : String) : String :=
  let start :=
    if ['/', '/'].isPrefixOf path.toList ∧ path.toList[2]? ≠ some '/' then "//"
    else if isAbsolute path then "/"
    else directory
  let full := (names path).foldl append start
  if path.toList.getLast? = some '/' then append full "" else full

end EditorSync.Path
