import EditorSync.Toml.Basic

namespace EditorSync.Toml

inductive Origin where
  | header
  | implied
  | dotted
  deriving DecidableEq, Repr

inductive Node where
  | value (v : Toml)
  | table (origin : Origin) (members : List (String × Node))
  | tables (items : List (List (String × Node)))

abbrev Members := List (String × Node)

namespace Members

def enter (dotted : Bool) (f : Bool → Members → Option Members) :
    Bool → List String → Members → Option Members
  | isDotted, [], ms => f isDotted ms
  | _, name :: names, ms =>
    match ms.lookup name with
    | none => do
      let inner ← enter dotted f dotted names []
      return ms ++ [(name, .table (if dotted then .dotted else .implied) inner)]
    | some (.table origin inner) => do
      guard !(dotted && origin == .header)
      let inner ← enter dotted f (origin == .dotted) names inner
      return assign name (.table origin inner) ms
    | some (.tables items) => do
      let last ← enter dotted f false names (items.getLastD [])
      return assign name (.tables (items.dropLast ++ [last])) ms
    | some (.value _) => none

def add (name : String) (v : Toml) (ms : Members) : Option Members :=
  if (ms.lookup name).isSome then none else some (ms ++ [(name, .value v)])

def set (front : List String) (last : String) (v : Toml) (ms : Members) : Option Members :=
  enter true (fun isDotted ms => if isDotted = front.isEmpty then none else add last v ms)
    false front ms

def openTable (front : List String) (last : String) (ms : Members) : Option Members :=
  enter false (fun _ ms =>
    match ms.lookup last with
    | none => some (ms ++ [(last, .table .header [])])
    | some (.table .implied inner) => some (assign last (.table .header inner) ms)
    | _ => none) false front ms

def openItem (front : List String) (last : String) (ms : Members) : Option Members :=
  enter false (fun _ ms =>
    match ms.lookup last with
    | none => some (ms ++ [(last, .tables [[]])])
    | some (.tables items) => some (assign last (.tables (items ++ [[]])) ms)
    | _ => none) false front ms

end Members

mutual

def Node.close : Node → Toml
  | .value v => v
  | .table _ members => .table (Members.close members)
  | .tables items => .list (closeItems items)

def Members.close : List (String × Node) → List (String × Toml)
  | [] => []
  | (name, n) :: rest => (name, n.close) :: Members.close rest

def closeItems : List (List (String × Node)) → List Toml
  | [] => []
  | members :: rest => .table (Members.close members) :: closeItems rest

end

end EditorSync.Toml
