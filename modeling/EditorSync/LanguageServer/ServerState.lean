namespace EditorSync.LanguageServer

inductive ServerState where
  | initializing
  | indexing
  | ready
  | dead
  deriving DecidableEq, Repr

namespace ServerState

def all : List ServerState := [initializing, indexing, ready, dead]

def name : ServerState → String
  | initializing => "initializing"
  | indexing => "indexing"
  | ready => "ready"
  | dead => "dead"

def ofName? (name : String) : Option ServerState := all.find? (·.name == name)

def change? (current next : ServerState) : Option ServerState :=
  if current = dead ∨ current = next then none else some next

end ServerState
end EditorSync.LanguageServer
