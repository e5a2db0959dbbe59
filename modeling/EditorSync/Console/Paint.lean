namespace EditorSync.Console

inductive Colour where
  | green
  | blue
  | red
  | yellow
  | cyan
  | dim
  deriving DecidableEq, Repr

namespace Colour

def all : List Colour := [green, blue, red, yellow, cyan, dim]

def code : Colour → Nat
  | green => 32
  | blue => 34
  | red => 31
  | yellow => 33
  | cyan => 36
  | dim => 2

end Colour

def usesColour (unwanted isTerminal : Bool) : Bool := !unwanted && isTerminal

def paint (enabled : Bool) (colour : Colour) (text : String) : String :=
  if enabled then "\x1b[" ++ Nat.repr colour.code ++ "m" ++ text ++ "\x1b[0m" else text

end EditorSync.Console
