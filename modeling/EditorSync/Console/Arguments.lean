namespace EditorSync.Console

inductive Opt.Form where
  | flag
  | text (label : String)
  | path (label : String)
  deriving DecidableEq, Repr

structure Opt where
  name : String
  letter : Option Char
  form : Opt.Form
  repeats : Bool
  about : String
  deriving DecidableEq, Repr

namespace Opt

def isFlag (opt : Opt) : Bool := opt.form = .flag

def accepts (opt : Opt) (value : String) : Bool :=
  match opt.form with
  | .path _ => value ≠ ""
  | _ => true

def help (about : String) : Opt := ⟨"help", some 'h', .flag, false, about⟩

def version : Opt := ⟨"version", some 'V', .flag, false, "Print version"⟩

end Opt

structure Arguments where
  options : List (String × String)
  words : List String
  deriving DecidableEq, Repr

namespace Arguments

def empty : Arguments := ⟨[], []⟩

def values (a : Arguments) (name : String) : List String :=
  a.options.filterMap fun (n, v) => if n = name then some v else none

def value? (a : Arguments) (name : String) : Option String := (a.values name).getLast?

def has (a : Arguments) (name : String) : Bool := (a.values name) ≠ []

def addWord (a : Arguments) (word : String) : Arguments := { a with words := a.words ++ [word] }

def addOption (a : Arguments) (opt : Opt) (value : String) : Option Arguments :=
  if a.has opt.name && !opt.repeats then none
  else some { a with options := a.options ++ [(opt.name, value)] }

def named? (opts : List Opt) (word : List Char) : Option (Opt × Option String) :=
  match word with
  | '-' :: '-' :: long =>
    let name := long.takeWhile (· ≠ '=')
    let value := (long.drop name.length).tail?
    (opts.find? (·.name.toList == name)).map (·, value.map String.ofList)
  | '-' :: c :: rest =>
    (opts.find? (·.letter == some c)).map fun opt =>
      match opt.isFlag, rest with
      | true, _ | false, [] => (opt, none)
      | false, '=' :: value => (opt, some (String.ofList value))
      | false, value => (opt, some (String.ofList value))
  | _ => none

def isOption (word : String) : Bool :=
  match word.toList with
  | '-' :: _ :: _ => true
  | _ => false

inductive End where
  | read (a : Arguments) (rest : List String)
  | help (a : Arguments) (atLength : Bool)
  | version (a : Arguments)
  deriving DecidableEq, Repr

/-- Reads words up to the first one that is no option if `stop` says so, else all of them. After
two minuses there are no more options, and a question ends the reading at once. Gives what has
not been read. -/
def read (opts : List Opt) (stop : Bool) : Arguments → List String → Option End
  | a, [] => some (.read a [])
  | a, word :: rest =>
    if word = "--" then
      if stop ∧ rest ≠ [] then none else some (.read (rest.foldl addWord a) [])
    else if !isOption word then
      if stop then some (.read a (word :: rest)) else read opts stop (a.addWord word) rest
    else
      match named? opts word.toList, rest with
      | some (opt, none), rest =>
        if opt.name = "help" then some (.help a (word = "--help"))
        else if opt.name = "version" then some (.version a)
        else if opt.isFlag then (a.addOption opt "").bind fun a => read opts stop a rest
        else
          match rest with
          | value :: rest =>
            if isOption value then none
            else (a.addOption opt value).bind fun a => read opts stop a rest
          | [] => none
      | some (opt, some value), rest =>
        if opt.isFlag then none else (a.addOption opt value).bind fun a => read opts stop a rest
      | none, _ => none

end Arguments
end EditorSync.Console
