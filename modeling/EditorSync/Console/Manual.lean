import EditorSync.Console.Arguments
import EditorSync.Console.Layout

namespace EditorSync.Console

inductive Operand.Form where
  | text
  | path
  | choice (words : List (String × String))
  deriving DecidableEq, Repr

structure Operand where
  name : String
  form : Operand.Form
  about : String
  deriving DecidableEq, Repr

namespace Operand

def label (o : Operand) : String := s!"<{o.name}>"

def choices (o : Operand) : List (String × String) :=
  match o.form with
  | .choice words => words
  | _ => []

def accepts (o : Operand) (word : String) : Bool :=
  match o.form with
  | .text => true
  | .path => word ≠ ""
  | .choice words => (words.lookup word).isSome

end Operand

def Opt.label (opt : Opt) : String :=
  let name := (opt.letter.elim "    " fun c => s!"-{c}, ") ++ "--" ++ opt.name
  match opt.form with
  | .flag => name
  | .text value | .path value => s!"{name} <{value}>"

structure Manual where
  call : String
  about : String
  commands : List (String × String)
  operands : List Operand
  options : List Opt
  deriving DecidableEq, Repr

namespace Manual

def accepts (m : Manual) (a : Arguments) : Bool :=
  a.words.length ≤ m.operands.length && (m.operands.zip a.words).all (fun (o, w) => o.accepts w) &&
    m.options.all fun opt => (a.values opt.name).all opt.accepts

def width (entries : List (String × String)) : Nat :=
  entries.foldr (fun e w => max e.1.length w) 0

def rows (entries : List (String × String)) : List String :=
  entries.map fun (head, about) => s!"  {alignLeft (width entries) head}  {about}"

def blocks (entries : List (String × List (List String))) : List String :=
  [""].intercalate (entries.map fun (head, paragraphs) =>
    s!"  {head}" :: [""].intercalate (paragraphs.map fun lines => lines.map ("          " ++ ·)))

def headed (heading : String) (lines : List String) : List String :=
  if lines = [] then [] else "" :: heading :: lines

def brief (o : Operand) : String × String :=
  let words := ", ".intercalate (o.choices.map (·.1))
  (o.label, if o.choices = [] then o.about else s!"{o.about} [possible values: {words}]")

def detailed (o : Operand) : String × List (List String) :=
  let words := o.choices.map fun (word, about) =>
    "- " ++ alignLeft (width o.choices + 1) (word ++ ":") ++ " " ++ about
  (o.label, [o.about] :: if words = [] then [] else ["Possible values:" :: words])

def hasDetails (m : Manual) : Bool := m.operands.any (·.choices ≠ [])

def closing (m : Manual) (help : String) : List Opt :=
  if m.commands = [] then [.help help] else [.help help, .version]

def page (m : Manual) (atLength : Bool) : List String :=
  let help (more : String) : List Opt := m.options ++ m.closing s!"Print help{more}"
  [m.about, "", s!"Usage: {m.call}"] ++ headed "Commands:" (rows m.commands) ++
    match m.hasDetails, atLength with
    | true, true =>
      let options := help " (see a summary with '-h')"
      headed "Arguments:" (blocks (m.operands.map detailed)) ++
        headed "Options:" (blocks (options.map fun opt => (opt.label, [[opt.about]])))
    | isCut, _ =>
      let options := help (if isCut then " (see more with '--help')" else "")
      headed "Arguments:" (rows (m.operands.map brief)) ++
        headed "Options:" (rows (options.map fun opt => (opt.label, opt.about)))

end Manual
end EditorSync.Console
