import EditorSync.Pattern.Basic
import EditorSync.Text.Reader

namespace EditorSync.Pattern

open Text (Reader)

structure Flags where
  anyCase : Bool
  multiLine : Bool
  dotAll : Bool
  spaced : Bool
  deriving DecidableEq, Repr

namespace Flags

def none : Flags := ⟨false, false, false, false⟩

def set (f : Flags) (on : Bool) : Char → Option Flags
  | 'i' => some { f with anyCase := on }
  | 'm' => some { f with multiLine := on }
  | 's' => some { f with dotAll := on }
  | 'x' => some { f with spaced := on }
  | 'U' | 'R' => some f
  | 'u' => if on then some f else Option.none
  | _ => Option.none

def read (f : Flags) : Bool → Reader Flags
  | _, [] => Option.none
  | on, c :: cs =>
    if c = ':' ∨ c = ')' then some (f, c :: cs)
    else if c = '-' ∧ on then
      if cs.head?.any (· ∈ [':', ')']) then Option.none else f.read false cs
    else (f.set on c).bind fun f => f.read on cs

end Flags

def setOf (f : Flags) (a : CharSet) : CharSet := if f.anyCase then .anyCase a else a

def charOf? (n : Nat) : Option Char := if h : n.isValidChar then some (Char.ofNatAux n h) else none

def charNumber (width : Nat) : Reader Char := fun cs =>
  match cs with
  | '\x7b' :: cs =>
    let digits := cs.takeWhile (· ≠ '\x7d')
    if digits.length = cs.length then none
    else ((Text.number? 16 digits).bind charOf?).map (·, cs.drop (digits.length + 1))
  | cs =>
    if width ≤ cs.length then
      ((Text.number? 16 (cs.take width)).bind charOf?).map (·, cs.drop width)
    else none

inductive Escape where
  | char (c : Char)
  | set (a : CharSet)
  | place (p : Place)
  deriving DecidableEq, Repr

def placeNamed? : String → Option Place
  | "start" => some .wordStart
  | "end" => some .wordEnd
  | _ => none

def escape : Reader Escape := fun cs =>
  match cs with
  | [] => none
  | c :: cs =>
    match c with
    | 'd' => some (.set .digits, cs)
    | 'D' => some (.set (.compl .digits), cs)
    | 's' => some (.set .blanks, cs)
    | 'S' => some (.set (.compl .blanks), cs)
    | 'w' => some (.set .words, cs)
    | 'W' => some (.set (.compl .words), cs)
    | 'b' =>
      match cs with
      | '\x7b' :: more =>
        let name := more.takeWhile (· ≠ '\x7d')
        (placeNamed? (String.ofList name)).map fun p => (.place p, more.drop (name.length + 1))
      | _ => some (.place .wordEdge, cs)
    | 'B' => some (.place .noWordEdge, cs)
    | '<' => some (.place .wordStart, cs)
    | '>' => some (.place .wordEnd, cs)
    | 'A' => some (.place .textStart, cs)
    | 'z' => some (.place .textEnd, cs)
    | 'n' => some (.char '\n', cs)
    | 't' => some (.char '\t', cs)
    | 'r' => some (.char '\r', cs)
    | 'f' => some (.char '\x0c', cs)
    | 'v' => some (.char '\x0b', cs)
    | 'a' => some (.char '\x07', cs)
    | 'x' => (charNumber 2 cs).map fun (c, cs) => (.char c, cs)
    | 'u' => (charNumber 4 cs).map fun (c, cs) => (.char c, cs)
    | 'U' => (charNumber 8 cs).map fun (c, cs) => (.char c, cs)
    | c => if c.toNat < 0x80 ∧ !c.isAlphanum then some (.char c, cs) else none

def namedSet? (cs : List Char) : Option (CharSet × List Char) :=
  let (negated, cs) := match cs with
    | '^' :: cs => (true, cs)
    | cs => (false, cs)
  let name := cs.takeWhile Char.isAlpha
  match cs.drop name.length with
  | ':' :: ']' :: rest =>
    (CharSet.named? (String.ofList name)).map fun a => (if negated then .compl a else a, rest)
  | _ => none

def item : Reader (Char ⊕ CharSet) := fun cs =>
  match cs with
  | '\\' :: cs => do
    match ← escape cs with
    | (.char c, cs) => some (.inl c, cs)
    | (.set a, cs) => some (.inr a, cs)
    | (.place _, _) => none
  | c :: cs => some (.inl c, cs)
  | [] => none

mutual

def bracket : Nat → Flags → Reader CharSet
  | 0, _, _ => none
  | fuel + 1, f, cs =>
    let (negated, cs) := match cs with
      | '^' :: cs => (true, cs)
      | cs => (false, cs)
    let (start, cs) := match cs with
      | ']' :: cs => (CharSet.single ']', cs)
      | cs => (CharSet.none, cs)
    (bracketRest fuel f id start cs).map fun (a, cs) => (if negated then .compl a else a, cs)

def bracketRest : Nat → Flags → (CharSet → CharSet) → CharSet → Reader CharSet
  | 0, _, _, _, _ => none
  | fuel + 1, f, join, a, cs =>
    match cs with
    | [] => none
    | ']' :: cs => some (join (setOf f a), cs)
    | '&' :: '&' :: cs => bracketRest fuel f (.inter (join (setOf f a))) .none cs
    | '-' :: '-' :: cs =>
      let left := join (setOf f a)
      bracketRest fuel f (fun b => .inter left (.compl b)) .none cs
    | '~' :: '~' :: cs =>
      let left := join (setOf f a)
      bracketRest fuel f (fun b => .inter (.union left b) (.compl (.inter left b))) .none cs
    | '[' :: cs =>
      match (if cs.head? = some ':' then namedSet? (cs.drop 1) else none) with
      | some (b, cs) => bracketRest fuel f join (.union a b) cs
      | none => do
        let (b, cs) ← bracket fuel f cs
        bracketRest fuel f join (.union a b) cs
    | cs => do
      match ← item cs with
      | (.inr b, cs) => bracketRest fuel f join (.union a b) cs
      | (.inl low, cs) =>
        match cs with
        | '-' :: cs' =>
          if cs'.head?.any (fun c => c = ']' ∨ c = '-') then
            bracketRest fuel f join (.union a (.single low)) cs
          else do
            match ← item cs' with
            | (.inl high, cs) =>
              if low ≤ high then bracketRest fuel f join (.union a (.range low high)) cs else none
            | (.inr _, _) => none
        | cs => bracketRest fuel f join (.union a (.single low)) cs

end

def decimal : Reader Nat := fun cs =>
  let digits := cs.takeWhile Char.isDigit
  ((Text.number? 10 digits).filter (· ≤ 0xFFFFFFFF)).map (·, cs.drop digits.length)

def bounds : Reader (Nat × Option Nat) := fun cs => do
  let (low, cs) ← decimal cs
  match cs with
  | '\x7d' :: cs => some ((low, some low), cs)
  | ',' :: '\x7d' :: cs => some ((low, none), cs)
  | ',' :: cs => do
    let (high, cs) ← decimal cs
    match cs with
    | '\x7d' :: cs => if low ≤ high then some ((low, some high), cs) else none
    | _ => none
  | _ => none

def skipLazy : List Char → List Char
  | '?' :: cs => cs
  | cs => cs

def repetitions : Nat → Pattern → Reader Pattern
  | 0, p, cs => some (p, cs)
  | fuel + 1, p, cs =>
    match cs with
    | '*' :: cs => repetitions fuel (.rep p 0 none) (skipLazy cs)
    | '+' :: cs => repetitions fuel (.rep p 1 none) (skipLazy cs)
    | '?' :: cs => repetitions fuel (.rep p 0 (some 1)) (skipLazy cs)
    | '\x7b' :: cs => do
      let ((low, high), cs) ← bounds cs
      repetitions fuel (.rep p low high) (skipLazy cs)
    | cs => some (p, cs)

def isRepetition (c : Char) : Bool := "*+?\x7b".toList.contains c

def isNameStart (c : Char) : Bool := c.isAlpha || c = '_'

def groupName : Reader Unit := fun cs =>
  let name := cs.takeWhile (· ≠ '>')
  if name.head?.any isNameStart ∧ name.all (fun c => c.isAlphanum || "_.[]".toList.contains c) ∧
      name.length < cs.length then
    some ((), cs.drop (name.length + 1))
  else none

def sequence (parts : List Pattern) : Pattern :=
  match parts with
  | [] => .empty
  | p :: ps => ps.foldl .seq p

def choice (branches : List Pattern) (last : Pattern) : Pattern := branches.foldr .alt last

def atom (f : Flags) : Reader Pattern := fun cs =>
  match cs with
  | '.' :: cs => some (.one (if f.dotAll then .all else .compl (.single '\n')), cs)
  | '^' :: cs => some (.at (if f.multiLine then .lineStart else .textStart), cs)
  | '$' :: cs => some (.at (if f.multiLine then .lineEnd else .textEnd), cs)
  | '[' :: cs => (bracket (2 * cs.length + 2) f cs).map fun (a, cs) => (.one a, cs)
  | '\\' :: cs => do
    match ← escape cs with
    | (.char c, cs) => some (.one (setOf f (.single c)), cs)
    | (.set a, cs) => some (.one a, cs)
    | (.place p, cs) => some (.at p, cs)
  | c :: cs => if isRepetition c then none else some (.one (setOf f (.single c)), cs)
  | [] => none

def skipComments : Nat → List Char → List Char
  | 0, cs => cs
  | fuel + 1, cs =>
    match cs.dropWhile Text.isBlank with
    | '#' :: cs => skipComments fuel (cs.dropWhile (· ≠ '\n'))
    | cs => cs

def skipSpaced (f : Flags) (cs : List Char) : List Char :=
  if f.spaced then skipComments cs.length cs else cs

def alternatives : Nat → Flags → List Pattern → List Pattern → Reader Pattern
  | 0, _, _, _, _ => none
  | fuel + 1, f, branches, parts, cs =>
    let group (inner : Flags) (cs : List Char) : Option (Pattern × List Char) := do
      let (p, cs) ← alternatives fuel inner [] [] cs
      let ((), cs) ← Reader.exact [')'] cs
      let (p, cs) ← repetitions cs.length p (skipSpaced f cs)
      alternatives fuel f branches (parts ++ [p]) cs
    match skipSpaced f cs with
    | [] => some (choice branches (sequence parts), [])
    | ')' :: cs => some (choice branches (sequence parts), ')' :: cs)
    | '|' :: cs => alternatives fuel f (branches ++ [sequence parts]) [] cs
    | '(' :: '?' :: 'P' :: '<' :: cs => (groupName cs).bind fun ((), cs) => group f cs
    | '(' :: '?' :: '<' :: cs => (groupName cs).bind fun ((), cs) => group f cs
    | '(' :: '?' :: cs => do
      match ← f.read true cs with
      | (inner, ':' :: cs) => group inner cs
      | (next, ')' :: cs') =>
        if cs.head? = some ')' ∨ cs'.head?.any isRepetition then none
        else alternatives fuel next branches parts cs'
      | _ => none
    | '(' :: cs => group f cs
    | cs => do
      let (p, cs) ← atom f cs
      let (p, cs) ← repetitions cs.length p (skipSpaced f cs)
      alternatives fuel f branches (parts ++ [p]) cs

def parse? (text : String) : Option Pattern :=
  match alternatives (text.length + 1) .none [] [] text.toList with
  | some (p, []) => some p
  | _ => none

end EditorSync.Pattern
