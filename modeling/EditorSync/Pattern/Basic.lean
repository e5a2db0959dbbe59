import EditorSync.Pattern.CharSet

namespace EditorSync

inductive Pattern.Place where
  | textStart
  | textEnd
  | lineStart
  | lineEnd
  | wordEdge
  | noWordEdge
  | wordStart
  | wordEnd
  deriving DecidableEq, Repr

inductive Pattern where
  | empty
  | one (set : Pattern.CharSet)
  | at (place : Pattern.Place)
  | seq (a b : Pattern)
  | alt (a b : Pattern)
  | rep (a : Pattern) (low : Nat) (high : Option Nat)
  deriving DecidableEq, Repr

namespace Pattern

def Place.holds (before after : Option Char) : Place → Bool
  | textStart => before.isNone
  | textEnd => after.isNone
  | lineStart => before.all (· = '\n')
  | lineEnd => after.all (· = '\n')
  | wordEdge => before.any isWordChar != after.any isWordChar
  | noWordEdge => before.any isWordChar == after.any isWordChar
  | wordStart => !before.any isWordChar && after.any isWordChar
  | wordEnd => before.any isWordChar && !after.any isWordChar

def nullable (before after : Option Char) : Pattern → Bool
  | empty => true
  | one _ => false
  | .at place => place.holds before after
  | seq a b => a.nullable before after && b.nullable before after
  | alt a b => a.nullable before after || b.nullable before after
  | rep a low _ => low = 0 || a.nullable before after

def followedBy (rest : Pattern) : Pattern → Pattern
  | empty => rest
  | p => seq p rest

/-- What is left to search for after a character, as a list of possibilities. Where a repeated
pattern finds nothing at all, it can do so as often as is still needed. -/
def after (before : Option Char) (c : Char) : Pattern → List Pattern
  | empty | .at _ => []
  | one set => if set.contains c then [empty] else []
  | seq a b =>
    (a.after before c).map (followedBy b) ++
      if a.nullable before (some c) then b.after before c else []
  | alt a b => a.after before c ++ b.after before c
  | rep a low high =>
    if high = some 0 then []
    else
      let low := if a.nullable before (some c) then 0 else low - 1
      (a.after before c).map (followedBy (rep a low (high.map (· - 1))))

def search (p : Pattern) (before : Option Char) (begun : List Pattern) : List Char → Bool
  | [] => (p :: begun).any (nullable before none)
  | c :: cs =>
    let here := (p :: begun).eraseDups
    here.any (nullable before (some c)) || search p (some c) (here.flatMap (after before c)) cs

def isIn (p : Pattern) (text : String) : Bool := search p none [] text.toList

end Pattern
end EditorSync
