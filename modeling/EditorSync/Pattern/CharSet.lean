import EditorSync.Text.Blank

namespace EditorSync.Pattern

def isWordChar (c : Char) : Bool :=
  let n := c.toNat
  if n < 0x80 then c.isAlphanum || c = '_'
  else
    n = 0xAA || n = 0xB5 || n = 0xBA ||
      (0xC0 ≤ n && n ≠ 0xD7 && n ≠ 0xF7 && n < 0x2000) || n = 0x200C || n = 0x200D ||
      (0x2C00 ≤ n && n < 0x2E00) || (0x3005 ≤ n && n ≤ 0x3007) ||
      (0x3021 ≤ n && n < 0xD7FC && n ≠ 0x30FB) || (0xF900 ≤ n && n < 0xFE10) ||
      (0xFE70 ≤ n && n < 0xFF00 && n ≠ 0xFEFF) || (0xFF10 ≤ n && n ≤ 0xFF19) ||
      (0xFF21 ≤ n && n ≤ 0xFF3A) || (0xFF41 ≤ n && n ≤ 0xFF5A) || (0xFF66 ≤ n && n < 0xFFE0) ||
      (0x10000 ≤ n && n < 0x1D000) || (0x1E000 ≤ n && n < 0x1F000) ||
      (0x20000 ≤ n && n < 0xF0000)

def swapCase (c : Char) : Char := if c.isUpper then c.toLower else c.toUpper

inductive CharSet where
  | range (low high : Char)
  | digits
  | blanks
  | words
  | union (a b : CharSet)
  | inter (a b : CharSet)
  | compl (a : CharSet)
  | anyCase (a : CharSet)
  deriving DecidableEq, Repr

namespace CharSet

def contains : CharSet → Char → Bool
  | range low high, c => low ≤ c && c ≤ high
  | digits, c => c.isDigit
  | blanks, c => Text.isBlank c
  | words, c => isWordChar c
  | union a b, c => a.contains c || b.contains c
  | inter a b, c => a.contains c && b.contains c
  | compl a, c => !a.contains c
  | anyCase a, c => a.contains c || a.contains (swapCase c)

def single (c : Char) : CharSet := range c c

def none : CharSet := range '\x01' '\x00'

def all : CharSet := compl none

def ofRanges (ranges : List (Char × Char)) : CharSet :=
  ranges.foldl (fun a (low, high) => union a (range low high)) none

def named? : String → Option CharSet
  | "alnum" => some (ofRanges [('0', '9'), ('A', 'Z'), ('a', 'z')])
  | "alpha" => some (ofRanges [('A', 'Z'), ('a', 'z')])
  | "ascii" => some (range '\x00' '\x7f')
  | "blank" => some (ofRanges [('\t', '\t'), (' ', ' ')])
  | "cntrl" => some (ofRanges [('\x00', '\x1f'), ('\x7f', '\x7f')])
  | "digit" => some (range '0' '9')
  | "graph" => some (range '!' '~')
  | "lower" => some (range 'a' 'z')
  | "print" => some (range ' ' '~')
  | "punct" => some (ofRanges [('!', '/'), (':', '@'), ('[', '\x60'), ('\x7b', '~')])
  | "space" => some (ofRanges [('\t', '\r'), (' ', ' ')])
  | "upper" => some (range 'A' 'Z')
  | "word" => some (ofRanges [('0', '9'), ('A', 'Z'), ('_', '_'), ('a', 'z')])
  | "xdigit" => some (ofRanges [('0', '9'), ('A', 'F'), ('a', 'f')])
  | _ => Option.none

end CharSet
end EditorSync.Pattern
