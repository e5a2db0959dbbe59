import EditorSync.Json.Number

namespace EditorSync.Json

def hexDigit (n : Nat) : Char := (Nat.digitChar n)

def escape (c : Char) : List Char :=
  if c = '"' then ['\\', '"']
  else if c = '\\' then ['\\', '\\']
  else if c = '\n' then ['\\', 'n']
  else if c = '\r' then ['\\', 'r']
  else if c = '\t' then ['\\', 't']
  else if c.toNat = 8 then ['\\', 'b']
  else if c.toNat = 12 then ['\\', 'f']
  else if c.toNat < 32 then
    ['\\', 'u', '0', '0', hexDigit (c.toNat / 16), hexDigit (c.toNat % 16)]
  else [c]

def quote (s : String) : List Char := '"' :: (s.toList.flatMap escape ++ ['"'])

mutual

def chars : Json → List Char
  | null => "null".toList
  | bool true => "true".toList
  | bool false => "false".toList
  | num n => n.render.toList
  | str s => quote s
  | arr [] => ['[', ']']
  | arr (j :: js) => '[' :: (chars j ++ elementChars js)
  | obj [] => ['\x7b', '\x7d']
  | obj ((name, j) :: rest) => '\x7b' :: (quote name ++ ':' :: (chars j ++ memberChars rest))
  | unreadable => "null".toList

def elementChars : List Json → List Char
  | [] => [']']
  | j :: js => ',' :: (chars j ++ elementChars js)

def memberChars : List (String × Json) → List Char
  | [] => ['\x7d']
  | (name, j) :: rest => ',' :: (quote name ++ ':' :: (chars j ++ memberChars rest))

end

def compact (j : Json) : String := String.ofList (chars j)

def newline (indent : Nat) : List Char := '\n' :: List.replicate (2 * indent) ' '

mutual

def prettyChars (indent : Nat) : Json → List Char
  | arr (j :: js) =>
    '[' :: (newline (indent + 1) ++ prettyChars (indent + 1) j ++ prettyElements indent js)
  | obj ((name, j) :: rest) =>
    '\x7b' :: (newline (indent + 1) ++ quote name ++ [':', ' '] ++
      prettyChars (indent + 1) j ++ prettyMembers indent rest)
  | j => chars j

def prettyElements (indent : Nat) : List Json → List Char
  | [] => newline indent ++ [']']
  | j :: js =>
    ',' :: (newline (indent + 1) ++ prettyChars (indent + 1) j ++ prettyElements indent js)

def prettyMembers (indent : Nat) : List (String × Json) → List Char
  | [] => newline indent ++ ['\x7d']
  | (name, j) :: rest =>
    ',' :: (newline (indent + 1) ++ quote name ++ [':', ' '] ++
      prettyChars (indent + 1) j ++ prettyMembers indent rest)

end

def pretty (j : Json) : String := String.ofList (prettyChars 0 j)

end EditorSync.Json
