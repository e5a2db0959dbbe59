import EditorSync.Path.Basic
import EditorSync.Text.Bytes

namespace EditorSync.LanguageServer

inductive UriError where
  | notAbsolute (path : String)
  | invalid (path : String)
  deriving DecidableEq, Repr

/-- What is told of a path without a URI. The parser of URIs has its own words for what it
refuses. -/
def UriError.message (refusal : String → String) : UriError → String
  | notAbsolute path => s!"Not an absolute path: {path}"
  | invalid path => s!"Invalid URI for {path}: {refusal path}"

def isPlain (c : Char) : Bool :=
  c.isAlphanum || "-._~!$&'()*+,;=:@".toList.contains c

def isForbidden (c : Char) : Bool := "[]^|".toList.contains c

def upperHex (n : Nat) : Char := (Nat.digitChar n).toUpper

def percentByte (b : UInt8) : List Char :=
  ['%', upperHex (b.toNat / 16), upperHex (b.toNat % 16)]

def escapeInUri (c : Char) : List Char :=
  if isPlain c then [c] else (Text.encode c.toString).flatMap percentByte

def segment (name : String) : List Char := name.toList.flatMap escapeInUri

def Component.text : Path.Component → Option String
  | .root => none
  | .here => some "."
  | .parent => some ".."
  | .name s => some s

def uriOf (path : String) : Except UriError String :=
  if !Path.isAbsolute path then .error (.notAbsolute path)
  else
    let names := (Path.components path).filterMap Component.text
    if names.any fun name => name.toList.any isForbidden then .error (.invalid path)
    else if names = [] then .ok "file:///"
    else .ok ("file://" ++ String.ofList (names.flatMap fun name => '/' :: segment name))

def isHex (c : Char) : Bool := c.isDigit || "abcdefABCDEF".toList.contains c

def isPart (extra : List Char) : List Char → Bool
  | '%' :: a :: b :: cs => isHex a && isHex b && isPart extra cs
  | c :: cs => (isPlain c || extra.contains c) && isPart extra cs
  | [] => true

def isScheme : List Char → Bool
  | c :: cs => c.isAlpha && cs.all fun c => c.isAlphanum || "+-.".toList.contains c
  | [] => false

def isUri (text : String) : Bool :=
  let cs := text.toList
  let scheme := cs.takeWhile (· ≠ ':')
  let rest := cs.drop scheme.length
  let front := rest.takeWhile fun c => c ≠ '?' && c ≠ '#'
  let query := (rest.drop front.length).takeWhile (· ≠ '#')
  let fragment := rest.drop (front.length + query.length)
  let (authority, path) := match front with
    | ':' :: '/' :: '/' :: more => more.span (· ≠ '/')
    | _ :: path => ([], path)
    | [] => ([], [])
  isScheme scheme && rest ≠ [] && isPart ['[', ']'] authority && isPart ['/'] path &&
    isPart ['/', '?'] query && isPart ['/', '?'] (fragment.drop 1)

end EditorSync.LanguageServer
