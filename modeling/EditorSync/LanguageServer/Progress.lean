import EditorSync.Json.Decoder

namespace EditorSync.LanguageServer

open Json (Decoder)

inductive Label where
  | number (n : Int)
  | text (s : String)
  deriving DecidableEq, Repr

namespace Label

def decoder : Decoder Label :=
  ((Decoder.integer (-0x80000000) 0x7FFFFFFF).map number).or (Decoder.string.map text)

def toString : Label → String
  | number n => s!"{n}"
  | text s => s

end Label

inductive Progress.Stage where
  | begin
  | report
  | done
  deriving DecidableEq, Repr

structure Progress where
  token : Label
  stage : Progress.Stage
  deriving DecidableEq, Repr

namespace Progress

def Stage.decoder : Decoder Stage :=
  let details (r : Json.Record) : Option Unit := do
    let _ ← r.optional "cancellable" Decoder.boolean
    let _ ← r.optional "message" Decoder.string
    let _ ← r.optional "percentage" Decoder.word32
  Decoder.tagged "kind" [
    ("begin", Decoder.record ["title", "cancellable", "message", "percentage"] fun r => do
      let _ ← r.required "title" Decoder.string
      details r
      return begin),
    ("report", Decoder.record ["cancellable", "message", "percentage"] fun r => do
      details r
      return report),
    ("end", Decoder.record ["message"] fun r => do
      let _ ← r.optional "message" Decoder.string
      return done)]

def decoder : Decoder Progress :=
  Decoder.record ["token", "value"] fun r => do
    return { token := ← r.required "token" Label.decoder,
             stage := ← r.required "value" Stage.decoder }

def update (active : List Label) (p : Progress) : List Label :=
  match p.stage with
  | .begin | .report => if p.token ∈ active then active else p.token :: active
  | .done => active.filter (· ≠ p.token)

end Progress
end EditorSync.LanguageServer
