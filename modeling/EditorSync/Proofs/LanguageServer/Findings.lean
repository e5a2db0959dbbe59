import Mathlib.Data.List.Forall2
import EditorSync.LanguageServer.Finding
import EditorSync.Proofs.Text.Positions

namespace EditorSync.LanguageServer.Finding

open Reconcile (Diagnostic)
open Text (Encoding LineIndex Upto newlines)

variable {content first covered rest last : String} {server wire : Encoding} {f : Finding}

structure Spans (content : String) (server : Encoding) (f : Finding) (first covered rest : String) :
    Prop where
  content_eq : content = first ++ covered ++ rest
  start : Upto server content f.span.start.line f.span.start.column first
  stop : Upto server content f.span.stop.line f.span.stop.column (first ++ covered) ∨
    covered = "" ∧ ∃ back, Upto server content f.span.stop.line f.span.stop.column back ∧
      back.toList <+: first.toList

def diagnostic (wire : Encoding) (f : Finding) (first covered : String) : Diagnostic where
  message := f.message
  isError := f.severity = none ∨ f.severity = some 1
  isWarning := f.severity = some 2
  start := (wire.units first).length
  stop := (wire.units (first ++ covered)).length
  line := newlines first + 1
  code := f.code.map Label.toString

def Tells (content : String) (server wire : Encoding) (f : Finding) (d : Diagnostic) : Prop :=
  ∃ first covered rest, Spans content server f first covered rest ∧
    d = f.diagnostic wire first covered

theorem exists_spans (content : String) (server : Encoding) (f : Finding) :
    ∃ first covered rest, Spans content server f first covered rest := by
  obtain ⟨first, hfirst, -⟩ := Text.exists_upto server content f.span.start.line f.span.start.column
  obtain ⟨last, hlast, -⟩ := Text.exists_upto server content f.span.stop.line f.span.stop.column
  rcases List.prefix_or_prefix_of_prefix hfirst.begins hlast.begins with hle | hback
  · obtain ⟨covered, rfl⟩ := Text.exists_rest hle
    obtain ⟨rest, hrest⟩ := Text.exists_rest hlast.begins
    exact ⟨first, covered, rest, hrest, hfirst, .inl hlast⟩
  · obtain ⟨rest, hrest⟩ := Text.exists_rest hfirst.begins
    refine ⟨first, "", rest, ?_, hfirst, .inr ⟨rfl, last, hlast, hback⟩⟩
    rw [String.append_empty, hrest]

theorem Spans.begins (h : Spans content server f first covered rest) :
    (first ++ covered).toList <+: content.toList := by
  rw [h.content_eq]
  exact Text.prefix_append

theorem Spans.max_eq (h : Spans content server f first covered rest)
    (hlast : Upto server content f.span.stop.line f.span.stop.column last) :
    max (Text.encode last).length (Text.encode first).length =
      (Text.encode (first ++ covered)).length := by
  rcases h.stop with hstop | ⟨rfl, back, hback, hle⟩
  · rw [hlast.unique hstop]
    exact Nat.max_eq_left (Text.length_encode_le Text.prefix_append)
  · rw [hlast.unique hback, String.append_empty]
    exact Nat.max_eq_right (Text.length_encode_le hle)

theorem lineOfByte_of_begins (h : first.toList <+: content.toList) :
    (LineIndex.of content).lineOfByte (Text.encode first).length = newlines first := by
  obtain ⟨rest, rfl⟩ := Text.exists_rest h
  obtain ⟨head, tail, rfl, hhead, htail⟩ := Text.exists_last_line first
  rw [Text.lineOfByte_append hhead htail, Text.newlines_append, Text.newlines_eq_zero_iff.mpr htail,
    Nat.add_zero]

theorem Spans.toDiagnostic?_eq (h : Spans content server f first covered rest) (wire : Encoding) :
    f.toDiagnostic? (.of content) server wire = some (f.diagnostic wire first covered) := by
  obtain ⟨last, hlast, hbyte⟩ :=
    Text.exists_upto server content f.span.stop.line f.span.stop.column
  simp only [toDiagnostic?, h.start.byteOfPosition?_eq, hbyte, h.max_eq hlast,
    Text.offsetOfByte?_eq h.start.begins, Text.offsetOfByte?_eq h.begins,
    lineOfByte_of_begins h.start.begins, Option.bind_eq_bind, Option.bind_some, Option.pure_def,
    diagnostic]

/-- Every finding is told of, in the order of the server. -/
theorem forall₂_diagnosticsOf (findings : List Finding) (content : String)
    (server wire : Encoding) : List.Forall₂ (Tells content server wire) findings
      (diagnosticsOf findings content server wire) := by
  have hmap : ∃ ds, (findings.mapM fun (f : Finding) =>
      f.toDiagnostic? (.of content) server wire) = some ds ∧
      List.Forall₂ (Tells content server wire) findings ds := by
    induction findings with
    | nil => exact ⟨[], rfl, .nil⟩
    | cons f findings ih =>
      obtain ⟨ds, hds, hall⟩ := ih
      obtain ⟨first, covered, rest, hspans⟩ := exists_spans content server f
      have htells : Tells content server wire f (f.diagnostic wire first covered) :=
        ⟨first, covered, rest, hspans, rfl⟩
      refine ⟨f.diagnostic wire first covered :: ds, ?_, .cons htells hall⟩
      rw [List.mapM_cons, hspans.toDiagnostic?_eq wire, hds]
      rfl
  obtain ⟨ds, hds, hall⟩ := hmap
  rw [diagnosticsOf, hds]
  exact hall

theorem Spans.ordered (h : Spans content server f first covered rest) (wire : Encoding) :
    (f.diagnostic wire first covered).start ≤ (f.diagnostic wire first covered).stop ∧
      (f.diagnostic wire first covered).stop ≤ (wire.units content).length := by
  simp only [diagnostic, Encoding.length_units]
  exact ⟨Text.span_le_of_prefix Text.prefix_append, Text.span_le_of_prefix h.begins⟩

theorem toProblem_range {d : Diagnostic} (h : d.start ≤ d.stop) (file : String) :
    (d.toProblem file).sourceStart ≤ (d.toProblem file).sourceEnd ∧
      (d.toProblem file).sourceEnd + 1 - (d.toProblem file).sourceStart =
        if d.start = d.stop then 1 else d.stop - d.start := by
  refine ⟨Nat.le_max_right _ _, ?_⟩
  simp only [Diagnostic.toProblem]
  split <;> omega

/-- A finding marks a part of the text, whichever places it names. The part begins where its start
is and ends where its end is, or is empty if the end is no later. In the units of the editor its
ends are those of the texts before them, its line is counted by the newlines before it, and the
problem has just the units of the part, or one if there is none. -/
theorem problem_fits (content : String) (server wire : Encoding) (f : Finding) (file : String) :
    ∃ first covered rest d, Spans content server f first covered rest ∧
      f.toDiagnostic? (.of content) server wire = some d ∧
      d.start = (wire.units first).length ∧ d.stop = (wire.units (first ++ covered)).length ∧
      d.start ≤ d.stop ∧ d.stop ≤ (wire.units content).length ∧ d.line = newlines first + 1 ∧
      (d.toProblem file).sourceStart = d.start ∧
      (d.toProblem file).sourceStart ≤ (d.toProblem file).sourceEnd ∧
      (d.toProblem file).sourceEnd + 1 - (d.toProblem file).sourceStart =
        if d.start = d.stop then 1 else d.stop - d.start := by
  obtain ⟨first, covered, rest, hspans⟩ := exists_spans content server f
  obtain ⟨hle, hend⟩ := hspans.ordered wire
  obtain ⟨hordered, hunits⟩ := toProblem_range hle file
  exact ⟨first, covered, rest, f.diagnostic wire first covered, hspans,
    hspans.toDiagnostic?_eq wire, rfl, rfl, hle, hend, rfl, rfl, hordered, hunits⟩

end EditorSync.LanguageServer.Finding
