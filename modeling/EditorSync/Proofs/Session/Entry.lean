import Mathlib.Data.List.Basic
import Mathlib.Data.List.TakeWhile
import EditorSync.Proofs.Rpc.Line
import EditorSync.Proofs.Time.Timestamp
import EditorSync.Session.Entry

namespace EditorSync.Session

open Json (Exact Decoder Scalar)
open Text (Bytes)

/-- The numbers of an event are words of 64 bits. -/
def Event.Fits : Event → Prop
  | deltaApplied _ _ seq length =>
    (∀ n, seq = some n → n < 0x10000000000000000) ∧ length < 0x10000000000000000
  | deltaBuffered _ seq => seq < 0x10000000000000000
  | reconciled _ _ problems highlights durationMs =>
    problems < 0x10000000000000000 ∧ highlights < 0x10000000000000000 ∧
      durationMs < 0x10000000000000000
  | _ => True

structure Entry.Sound (e : Entry) : Prop where
  timestamp : e.timestamp.Sound
  event : e.event.Fits

variable {e : Event} {entry : Entry} {written : List Entry}

namespace Event

theorem forall_members {P : Json → Prop} (hnull : P .null) (hstr : ∀ s, P (.str s))
    (hnat : ∀ n < 0x10000000000000000, P (.ofNat n)) (h : e.Fits) : ∀ m ∈ e.members, P m.2 := by
  cases e with
  | tracking path operation oldPath =>
    refine List.forall_mem_append.mpr ⟨by simp [hstr], ?_⟩
    exact Json.forall_mem_memberIfSome fun old _ => hstr old
  | deltaApplied path kind seq length =>
    have hseq : P (.ofOption .ofNat seq) := by
      cases seq with
      | none => exact hnull
      | some n => exact hnat n (h.1 n rfl)
    simp [members, hstr, hseq, hnat length h.2]
  | deltaBuffered path seq =>
    have hseq : P (.ofNat seq) := hnat seq h
    simp [members, hstr, hseq]
  | rejected path error reason =>
    have hpath : P (.ofOption .str path) := by
      cases path with
      | none => exact hnull
      | some s => exact hstr s
    simp [members, hstr, hpath]
  | reconciled path owner problems highlights durationMs =>
    simp [members, hstr, hnat problems h.1, hnat highlights h.2.1, hnat durationMs h.2.2]
  | endpointConnected | endpointDisconnected | reconcileFailed | serverState =>
    simp [members, hstr]
  | started | shutdown => simp [members]

theorem exact_members (h : e.Fits) : ∀ m ∈ e.members, Exact m.2 :=
  forall_members Exact.null Exact.str (fun n hn => Exact.int (by omega) (by omega)) h

theorem scalar_members (h : e.Fits) : ∀ m ∈ e.members, Scalar m.2 :=
  forall_members (fun depth => by cases depth <;> rfl) Json.scalar_str
    (fun n _ => Json.scalar_num (.int n)) h

theorem name_ne_timestamp (e : Event) : ∀ m ∈ e.members, m.1 ≠ "timestamp" := by
  cases e with
  | tracking path operation oldPath => cases oldPath <;> simp [members, Json.memberIfSome]
  | _ => simp [members]

theorem optional_word64 {seq : Option Nat} (h : ∀ n, seq = some n → n < 0x10000000000000000)
    (depth : Nat) : Decoder.word64.optional depth (.ofOption .ofNat seq) = some seq := by
  cases seq with
  | none => rfl
  | some n =>
    have hword := Json.word64_ofNat (h n rfl) depth
    change (Decoder.word64 depth (.ofNat n)).map some = some (some n)
    rw [hword, Option.map_some]

theorem decoder_toJson (h : e.Fits) (depth : Nat) : decoder (depth + 1) e.toJson = some e := by
  cases e with
  | tracking path operation oldPath => cases oldPath <;> rfl
  | deltaApplied path kind seq length =>
    have hread : decoder (depth + 1) (deltaApplied path kind seq length).toJson = (do
        return deltaApplied path kind (← Decoder.word64.optional depth (.ofOption .ofNat seq))
          (← Decoder.word64 depth (.ofNat length))) := rfl
    rw [hread, optional_word64 h.1, Json.word64_ofNat h.2]
    rfl
  | deltaBuffered path seq =>
    have hread : decoder (depth + 1) (deltaBuffered path seq).toJson =
        (do return deltaBuffered path (← Decoder.word64 depth (.ofNat seq))) := rfl
    rw [hread, Json.word64_ofNat h]
    rfl
  | rejected path error reason => cases path <;> rfl
  | reconciled path owner problems highlights durationMs =>
    have hread : decoder (depth + 1) (reconciled path owner problems highlights durationMs).toJson =
        (do
          return reconciled path owner (← Decoder.word64 depth (.ofNat problems))
            (← Decoder.word64 depth (.ofNat highlights))
            (← Decoder.word64 depth (.ofNat durationMs))) := rfl
    rw [hread, Json.word64_ofNat h.1, Json.word64_ofNat h.2.1, Json.word64_ofNat h.2.2]
    rfl
  | endpointConnected | endpointDisconnected | reconcileFailed | serverState | started | shutdown =>
    rfl

end Event

namespace Entry

theorem exact_toJson (h : entry.event.Fits) : Exact entry.toJson := by
  refine Exact.obj ?_
  simp only [List.forall_mem_cons]
  exact ⟨Exact.str _, Exact.str _, Event.exact_members h⟩

theorem decoder_obj {members : List (String × Json)} (hname : ∀ m ∈ members, m.1 ≠ "timestamp")
    (hscalar : ∀ m ∈ members, Scalar m.2) (depth : Nat) (text : String) :
    decoder (depth + 1) (.obj (("timestamp", .str text) :: members)) = (do
      return ⟨← Time.Timestamp.parse? text, ← Event.decoder (depth + 1) (.obj members)⟩) := by
  have hothers : (("timestamp", Json.str text) :: members).filter (·.1 != "timestamp") = members := by
    rw [List.filter_cons_of_neg (by simp), List.filter_eq_self]
    intro m hm
    simpa using hname m hm
  have hown : (("timestamp", Json.str text) :: members).filter (·.1 == "timestamp") =
      [("timestamp", .str text)] := by
    rw [List.filter_cons_of_pos (by simp), List.filter_eq_nil_iff.mpr]
    intro m hm
    simpa using hname m hm
  have hvalues : (members.all fun m => (m.2.value? depth).isSome) = true := by
    rw [List.all_eq_true]
    intro m hm
    rw [hscalar m hm depth, Option.isSome_some]
  unfold decoder
  simp only [hothers, hown, hvalues]
  rfl

theorem ofLine?_compact (h : entry.Sound) : ofLine? entry.toJson.compact = some entry := by
  have hscalar : ∀ m ∈ ("type", .str entry.event.typeName) :: entry.event.members, Scalar m.2 :=
    List.forall_mem_cons.mpr ⟨Json.scalar_str _, Event.scalar_members h.event⟩
  have hname : ∀ m ∈ ("type", Json.str entry.event.typeName) :: entry.event.members,
      m.1 ≠ "timestamp" :=
    List.forall_mem_cons.mpr ⟨by simp, Event.name_ne_timestamp _⟩
  have hevent : Event.decoder (126 + 1)
      (.obj (("type", .str entry.event.typeName) :: entry.event.members)) = some entry.event :=
    Event.decoder_toJson h.event 126
  rw [ofLine?, Json.parse?_compact (exact_toJson h.event), Option.bind_some]
  refine (decoder_obj hname hscalar 126 _).trans ?_
  rw [Time.Timestamp.parse?_text h.timestamp, hevent]
  rfl

def line (entry : Entry) : Bytes := Text.encode entry.toJson.compact

theorem decode?_line (entry : Entry) : Text.decode? entry.line = some entry.toJson.compact := by
  rw [line, Text.decode?_encode]

theorem toLine_eq (entry : Entry) : entry.toLine = entry.line ++ [10] := by
  have hnewline : Text.encode "\n" = [10] := by decide
  rw [toLine, Text.encode_append, hnewline, line]

theorem newline_not_mem_line (h : entry.event.Fits) : 10 ∉ entry.line :=
  (exact_toJson h).newline_not_mem_encode

end Entry

theorem entries_flatMap_toLine (h : ∀ entry ∈ written, entry.Sound) :
    entries (written.flatMap Entry.toLine) = written := by
  have hlines : Text.byteLines (written.flatMap Entry.toLine) = written.map Entry.line := by
    have hlog : written.flatMap Entry.toLine = Text.terminated (written.map Entry.line) := by
      simp only [Text.terminated, List.flatMap_map, ← Entry.toLine_eq]
    rw [hlog, Text.byteLines_terminated]
    intro line hline
    obtain ⟨entry, hentry, rfl⟩ := List.mem_map.mp hline
    exact Entry.newline_not_mem_line (h entry hentry).event
  have htexts : (written.map Entry.line).map Text.decode? =
      written.map fun entry => some entry.toJson.compact := by
    simp only [List.map_map, Function.comp_def, Entry.decode?_line]
  have hall : (written.map fun entry => some entry.toJson.compact).takeWhile Option.isSome =
      written.map fun entry => some entry.toJson.compact := by
    rw [List.takeWhile_eq_self_iff]
    simp
  have hread : ∀ entry ∈ written, Entry.ofLine? entry.toJson.compact = some entry :=
    fun entry hentry => Entry.ofLine?_compact (h entry hentry)
  rw [entries, hlines, htexts, hall, List.filterMap_map]
  simp only [Function.comp_def, Option.bind_some]
  rw [List.filterMap_congr hread, List.filterMap_some]

end EditorSync.Session
