import EditorSync.Proofs.Message.EditorChanges
import EditorSync.Proofs.Rpc.Line

namespace EditorSync.EditorChanges

open Json (Exact Scalar memberIfSome)
open Text (Encoding)

variable {m : EditorChanges} {delta : Delta} {target : ChangeTarget} {enc : Encoding}
  {seq : Option Nat}

structure Fits (m : EditorChanges) : Prop where
  offset : m.offset < 0x10000000000000000
  length : ∀ n, m.length = some n → n < 0x10000000000000000
  removed : ∀ n, m.removed = some n → n < 0x10000000000000000
  seq : ∀ n, m.seq = some n → n < 0x10000000000000000

def members (m : EditorChanges) : List (String × Json) :=
  [("type", m.kind.toJson), ("workingCopyOwnerID", .str m.owner), ("projectPath", .str m.project),
    ("fileLocation", .str m.file), ("offset", .ofNat m.offset)] ++
    memberIfSome "length" .ofNat m.length ++ memberIfSome "removedCharCount" .ofNat m.removed ++
    memberIfSome "text" .str m.text ++ memberIfSome "seq" .ofNat m.seq

def memberNames : List String :=
  ["type", "workingCopyOwnerID", "projectPath", "fileLocation", "offset", "length",
    "removedCharCount", "text", "seq"]

theorem names_members (m : EditorChanges) : (m.members.map (·.1)).Sublist memberNames := by
  simp only [members, List.map_append]
  have hlength := Json.names_memberIfSome "length" Json.ofNat m.length
  have hremoved := Json.names_memberIfSome "removedCharCount" Json.ofNat m.removed
  have htext := Json.names_memberIfSome "text" Json.str m.text
  have hseq := Json.names_memberIfSome "seq" Json.ofNat m.seq
  exact ((((List.Sublist.refl _).append hlength).append hremoved).append htext).append hseq

theorem nodup_members (m : EditorChanges) : (m.members.map (·.1)).Nodup := by
  have hnodup : memberNames.Nodup := by decide
  exact hnodup.sublist (names_members m)

theorem forall_members {P : Json → Prop} (hstr : ∀ s, P (.str s))
    (hnat : ∀ n < 0x10000000000000000, P (.ofNat n)) (h : m.Fits) :
    ∀ member ∈ m.members, P member.2 := by
  have hfirst : ∀ member ∈ [("type", m.kind.toJson), ("workingCopyOwnerID", Json.str m.owner),
      ("projectPath", .str m.project), ("fileLocation", .str m.file), ("offset", .ofNat m.offset)],
      P member.2 := by
    simp only [List.forall_mem_cons]
    exact ⟨hstr _, hstr _, hstr _, hstr _, hnat _ h.offset, fun _ hm => nomatch hm⟩
  simp only [members, List.forall_mem_append]
  refine ⟨⟨⟨⟨hfirst, ?_⟩, ?_⟩, ?_⟩, ?_⟩
  · exact Json.forall_mem_memberIfSome fun n hn => hnat n (h.length n hn)
  · exact Json.forall_mem_memberIfSome fun n hn => hnat n (h.removed n hn)
  · exact Json.forall_mem_memberIfSome fun s _ => hstr s
  · exact Json.forall_mem_memberIfSome fun n hn => hnat n (h.seq n hn)

theorem exact_members (h : m.Fits) : ∀ member ∈ m.members, Exact member.2 :=
  forall_members Exact.str (fun n hn => Exact.int (by omega) (by omega)) h

theorem scalar_members (h : m.Fits) : ∀ member ∈ m.members, Scalar member.2 :=
  forall_members Json.scalar_str (fun n _ => Json.scalar_num (.int n)) h

theorem kind_of_name (kind : Delta.Kind) (depth : Nat) :
    Delta.Kind.decoder depth kind.toJson = some kind := by
  cases kind <;> rfl

theorem lookup_length (m : EditorChanges) :
    m.members.lookup "length" = m.length.map .ofNat := by
  simp [members, List.lookup_append, Json.lookup_cons_eq_ite, Json.lookup_memberIfSome]

theorem lookup_removed (m : EditorChanges) :
    m.members.lookup "removedCharCount" = m.removed.map .ofNat := by
  simp [members, List.lookup_append, Json.lookup_cons_eq_ite, Json.lookup_memberIfSome]

theorem lookup_text (m : EditorChanges) : m.members.lookup "text" = m.text.map .str := by
  simp [members, List.lookup_append, Json.lookup_cons_eq_ite, Json.lookup_memberIfSome]

theorem lookup_seq (m : EditorChanges) : m.members.lookup "seq" = m.seq.map .ofNat := by
  simp [members, List.lookup_append, Json.lookup_cons_eq_ite, Json.lookup_memberIfSome]

theorem decoder_obj (h : m.Fits) {members : List (String × Json)}
    (hnodup : (members.map (·.1)).Nodup)
    (hlookup : ∀ name, members.lookup name = m.members.lookup name) (depth : Nat) :
    decoder (depth + 1) (.obj members) = some m := by
  have hmember {name : String} {j? : Option Json} (hname : name ∈ memberNames)
      (hown : m.members.lookup name = j?) :
      (members.filter fun member => memberNames.contains member.1).lookup name = j? :=
    ((Json.lookup_filter memberNames members name hname).trans (hlookup name)).trans hown
  have hword {a? : Option Nat} {name : String} (hname : name ∈ memberNames)
      (hown : m.members.lookup name = a?.map Json.ofNat)
      (hfits : ∀ n, a? = some n → n < 0x10000000000000000) :
      Json.Record.optionalOrAbsent ⟨false, depth, members.filter fun member =>
        memberNames.contains member.1⟩ name Json.Decoder.word64 = some a? :=
    Json.Record.optionalOrAbsent_eq (hmember hname hown) (fun _ heq => nomatch heq)
      fun n hn => Json.word64_ofNat (hfits n hn) depth
  have htext : Json.Record.optionalOrAbsent ⟨false, depth, members.filter fun member =>
      memberNames.contains member.1⟩ "text" Json.Decoder.string = some m.text :=
    Json.Record.optionalOrAbsent_eq (hmember (by decide) m.lookup_text)
      (fun _ heq => nomatch heq) fun s _ => rfl
  rw [decoder, ← memberNames]
  refine (Json.record_obj memberNames _ hnodup depth).trans ?_
  rw [Json.Record.required_eq (hmember (by decide) rfl) (kind_of_name m.kind depth),
    Json.Record.required_eq (hmember (by decide) rfl) rfl,
    Json.Record.required_eq (hmember (by decide) rfl) rfl,
    Json.Record.required_eq (hmember (by decide) rfl) rfl,
    Json.Record.withDefault_eq (hmember (by decide) rfl) (Json.word64_ofNat h.offset depth),
    hword (by decide) m.lookup_length h.length, hword (by decide) m.lookup_removed h.removed,
    htext, hword (by decide) m.lookup_seq h.seq]
  rfl

theorem params_eq (h : m.Fits) :
    (Rpc.Notification.of method m.toJson).params = .obj (Json.gather m.members) :=
  Json.sorted_obj (scalar_members h)

theorem decode?_params (h : m.Fits) :
    Json.decode? decoder (Rpc.Notification.of method m.toJson).params = some m := by
  rw [params_eq h, Json.decode?, Json.height]
  exact decoder_obj h (Json.ordered_gather m.members).nodup
    (Json.lookup_gather (nodup_members m)) _

theorem exact_params (h : m.Fits) : Exact (Rpc.Notification.of method m.toJson).params := by
  rw [params_eq h]
  exact Exact.obj fun member hmember => exact_members h member (Json.mem_of_mem_gather hmember)

theorem value?_params (h : m.Fits) (depth : Nat) :
    Json.value? (depth + 1) (Rpc.Notification.of method m.toJson).params =
      some (Rpc.Notification.of method m.toJson).params := by
  have hscalar : ∀ member ∈ Json.gather m.members, Scalar member.2 := fun member hmember =>
    scalar_members h member (Json.mem_of_mem_gather hmember)
  rw [params_eq h, Json.value?_obj hscalar, (Json.ordered_gather m.members).gather_eq]

/-- A delta comes back, with its target and its number, from the line it was sent on. A message
has a delta exactly if its project contains its file and it carries what its kind needs, and a
new message for that delta has the same delta again. -/
theorem delta_of_line (hcheck : delta.check = .ok ())
    (howns : Path.isProperAncestor target.project target.file = true)
    (hfits : (ofDelta delta target enc seq).Fits) :
    let message := Rpc.Notification.of method (ofDelta delta target enc seq).toJson
    (∃ text, message.toLine.toList = text ++ ['\n'] ∧ '\n' ∉ text) ∧
    Rpc.Line.ofText message.toLine = .notification message ∧
    (∃ m, Json.decode? decoder message.params = some m ∧ m.toDelta = .ok delta ∧
      m.owner = target.owner ∧ m.project = target.project ∧ m.file = target.file ∧ m.seq = seq) ∧
    ∀ (j : Json) (m : EditorChanges), Json.decode? decoder j = some m →
      ((∃ delta, m.toDelta = .ok delta) ↔
        Path.isProperAncestor m.project m.file = true ∧ m.Carries) ∧
      ∀ (delta : Delta) (enc : Encoding), m.toDelta = .ok delta →
        (ofDelta delta ⟨m.owner, m.project, m.file⟩ enc m.seq).toDelta = .ok delta := by
  intro message
  refine ⟨Rpc.toList_toLine (exact_params hfits),
    Rpc.ofText_toLine (exact_params hfits) (value?_params hfits _),
    ⟨_, decode?_params hfits, toDelta_ofDelta delta target enc seq howns hcheck,
      rfl, rfl, rfl, rfl⟩, ?_⟩
  intro j m _
  refine ⟨exists_toDelta_iff, fun delta enc hdelta => ?_⟩
  obtain ⟨howns, -, hcheck⟩ := toDelta_eq_ok_iff.mp hdelta
  exact toDelta_ofDelta delta _ enc m.seq howns hcheck

theorem delta_of_line_escaped :
    let delta := Delta.insert 3 "a\n\"\\\x01😀"
    let target : ChangeTarget := ⟨"o", "/p", "/p/a"⟩
    let sent := ofDelta delta target .utf16 (some 0xFFFFFFFFFFFFFFFF)
    let message := Rpc.Notification.of method sent.toJson
    delta.check = .ok () ∧ Path.isProperAncestor target.project target.file = true ∧ sent.Fits ∧
    (∃ text, message.toLine.toList = text ++ ['\n'] ∧ '\n' ∉ text) ∧
    Rpc.Line.ofText message.toLine = .notification message ∧
    ∃ m, Json.decode? decoder message.params = some m ∧ m.toDelta = .ok delta ∧
      m.owner = "o" ∧ m.project = "/p" ∧ m.file = "/p/a" ∧ m.seq = some 0xFFFFFFFFFFFFFFFF := by
  intro delta target sent message
  have hcheck : delta.check = .ok () := rfl
  have howns : Path.isProperAncestor target.project target.file = true := by decide
  have hfits : sent.Fits := by
    refine ⟨by decide, fun n hn => ?_, fun _ hn => (nomatch hn), fun n hn => ?_⟩
    · obtain rfl : 7 = n := Option.some.inj hn
      decide
    · obtain rfl : 0xFFFFFFFFFFFFFFFF = n := Option.some.inj hn
      decide
  obtain ⟨hline, hread, hdelta, -⟩ := delta_of_line hcheck howns hfits
  exact ⟨hcheck, howns, hfits, hline, hread, hdelta⟩

end EditorSync.EditorChanges
