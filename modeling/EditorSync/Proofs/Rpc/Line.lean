import EditorSync.Proofs.Json.Members
import EditorSync.Rpc.Line

namespace EditorSync.Json

variable {j : Json} {members : List (String × Json)}

theorem not_newline_mem_escape (c : Char) : '\n' ∉ escape c := by
  have hdigit : ∀ d < 16, '\n' ≠ hexDigit d := by decide
  unfold escape
  split
  next => decide
  split
  next => decide
  split
  next => decide
  split
  next => decide
  split
  next => decide
  split
  next => decide
  split
  next => decide
  next hnewline _ _ _ _ =>
    split
    next h =>
      have hhigh := hdigit (c.toNat / 16) (by omega)
      have hlow := hdigit (c.toNat % 16) (by omega)
      simp [hhigh, hlow]
    next => simpa using Ne.symm hnewline

theorem not_newline_mem_quote (s : String) : '\n' ∉ quote s := by
  have hinside : '\n' ∉ s.toList.flatMap escape := fun h => by
    obtain ⟨c, _, hc⟩ := List.mem_flatMap.mp h
    exact not_newline_mem_escape c hc
  simp [quote, hinside]

theorem not_newline_mem_toDigits (n : Nat) : '\n' ∉ Nat.toDigits 10 n := fun h =>
  absurd (Nat.isDigit_of_mem_toDigits (by decide) (by decide) h) (by decide)

theorem not_newline_mem_elementChars {js : List Json} (h : ∀ j ∈ js, '\n' ∉ chars j) :
    '\n' ∉ elementChars js := by
  induction js with
  | nil => decide
  | cons j js ih =>
    rw [List.forall_mem_cons] at h
    simp [elementChars, h.1, ih h.2]

theorem not_newline_mem_memberChars (h : ∀ m ∈ members, '\n' ∉ chars m.2) :
    '\n' ∉ memberChars members := by
  induction members with
  | nil => decide
  | cons m members ih =>
    rw [List.forall_mem_cons] at h
    simp [memberChars, not_newline_mem_quote, h.1, ih h.2]

theorem Exact.not_newline_mem_chars (h : Exact j) : '\n' ∉ chars j := by
  induction h with
  | null => decide
  | bool b => cases b <;> decide
  | @int n _ _ =>
    cases n with
    | ofNat n => exact chars_ofNat n ▸ not_newline_mem_toDigits n
    | negSucc n =>
      rw [chars_negSucc]
      simp [not_newline_mem_toDigits]
  | str s => exact not_newline_mem_quote s
  | @arr elements _ ih =>
    cases elements with
    | nil => decide
    | cons j js =>
      rw [List.forall_mem_cons] at ih
      simp [chars, ih.1, not_newline_mem_elementChars ih.2]
  | @obj members _ ih =>
    cases members with
    | nil => decide
    | cons m members =>
      rw [List.forall_mem_cons] at ih
      simp [chars, not_newline_mem_quote, ih.1, not_newline_mem_memberChars ih.2]

theorem Exact.newline_not_mem_encode (h : Exact j) : 10 ∉ Text.encode j.compact := by
  apply Text.newline_not_mem_encode
  rw [compact, String.toList_ofList]
  exact h.not_newline_mem_chars

theorem getLast?_memberChars (members : List (String × Json)) :
    (memberChars members).getLast? = some '\x7d' := by
  induction members with
  | nil => rfl
  | cons m members ih =>
    obtain ⟨name, j⟩ := m
    simp [memberChars, List.getLast?_cons, List.getLast?_append, ih]

theorem getLast?_chars_obj (members : List (String × Json)) :
    (chars (obj members)).getLast? = some '\x7d' := by
  cases members with
  | nil => rfl
  | cons m members =>
    obtain ⟨name, j⟩ := m
    simp [chars, List.getLast?_cons, List.getLast?_append, getLast?_memberChars]

theorem head?_chars_obj (members : List (String × Json)) :
    (chars (obj members)).head? = some '\x7b' := by
  cases members <;> rfl

end EditorSync.Json

namespace EditorSync.Rpc

open Json (Exact Scalar)

variable {message : Notification}

theorem decoder_toJson {depth : Nat} (h : Json.value? depth message.params = some message.params) :
    Notification.decoder (depth + 1) message.toJson = some message := by
  have hnodup : (([("jsonrpc", .str message.jsonrpc), ("method", .str message.method),
      ("params", message.params)] : List (String × Json)).map (·.1)).Nodup := by
    change ["jsonrpc", "method", "params"].Nodup
    decide
  rw [Notification.decoder, Notification.toJson, Json.record_obj _ _ hnodup,
    Json.Record.required_eq (j := .str message.jsonrpc) (a := message.jsonrpc) rfl rfl,
    Json.Record.required_eq (j := .str message.method) (a := message.method) rfl rfl,
    Json.Record.withDefault_eq (j := message.params) (a := message.params) rfl h]
  rfl

theorem exact_toJson (h : Exact message.params) : Exact message.toJson := by
  refine Exact.obj ?_
  simp [Exact.str, h]

theorem ofText_append_blanks (hexact : Exact message.params)
    (hvalue : Json.value? 126 message.params = some message.params) {blanks : List Char}
    (hblanks : ∀ c ∈ blanks, Text.isBlank c = true) :
    Line.ofText (message.toJson.compact ++ String.ofList blanks) = .notification message := by
  have htrim : Text.trim (message.toJson.compact ++ String.ofList blanks) =
      message.toJson.compact := by
    have hchars : message.toJson.compact ++ String.ofList blanks =
        String.ofList ([] ++ message.toJson.chars ++ blanks) := by
      rw [Json.compact, List.nil_append, String.ofList_append]
    have hhead := Json.head?_chars_obj
      [("jsonrpc", .str message.jsonrpc), ("method", .str message.method), ("params", message.params)]
    have hlast := Json.getLast?_chars_obj
      [("jsonrpc", .str message.jsonrpc), ("method", .str message.method), ("params", message.params)]
    rw [hchars]
    refine Text.trim_eq (fun _ hc => absurd hc List.not_mem_nil) hblanks ?_ ?_
    · intro c hc
      obtain rfl : '\x7b' = c := Option.some.inj (hhead.symm.trans hc)
      rfl
    · intro c hc
      obtain rfl : '\x7d' = c := Option.some.inj (hlast.symm.trans hc)
      rfl
  have hne : message.toJson.compact ≠ "" := by
    intro hempty
    have hnil : message.toJson.chars = [] := by
      rw [← String.toList_ofList (l := message.toJson.chars)]
      exact congrArg String.toList hempty
    cases hnil
  have hread : read? Notification.decoder message.toJson.compact = some message := by
    rw [read?, Json.parse?_compact (exact_toJson hexact), Option.bind_some]
    exact decoder_toJson hvalue
  unfold Line.ofText
  simp only [htrim, if_neg hne, hread]

theorem ofText_compact (hexact : Exact message.params)
    (hvalue : Json.value? 126 message.params = some message.params) :
    Line.ofText message.toJson.compact = .notification message := by
  have hread := ofText_append_blanks hexact hvalue fun c hc => absurd hc List.not_mem_nil
  rwa [String.ofList_nil, String.append_empty] at hread

theorem ofText_toLine (hexact : Exact message.params)
    (hvalue : Json.value? 126 message.params = some message.params) :
    Line.ofText message.toLine = .notification message := by
  refine ofText_append_blanks hexact hvalue fun c hc => ?_
  obtain rfl := List.mem_singleton.mp hc
  rfl

theorem toList_toLine (hexact : Exact message.params) :
    ∃ text, message.toLine.toList = text ++ ['\n'] ∧ '\n' ∉ text := by
  refine ⟨message.toJson.chars, ?_, (exact_toJson hexact).not_newline_mem_chars⟩
  rw [Notification.toLine, toLine, String.toList_append, Json.compact, String.toList_ofList]
  rfl

end EditorSync.Rpc
