import EditorSync.Proofs.Text
import EditorSync.Rpc.Frame

namespace EditorSync.Rpc

open Text (Bytes)

variable {body : String} {bodies : List String} {buffer header rest more : Bytes} {n : Nat}

theorem splitHeader_cons {b : UInt8} (hb : b ≠ 13) (bytes : Bytes) :
    splitHeader (b :: bytes) = (splitHeader bytes).map fun (header, body) => (b :: header, body) := by
  rw [splitHeader.eq_2]
  rintro rest' rfl -
  exact hb rfl

theorem splitHeader_append (h : 13 ∉ header) (rest : Bytes) :
    splitHeader (header ++ 13 :: 10 :: 13 :: 10 :: rest) = some (header, rest) := by
  induction header with
  | nil => rfl
  | cons b header ih =>
    rw [List.mem_cons, not_or] at h
    rw [List.cons_append, splitHeader_cons (Ne.symm h.1), ih h.2]
    rfl

theorem length_of_splitHeader (h : splitHeader buffer = some (header, rest)) :
    buffer.length = header.length + 4 + rest.length := by
  fun_induction splitHeader buffer generalizing header with
  | case1 rest' =>
    cases h
    simp
    omega
  | case2 b bytes _ ih =>
    obtain ⟨⟨header', rest'⟩, hsplit, heq⟩ := Option.map_eq_some_iff.mp h
    cases heq
    simp only [List.length_cons, ih hsplit]
    omega
  | case3 => cases h

theorem splitHeader_append_right (h : splitHeader buffer = some (header, rest)) (more : Bytes) :
    splitHeader (buffer ++ more) = some (header, rest ++ more) := by
  fun_induction splitHeader buffer generalizing header with
  | case1 rest' =>
    cases h
    rfl
  | case2 b bytes hno ih =>
    obtain ⟨⟨header', rest'⟩, hsplit, heq⟩ := Option.map_eq_some_iff.mp h
    cases heq
    rw [List.cons_append, splitHeader.eq_2, ih hsplit]
    · rfl
    · -- The end of a header lies within the bytes, so the same four would end one without `more`.
      have hlength := length_of_splitHeader hsplit
      rcases bytes with _ | ⟨x, _ | ⟨y, _ | ⟨z, bytes⟩⟩⟩ <;> simp only [List.length_cons,
        List.length_nil] at hlength
      · omega
      · omega
      · omega
      · rintro rest' rfl heq
        simp only [List.cons_append, List.cons.injEq] at heq
        obtain ⟨rfl, rfl, rfl, -⟩ := heq
        exact hno bytes rfl rfl
  | case3 => cases h

def announcement (n : Nat) : String := "Content-Length: " ++ toString n

theorem toList_announcement (n : Nat) :
    (announcement n).toList = "Content-Length".toList ++ ':' :: ' ' :: Nat.toDigits 10 n := by
  rw [announcement, String.toList_append, Text.toList_toString]
  rfl

theorem isDigit_of_mem_toDigits {c : Char} (h : c ∈ Nat.toDigits 10 n) : c.isDigit = true :=
  Nat.isDigit_of_mem_toDigits (by decide) (by decide) h

theorem frame_eq (body : String) :
    frame body = Text.encode (announcement (Text.encode body).length) ++
      13 :: 10 :: 13 :: 10 :: Text.encode body := by
  have hend : Text.encode "\r\n\r\n" = [13, 10, 13, 10] := by decide
  have htext : s!"Content-Length: {(Text.encode body).length}\r\n\r\n" =
      announcement (Text.encode body).length ++ "\r\n\r\n" := rfl
  rw [frame, htext, Text.encode_append, hend, List.append_assoc]
  rfl

theorem not_mem_encode_announcement (n : Nat) : 13 ∉ Text.encode (announcement n) := by
  intro hmem
  obtain ⟨c, hc, hval⟩ := Text.mem_toList_of_mem_encode hmem (by decide)
  obtain rfl : c = '\r' := Char.ext (UInt32.toNat_inj.mp hval)
  rw [toList_announcement, List.mem_append, List.mem_cons, List.mem_cons] at hc
  rcases hc with hc | hc | hc | hc
  · exact absurd hc (by decide)
  · cases hc
  · cases hc
  · exact absurd (isDigit_of_mem_toDigits hc) (by decide)

theorem readLength_of_isDigit {cs : List Char} (hne : cs ≠ [])
    (hdigits : ∀ c ∈ cs, c.isDigit = true)
    (hvalue : cs.foldl (fun n c => n * 10 + (c.toNat - '0'.toNat)) 0 = n)
    (hbound : n ≤ 0xFFFFFFFFFFFFFFFF) : readLength (String.ofList cs) = some n := by
  have hall : cs.all Char.isDigit = true := List.all_eq_true.mpr hdigits
  unfold readLength
  extract_lets digits value
  have hsame : digits = cs := by
    dsimp only [digits]
    rw [String.toList_ofList]
    split
    · exact absurd (hdigits '+' List.mem_cons_self) (by decide)
    · rfl
  have hread : value = n := by
    dsimp only [value]
    rw [hsame, hvalue]
  rw [hsame, if_pos ⟨hne, hall⟩, hread, if_pos hbound]

theorem readLength_toDigits (h : n ≤ 0xFFFFFFFFFFFFFFFF) :
    readLength (String.ofList (Nat.toDigits 10 n)) = some n := by
  refine readLength_of_isDigit Nat.toDigits_ne_nil (fun c hc => isDigit_of_mem_toDigits hc) ?_ h
  have hdigits := Nat.ofDigitChars_ten_toDigits (n := n)
  rw [Nat.ofDigitChars_eq_foldl] at hdigits
  simpa only [Nat.mul_comm] using hdigits

theorem announced_announcement (h : n ≤ 0xFFFFFFFFFFFFFFFF) :
    announced (announcement n).toList = .ok (some n) := by
  have hspan : (announcement n).toList.span (· ≠ ':') =
      ("Content-Length".toList, ':' :: ' ' :: Nat.toDigits 10 n) := by
    rw [toList_announcement]
    rfl
  have hname : (Text.trim (String.ofList "Content-Length".toList)).map Char.toLower =
      "content-length" := by
    decide +kernel
  have hvalue : Text.trim (String.ofList (' ' :: Nat.toDigits 10 n)) =
      String.ofList (Nat.toDigits 10 n) := by
    have hdigit (c : Char) (hc : c ∈ Nat.toDigits 10 n) : Text.isBlank c = false :=
      Text.not_blank_of_isDigit (isDigit_of_mem_toDigits hc)
    have hspace (c : Char) (hc : c ∈ [' ']) : Text.isBlank c = true := by
      rw [List.mem_singleton.mp hc]
      decide
    have htrim : Text.trim (String.ofList ([' '] ++ Nat.toDigits 10 n ++ [])) =
        String.ofList (Nat.toDigits 10 n) :=
      Text.trim_eq hspace (fun _ hc => absurd hc List.not_mem_nil)
        (fun c hc => hdigit c (List.mem_of_mem_head? hc))
        fun c hc => hdigit c (List.mem_of_getLast? hc)
    rwa [List.append_nil] at htrim
  unfold announced
  rw [hspan]
  dsimp only
  rw [if_pos hname, hvalue, readLength_toDigits h]

theorem contentLength_announcement (h : n ≤ 0xFFFFFFFFFFFFFFFF) :
    contentLength (announcement n) = .ok (some n) := by
  have hline : '\n' ∉ (announcement n).toList := by
    rw [toList_announcement, List.mem_append, List.mem_cons, List.mem_cons]
    rintro (hc | hc | hc | hc)
    · exact absurd hc (by decide)
    · cases hc
    · cases hc
    · exact absurd (isDigit_of_mem_toDigits hc) (by decide)
  rw [contentLength, List.splitOn_eq_singleton hline, List.foldlM_cons, announced_announcement h]
  rfl

theorem splitHeader_frame (body : String) (more : Bytes) :
    splitHeader (frame body ++ more) =
      some (Text.encode (announcement (Text.encode body).length), Text.encode body ++ more) := by
  rw [frame_eq, List.append_assoc]
  exact splitHeader_append (not_mem_encode_announcement _) _

def Fits (body : String) : Prop := (Text.encode body).length ≤ 0xFFFFFFFFFFFFFFFF

instance (body : String) : Decidable (Fits body) := inferInstanceAs (Decidable (_ ≤ _))

theorem nextFrame_of_splitHeader (hfits : Fits body) (h : splitHeader buffer =
      some (Text.encode (announcement (Text.encode body).length), rest)) :
    nextFrame buffer =
      if rest.length < (Text.encode body).length then .incomplete
      else
        match Text.decode? (rest.take (Text.encode body).length) with
        | some text => .message text (rest.drop (Text.encode body).length)
        | none => .failed .bodyNotText (rest.drop (Text.encode body).length) := by
  have hlength := contentLength_announcement hfits
  unfold nextFrame
  by_cases hshort : rest.length < (Text.encode body).length
  · simp only [h, Text.decode?_encode, hlength, if_pos hshort]
  · cases hdecode : Text.decode? (rest.take (Text.encode body).length) <;>
      simp only [h, Text.decode?_encode, hlength, if_neg hshort, hdecode]

theorem nextFrame_frame (hfits : Fits body) (more : Bytes) :
    nextFrame (frame body ++ more) = .message body more := by
  rw [nextFrame_of_splitHeader hfits (splitHeader_frame body more), if_neg (by simp),
    List.take_left, Text.decode?_encode, List.drop_left]

theorem nextFrame_beginning (hfits : Fits body) (h : buffer <+: frame body)
    (hne : buffer ≠ frame body) : nextFrame buffer = .incomplete := by
  obtain ⟨more, hmore⟩ := h
  cases hsplit : splitHeader buffer with
  | none =>
    unfold nextFrame
    rw [hsplit]
  | some split =>
    obtain ⟨head, rest⟩ := split
    have hwhole := splitHeader_append_right hsplit more
    have hframe := splitHeader_frame body []
    rw [List.append_nil, List.append_nil, ← hmore, hwhole] at hframe
    simp only [Option.some.injEq, Prod.mk.injEq] at hframe
    obtain ⟨rfl, hrest⟩ := hframe
    have hmissing : 0 < more.length := by
      refine List.length_pos_iff.mpr fun hnil => hne ?_
      rw [← hmore, hnil, List.append_nil]
    have hlength := congrArg List.length hrest
    rw [List.length_append] at hlength
    rw [nextFrame_of_splitHeader hfits hsplit, if_pos (by omega)]

def Opens (bytes : Bytes) : List String → Prop
  | [] => bytes = []
  | body :: _ => bytes <+: frame body ∧ bytes ≠ frame body

theorem Opens.nextFrame (hfits : ∀ body ∈ bodies, Fits body) (h : Opens buffer bodies) :
    nextFrame buffer = .incomplete := by
  cases bodies with
  | nil =>
    obtain rfl : buffer = [] := h
    rfl
  | cons body bodies => exact nextFrame_beginning (hfits body List.mem_cons_self) h.1 h.2

theorem length_frame_pos (body : String) : 0 < (frame body).length := by
  rw [frame_eq, List.length_append, List.length_cons]
  omega

theorem exists_whole_frames (h : buffer <+: bodies.flatMap frame) :
    ∃ whole left rest, bodies = whole ++ left ∧ buffer = whole.flatMap frame ++ rest ∧
      Opens rest left := by
  induction bodies generalizing buffer with
  | nil => exact ⟨[], [], [], rfl, List.prefix_nil.mp h, rfl⟩
  | cons body bodies ih =>
    rw [List.flatMap_cons] at h
    by_cases hwhole : frame body <+: buffer
    · obtain ⟨bytes, rfl⟩ := hwhole
      obtain ⟨whole, left, rest, rfl, rfl, hopens⟩ := ih ((List.prefix_append_right_inj _).mp h)
      refine ⟨body :: whole, left, rest, rfl, ?_, hopens⟩
      rw [List.flatMap_cons, List.append_assoc]
    · have hpart : buffer <+: frame body :=
        (List.prefix_or_prefix_of_prefix (List.prefix_append _ _) h).resolve_left hwhole
      refine ⟨[], body :: bodies, buffer, rfl, rfl, hpart, ?_⟩
      rintro rfl
      exact hwhole List.prefix_rfl

theorem unframeWith_frames (hfits : ∀ body ∈ bodies, Fits body)
    (hrest : nextFrame rest = .incomplete) {fuel : Nat}
    (hfuel : (bodies.flatMap frame ++ rest).length ≤ fuel) :
    unframeWith fuel (bodies.flatMap frame ++ rest) = ⟨bodies, none, rest⟩ := by
  induction bodies generalizing fuel with
  | nil =>
    rw [List.flatMap_nil, List.nil_append]
    cases fuel with
    | zero => rfl
    | succ fuel => rw [unframeWith, hrest]
  | cons body bodies ih =>
    have hbody := hfits body List.mem_cons_self
    have hlength := length_frame_pos body
    rw [List.flatMap_cons, List.append_assoc] at hfuel ⊢
    rw [List.length_append] at hfuel
    cases fuel with
    | zero => omega
    | succ fuel =>
      rw [unframeWith, nextFrame_frame hbody]
      dsimp only
      rw [ih (fun b hb => hfits b (List.mem_cons_of_mem _ hb)) (by omega)]

def Unframed.extend (u : Unframed) (chunk : Bytes) : Unframed :=
  let next := unframe (u.rest ++ chunk)
  ⟨u.messages ++ next.messages, u.error.or next.error, next.rest⟩

def receive (chunks : List Bytes) : Unframed := chunks.foldl Unframed.extend ⟨[], none, []⟩

structure Unframed.Midway (u : Unframed) (bodies : List String) (arrived : Bytes) : Prop where
  faultless : u.error = none
  arrived_eq : arrived = u.messages.flatMap frame ++ u.rest
  left : ∃ left, bodies = u.messages ++ left ∧ Opens u.rest left

theorem Unframed.Midway.extend {u : Unframed} {arrived chunk : Bytes}
    (hfits : ∀ body ∈ bodies, Fits body) (h : u.Midway bodies arrived)
    (hbytes : arrived ++ chunk <+: bodies.flatMap frame) :
    (u.extend chunk).Midway bodies (arrived ++ chunk) := by
  obtain ⟨hfaultless, rfl, left, rfl, -⟩ := h
  rw [List.flatMap_append, List.append_assoc, List.prefix_append_right_inj] at hbytes
  obtain ⟨whole, left, rest, rfl, hbuffer, hopens⟩ := exists_whole_frames hbytes
  have hwhole (body : String) (hbody : body ∈ whole) : Fits body :=
    hfits body (List.mem_append_right _ (List.mem_append_left _ hbody))
  have hleft (body : String) (hbody : body ∈ left) : Fits body :=
    hfits body (List.mem_append_right _ (List.mem_append_right _ hbody))
  have hunframe : unframe (u.rest ++ chunk) = ⟨whole, none, rest⟩ := by
    rw [unframe, hbuffer]
    exact unframeWith_frames hwhole (hopens.nextFrame hleft) (Nat.le_refl _)
  unfold extend
  rw [hunframe, hfaultless]
  refine ⟨rfl, ?_, left, (List.append_assoc ..).symm, hopens⟩
  rw [List.append_assoc, hbuffer, List.flatMap_append, List.append_assoc]

theorem Unframed.Midway.extendAll {u : Unframed} {arrived : Bytes} {chunks : List Bytes}
    (hfits : ∀ body ∈ bodies, Fits body) (h : u.Midway bodies arrived)
    (hbytes : arrived ++ chunks.flatten <+: bodies.flatMap frame) :
    (chunks.foldl Unframed.extend u).Midway bodies (arrived ++ chunks.flatten) := by
  induction chunks generalizing u arrived with
  | nil =>
    rw [List.flatten_nil, List.append_nil]
    exact h
  | cons chunk chunks ih =>
    rw [List.flatten_cons, ← List.append_assoc] at hbytes ⊢
    exact ih (h.extend hfits ((List.prefix_append _ _).trans hbytes)) hbytes

theorem opens_nil (bodies : List String) : Opens [] bodies := by
  cases bodies with
  | nil => rfl
  | cons body bodies =>
    refine ⟨List.nil_prefix, fun hnil => ?_⟩
    have hlength := length_frame_pos body
    rw [← hnil] at hlength
    exact absurd hlength (by decide)

theorem midway_receive {chunks : List Bytes} (hfits : ∀ body ∈ bodies, Fits body)
    (hbytes : chunks.flatten <+: bodies.flatMap frame) :
    (receive chunks).Midway bodies chunks.flatten := by
  have hstart : Unframed.Midway ⟨[], none, []⟩ bodies [] :=
    ⟨rfl, rfl, bodies, rfl, opens_nil bodies⟩
  exact hstart.extendAll hfits hbytes

theorem Unframed.Midway.le_length_iff {u : Unframed} {arrived : Bytes} (h : u.Midway bodies arrived)
    {m : Nat} (hm : m ≤ bodies.length) :
    m ≤ u.messages.length ↔ ((bodies.take m).flatMap frame).length ≤ arrived.length := by
  obtain ⟨-, rfl, left, rfl, hopens⟩ := h
  rw [List.length_append]
  constructor
  · intro hle
    obtain ⟨more, hmore⟩ := List.take_prefix m u.messages
    have hlength := congrArg (fun bodies => (bodies.flatMap frame).length) hmore
    simp only [List.flatMap_append, List.length_append] at hlength
    rw [List.take_append_of_le_length hle]
    omega
  · intro hle
    refine Nat.le_of_not_lt fun hlt => ?_
    -- The first `m` frames reach beyond the one that has begun.
    cases left with
    | nil =>
      rw [List.append_nil] at hm
      omega
    | cons body left =>
      obtain ⟨⟨rest, hrest⟩, hne⟩ := hopens
      have hmissing : 0 < rest.length := by
        refine List.length_pos_iff.mpr fun hnil => hne ?_
        rw [← hrest, hnil, List.append_nil]
      obtain ⟨k, rfl⟩ : ∃ k, m = u.messages.length + (k + 1) :=
        ⟨m - u.messages.length - 1, by omega⟩
      have hframe := congrArg List.length hrest
      rw [List.take_length_add_append, List.take_succ_cons, List.flatMap_append, List.flatMap_cons,
        List.length_append, List.length_append] at hle
      rw [List.length_append] at hframe
      omega

/-- Frames may be cut into chunks anywhere. At every moment exactly the messages have come out whose
frames have arrived, in their order and without an error, and in the end nothing is left. -/
theorem messages_of_chunks (hfits : ∀ body ∈ bodies, Fits body) {before after : List Bytes}
    (hbytes : (before ++ after).flatten = bodies.flatMap frame) :
    (receive before).error = none ∧ nextFrame (receive before).rest = .incomplete ∧
      (receive before).messages <+: bodies ∧
      (∀ m ≤ bodies.length, m ≤ (receive before).messages.length ↔
        ((bodies.take m).flatMap frame).length ≤ before.flatten.length) ∧
      (after.flatten = [] → (receive before).messages = bodies ∧ (receive before).rest = []) := by
  rw [List.flatten_append] at hbytes
  have hmidway := midway_receive hfits ⟨_, hbytes⟩
  obtain ⟨left, hleft, hopens⟩ := hmidway.left
  refine ⟨hmidway.faultless, hopens.nextFrame fun body hbody => hfits body ?_, ⟨left, hleft.symm⟩,
    fun m hm => hmidway.le_length_iff hm, fun hend => ?_⟩
  · rw [hleft]
    exact List.mem_append_right _ hbody
  · have hall : (receive before).messages = bodies := by
      have hwhole : (bodies.take bodies.length).flatMap frame = before.flatten := by
        rw [List.take_length, ← hbytes, hend, List.append_nil]
      have hle := (hmidway.le_length_iff (Nat.le_refl _)).mpr (Nat.le_of_eq (congrArg _ hwhole))
      exact List.IsPrefix.eq_of_length_le ⟨left, hleft.symm⟩ hle
    refine ⟨hall, ?_⟩
    have harrived := hmidway.arrived_eq
    rw [hend, List.append_nil] at hbytes
    rw [hall, hbytes] at harrived
    exact List.self_eq_append_right.mp harrived

theorem messages_of_chunks_within_character :
    let first := (frame "é").take 22
    let second := (frame "é").drop 22 ++ frame ""
    (∀ body ∈ ["é", ""], Fits body) ∧ ([first] ++ [second]).flatten = ["é", ""].flatMap frame ∧
      (receive [first]).error = none ∧ (receive [first]).messages = [] ∧
      (receive [first, second]).messages = ["é", ""] ∧ (receive [first, second]).rest = [] := by
  intro first second
  have hfits : ∀ body ∈ ["é", ""], Fits body := by decide
  have hbytes : ([first] ++ [second]).flatten = ["é", ""].flatMap frame := by decide
  have hall : ([first, second] ++ []).flatten = ["é", ""].flatMap frame := by decide
  obtain ⟨herror, -, -, hcount, -⟩ := messages_of_chunks hfits hbytes
  obtain ⟨hmessages, hrest⟩ := (messages_of_chunks hfits hall).2.2.2.2 rfl
  refine ⟨hfits, hbytes, herror, ?_, hmessages, hrest⟩
  -- The first frame is one byte longer than the first chunk.
  have hnone : ¬1 ≤ (receive [first]).messages.length := by
    rw [hcount 1 (by decide)]
    decide
  exact List.length_eq_zero_iff.mp (by omega)

end EditorSync.Rpc
