import EditorSync.Proofs.Rpc.Framing

namespace EditorSync.Rpc

open Text (Bytes)

variable {buffer header body next rest : Bytes} {bodies others : List Bytes} {text : String}

theorem splitHeader_eq_some_iff : splitHeader buffer = some (header, rest) ↔
    buffer = header ++ 13 :: 10 :: 13 :: 10 :: rest ∧
      ∀ before after, buffer = before ++ 13 :: 10 :: 13 :: 10 :: after →
        header.length ≤ before.length := by
  fun_induction splitHeader buffer generalizing header with
  | case1 bytes =>
    constructor
    · rintro ⟨⟩
      exact ⟨rfl, fun before _ _ => Nat.zero_le before.length⟩
    · rintro ⟨heq, hfirst⟩
      obtain rfl : header = [] := List.length_eq_zero_iff.mp (Nat.le_zero.mp (hfirst [] bytes rfl))
      cases heq
      rfl
  | case2 b bytes hno ih =>
    constructor
    · intro hsplit
      obtain ⟨⟨header', rest'⟩, hsplit, heq⟩ := Option.map_eq_some_iff.mp hsplit
      cases heq
      obtain ⟨rfl, hfirst⟩ := ih.mp hsplit
      refine ⟨rfl, fun before after hbefore => ?_⟩
      cases before with
      | nil =>
        obtain ⟨rfl, hbytes⟩ := List.cons.inj hbefore
        exact (hno after rfl hbytes).elim
      | cons c before =>
        exact Nat.succ_le_succ (hfirst before after (List.cons.inj hbefore).2)
    · rintro ⟨heq, hfirst⟩
      cases header with
      | nil =>
        obtain ⟨rfl, hbytes⟩ := List.cons.inj heq
        exact (hno rest rfl hbytes).elim
      | cons c header =>
        obtain ⟨rfl, rfl⟩ := List.cons.inj heq
        rw [ih.mpr ⟨rfl, fun before after hbefore => ?_⟩]
        · rfl
        · exact Nat.le_of_succ_le_succ (hfirst (b :: before) after (by rw [hbefore]; rfl))
  | case3 => simp

structure Begins (buffer header body rest : Bytes) : Prop where
  bytes_eq : buffer = header ++ 13 :: 10 :: 13 :: 10 :: (body ++ rest)
  first : ∀ before after, buffer = before ++ 13 :: 10 :: 13 :: 10 :: after →
    header.length ≤ before.length
  announced : ∃ text, Text.decode? header = some text ∧ contentLength text = .ok (some body.length)

theorem Begins.splitHeader (h : Begins buffer header body rest) :
    splitHeader buffer = some (header, body ++ rest) :=
  splitHeader_eq_some_iff.mpr ⟨h.bytes_eq, h.first⟩

theorem Begins.nextFrame (h : Begins buffer header body rest) :
    nextFrame buffer =
      (Text.decode? body).elim (.failed .bodyNotText rest) fun text => .message text rest := by
  obtain ⟨text, hdecode, hlength⟩ := h.announced
  unfold Rpc.nextFrame
  simp only [h.splitHeader, hdecode, hlength, List.length_append,
    Nat.not_lt.mpr (Nat.le_add_right body.length rest.length), if_false, List.take_left,
    List.drop_left]
  cases Text.decode? body <;> rfl

theorem Begins.length_lt (h : Begins buffer header body rest) : rest.length < buffer.length := by
  rw [h.bytes_eq]
  simp only [List.length_append, List.length_cons]
  omega

theorem Begins.ne_incomplete (h : Begins buffer header body rest) :
    Rpc.nextFrame buffer ≠ .incomplete := by
  rw [h.nextFrame]
  cases Text.decode? body <;> exact FrameStep.noConfusion

theorem Begins.ne_failed (h : Begins buffer header body rest) (e : FrameError) :
    Rpc.nextFrame buffer ≠ .failed e buffer := by
  rw [h.nextFrame]
  cases Text.decode? body with
  | none =>
    intro hfailed
    obtain ⟨-, hrest⟩ := FrameStep.failed.inj hfailed
    exact absurd (congrArg List.length hrest) (Nat.ne_of_lt h.length_lt)
  | some text => exact FrameStep.noConfusion

theorem badLength_of_announced {line : List Char} {e : FrameError} (h : announced line = .error e) :
    e = .badLength := by
  unfold announced at h
  split at h
  · cases h
  · split at h
    · split at h
      · cases h
      · exact (Except.error.inj h).symm
    · cases h

theorem badLength_of_contentLength {header : String} {e : FrameError}
    (h : contentLength header = .error e) : e = .badLength := by
  unfold contentLength at h
  generalize header.toList.splitOn '\n' = lines at h
  generalize (none : Option Nat) = found at h
  induction lines generalizing found with
  | nil => cases h
  | cons line lines ih =>
    rw [List.foldlM_cons] at h
    cases hline : announced line with
    | error e' =>
      rw [hline] at h
      cases h
      exact badLength_of_announced hline
    | ok length =>
      rw [hline] at h
      exact ih _ h

theorem exists_begins_or (buffer : Bytes) :
    (∃ header body rest, Begins buffer header body rest) ∨ nextFrame buffer = .incomplete ∨
      ∃ e, e ≠ .bodyNotText ∧ nextFrame buffer = .failed e buffer := by
  cases hsplit : splitHeader buffer with
  | none =>
    unfold nextFrame
    simp [hsplit]
  | some split =>
    obtain ⟨header, bytes⟩ := split
    cases hdecode : Text.decode? header with
    | none =>
      unfold nextFrame
      simp [hsplit, hdecode]
    | some text =>
      cases hlength : contentLength text with
      | error e =>
        obtain rfl := badLength_of_contentLength hlength
        unfold nextFrame
        simp [hsplit, hdecode, hlength]
      | ok length =>
        cases length with
        | none =>
          unfold nextFrame
          simp [hsplit, hdecode, hlength]
        | some n =>
          by_cases hshort : bytes.length < n
          · unfold nextFrame
            simp [hsplit, hdecode, hlength, hshort]
          · obtain ⟨heq, hfirst⟩ := splitHeader_eq_some_iff.mp hsplit
            refine .inl ⟨header, bytes.take n, bytes.drop n, ?_, hfirst, text, hdecode, ?_⟩
            · rw [List.take_append_drop, heq]
            · rw [List.length_take, Nat.min_eq_left (Nat.le_of_not_lt hshort), hlength]

theorem Begins.append (h : Begins buffer header body rest) (more : Bytes) :
    Begins (buffer ++ more) header body (rest ++ more) := by
  have hsplit := splitHeader_append_right h.splitHeader more
  rw [List.append_assoc] at hsplit
  obtain ⟨heq, hfirst⟩ := splitHeader_eq_some_iff.mp hsplit
  exact ⟨heq, hfirst, h.announced⟩

inductive BeginsAll : Bytes → List Bytes → Bytes → Prop
  | nil (buffer : Bytes) : BeginsAll buffer [] buffer
  | cons {buffer header body next rest : Bytes} {bodies : List Bytes}
      (h : Begins buffer header body next) (hnext : BeginsAll next bodies rest) :
    BeginsAll buffer (body :: bodies) rest

theorem BeginsAll.append (h : BeginsAll buffer bodies rest) (more : Bytes) :
    BeginsAll (buffer ++ more) bodies (rest ++ more) := by
  induction h with
  | nil buffer => exact .nil _
  | cons h _ ih => exact .cons (h.append more) ih

theorem BeginsAll.trans (h : BeginsAll buffer bodies next) (hnext : BeginsAll next others rest) :
    BeginsAll buffer (bodies ++ others) rest := by
  induction h with
  | nil buffer => exact hnext
  | cons h _ ih => exact .cons h (ih hnext)

structure Unframes (buffer : Bytes) (bodies : List Bytes) (messages : List String) (rest : Bytes) :
    Prop where
  begins : BeginsAll buffer bodies rest
  messages_eq : messages = bodies.filterMap Text.decode?
  behind : ∀ header body last, Begins rest header body last →
    ∃ bad, bodies.getLast? = some bad ∧ Text.decode? bad = none

theorem unframes_unframeWith {fuel : Nat} (hfuel : buffer.length ≤ fuel) :
    ∃ bodies, Unframes buffer bodies (unframeWith fuel buffer).messages
      (unframeWith fuel buffer).rest := by
  induction fuel generalizing buffer with
  | zero =>
    obtain rfl : buffer = [] := List.length_eq_zero_iff.mp (Nat.le_zero.mp hfuel)
    exact ⟨[], .nil _, rfl, fun _ _ _ h => absurd h.length_lt (Nat.not_lt_zero _)⟩
  | succ fuel ih =>
    rcases exists_begins_or buffer with ⟨header, body, rest, hbegins⟩ | hstays | ⟨e, -, hstays⟩
    · cases hdecode : Text.decode? body with
      | none =>
        rw [unframeWith, hbegins.nextFrame, hdecode]
        refine ⟨[body], .cons hbegins (.nil rest), ?_, fun _ _ _ _ => ⟨body, rfl, hdecode⟩⟩
        rw [List.filterMap_cons_none hdecode]
        rfl
      | some text =>
        obtain ⟨bodies, hnext⟩ := ih (Nat.le_of_lt_succ (Nat.lt_of_lt_of_le hbegins.length_lt hfuel))
        rw [unframeWith, hbegins.nextFrame, hdecode]
        refine ⟨body :: bodies, .cons hbegins hnext.begins, ?_, fun header body last h => ?_⟩
        · rw [List.filterMap_cons_some hdecode, ← hnext.messages_eq]
          rfl
        · obtain ⟨bad, hlast, hbad⟩ := hnext.behind header body last h
          exact ⟨bad, by rw [List.getLast?_cons, hlast]; rfl, hbad⟩
    · rw [unframeWith, hstays]
      exact ⟨[], .nil buffer, rfl, fun _ _ _ h => absurd hstays h.ne_incomplete⟩
    · rw [unframeWith, hstays]
      exact ⟨[], .nil buffer, rfl, fun _ _ _ h => absurd hstays (h.ne_failed e)⟩

theorem unframes_unframe (buffer : Bytes) :
    ∃ bodies, Unframes buffer bodies (unframe buffer).messages (unframe buffer).rest :=
  unframes_unframeWith (Nat.le_refl _)

theorem Unframes.extend {messages : List String} (h : Unframes buffer bodies messages rest)
    (chunk : Bytes) :
    ∃ others, Unframes (buffer ++ chunk) (bodies ++ others)
      (messages ++ (unframe (rest ++ chunk)).messages) (unframe (rest ++ chunk)).rest := by
  obtain ⟨others, hothers⟩ := unframes_unframe (rest ++ chunk)
  refine ⟨others, (h.begins.append chunk).trans hothers.begins, ?_, fun header body last hlast => ?_⟩
  · rw [List.filterMap_append, ← h.messages_eq, ← hothers.messages_eq]
  · obtain ⟨bad, hbad, hdecode⟩ := hothers.behind header body last hlast
    exact ⟨bad, by rw [List.getLast?_append, hbad, Option.some_or], hdecode⟩

theorem Begins.unframe (h : Begins buffer header body rest) (hdecode : Text.decode? body = some text) :
    ∃ later, (unframe buffer).messages = text :: later := by
  obtain ⟨fuel, hfuel⟩ := Nat.exists_eq_succ_of_ne_zero (Nat.ne_zero_of_lt h.length_lt)
  unfold Rpc.unframe
  rw [hfuel, unframeWith, h.nextFrame, hdecode]
  exact ⟨_, rfl⟩

end EditorSync.Rpc
