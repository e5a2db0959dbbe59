import EditorSync.Session.Entry
import EditorSync.Text.Blank

namespace EditorSync.Session

open Text (Bytes)

/-- The log of a session as it stands: what has been written and whether it is still there. A
reader that has opened it can go on reading when it is gone. -/
structure LogFile where
  content : Bytes
  isThere : Bool
  deriving DecidableEq, Repr

/-- A reader that follows a log. It has taken `offset` bytes of whole lines, has read `position`
bytes, and keeps in `buffer` what it has read ahead. -/
structure Tail where
  offset : Nat
  position : Nat
  buffer : Bytes
  deriving DecidableEq, Repr

namespace Tail

def start : Tail := ⟨0, 0, []⟩

def rewind (t : Tail) : Tail := ⟨t.offset, t.offset, []⟩

def chunk : Nat := 8192

def pending (content : Bytes) (t : Tail) : Bytes := t.buffer ++ content.drop t.position

def readLine (content : Bytes) (t : Tail) : Bytes × Tail :=
  match t.buffer.idxOf? 10 with
  | some i => (t.buffer.take (i + 1), { t with buffer := t.buffer.drop (i + 1) })
  | none =>
    let more := (content.drop t.position).take chunk
    if more = [] then (t.buffer, { t with buffer := [] })
    else
      let (line, after) := readLine content
        { t with position := t.position + more.length, buffer := more }
      (t.buffer ++ line, after)
  termination_by content.length - t.position
  decreasing_by
    rename_i h
    have : more.length ≠ 0 := by simpa using h
    simp only [more, List.length_take, List.length_drop] at this ⊢
    omega

theorem take_append_drop_length_take (n : Nat) (bs : Bytes) :
    bs.take n ++ bs.drop (bs.take n).length = bs := by
  rw [List.length_take]
  rcases Nat.le_total n bs.length with h | h
  · rw [Nat.min_eq_left h, List.take_append_drop]
  · rw [Nat.min_eq_right h, List.take_of_length_le h, List.drop_length, List.append_nil]

theorem readLine_append_pending (content : Bytes) (t : Tail) :
    (readLine content t).1 ++ pending content (readLine content t).2 = pending content t := by
  fun_induction readLine content t with
  | case1 t i h => simp [pending, ← List.append_assoc]
  | case2 t h more hmore =>
    simp only [more, List.take_eq_nil_iff, chunk] at hmore
    simp [pending]
  | case3 t h more hmore line after heq ih =>
    rw [heq] at ih
    simp only [pending, List.append_assoc] at ih ⊢
    rw [ih, ← List.drop_drop]
    exact congrArg (t.buffer ++ ·) (take_append_drop_length_take chunk _)

inductive Found where
  | entry (e : Entry)
  | notText
  | nothing
  deriving DecidableEq, Repr

def drain (content : Bytes) (t : Tail) : Found × Tail :=
  match _h : readLine content t with
  | (line, after) =>
    match Text.decode? line with
    | none => (.notText, after)
    | some text =>
      if _hl : line.getLast? = some 10 then
        let taken := { after with offset := after.offset + line.length }
        match Entry.ofLine? (Text.trim text) with
        | some e => (.entry e, taken)
        | none => drain content taken
      else (.nothing, after)
  termination_by (pending content t).length
  decreasing_by
    have hp := readLine_append_pending content t
    rw [_h] at hp
    have : line.length ≠ 0 := by
      intro h0
      rw [List.length_eq_zero_iff] at h0
      simp [h0] at _hl
    rw [← hp]
    simp only [List.length_append, pending]
    omega

inductive Step where
  | entry (e : Entry)
  | failed
  | ended
  | waiting
  deriving DecidableEq, Repr

/-- The next entry. The end comes when nothing is left of a log that is gone. A log that has
become shorter is read again from its start. -/
def next (log : LogFile) (t : Tail) : Step × Tail :=
  match drain log.content t with
  | (.entry e, t) => (.entry e, t)
  | (.notText, t) => (.failed, t)
  | (.nothing, t) =>
    if !log.isThere then (.ended, t.rewind)
    else if t.offset ≤ log.content.length then (.waiting, t.rewind)
    else
      match drain log.content start with
      | (.entry e, t) => (.entry e, t)
      | (.notText, t) => (.failed, t)
      | (.nothing, t) => (.waiting, t.rewind)

def replayFrom (content : Bytes) : Nat → Tail → List Entry × Bool
  | 0, _ => ([], true)
  | fuel + 1, t =>
    match next ⟨content, false⟩ t with
    | (.entry e, t) =>
      let (rest, isText) := replayFrom content fuel t
      (e :: rest, isText)
    | (.failed, _) => ([], false)
    | _ => ([], true)

def replay (content : Bytes) : List Entry × Bool := replayFrom content (content.length + 1) start

end Tail
end EditorSync.Session
