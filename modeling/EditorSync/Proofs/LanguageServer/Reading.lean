import EditorSync.LanguageServer.Client
import EditorSync.Proofs.Rpc.Grammar

namespace EditorSync.LanguageServer

open Rpc (Begins BeginsAll Unframes)
open Text (Bytes)

namespace Client

variable {c : Client} {arrived : Bytes} {heard : List String}

theorem buffer_moveTo (c : Client) (next : ServerState) :
    (c.moveTo next).client.buffer = c.buffer := by
  unfold moveTo
  split <;> rfl

theorem buffer_notified (c : Client) (n : Rpc.Notification) :
    (c.notified n).client.buffer = c.buffer := by
  unfold notified
  split
  · split <;> rfl
  · split
    · dsimp only
      split
      · rfl
      · exact buffer_moveTo _ _
    · rfl
  · rfl

theorem buffer_responded (c : Client) (r : Rpc.Response) : (c.responded r).buffer = c.buffer := by
  unfold responded
  split <;> rfl

theorem buffer_hear (c : Client) (body : String) : (c.hear body).client.buffer = c.buffer := by
  unfold hear
  split
  · rfl
  · split
    · rfl
    · split
      · exact buffer_notified c _
      · rfl
    · split
      · exact buffer_responded c _
      · rfl
    · rfl

theorem buffer_hearAll (c : Client) (bodies : List String) :
    (c.hearAll bodies).client.buffer = c.buffer := by
  induction bodies generalizing c with
  | nil => rfl
  | cons body rest ih => exact (ih _).trans (buffer_hear c body)

theorem buffer_receive (c : Client) (chunk : Bytes) :
    (c.receive chunk).client.buffer = (Rpc.unframe (c.buffer ++ chunk)).rest :=
  buffer_hearAll _ _

/-- Of the bytes that have arrived a client has heard some messages. Anything else may happen to it
between two chunks that leaves its buffer alone. -/
inductive Reads : Client → Bytes → List String → Prop
  | start {c : Client} (h : c.buffer = []) : Reads c [] []
  | chunk {c : Client} {arrived : Bytes} {heard : List String} (h : Reads c arrived heard)
      (chunk : Bytes) :
    Reads (c.receive chunk).client (arrived ++ chunk)
      (heard ++ (Rpc.unframe (c.buffer ++ chunk)).messages)
  | other {c c' : Client} {arrived : Bytes} {heard : List String} (h : Reads c arrived heard)
      (hbuffer : c'.buffer = c.buffer) : Reads c' arrived heard

theorem Reads.unframes (h : Reads c arrived heard) :
    ∃ bodies, Unframes arrived bodies heard c.buffer := by
  induction h with
  | start h =>
    rw [h]
    exact Rpc.unframes_unframe []
  | chunk _ chunk ih =>
    obtain ⟨bodies, hbodies⟩ := ih
    obtain ⟨others, hothers⟩ := hbodies.extend chunk
    rw [buffer_receive]
    exact ⟨bodies ++ others, hothers⟩
  | other _ hbuffer ih =>
    rw [hbuffer]
    exact ih

theorem receive_of_begins {header rest : Bytes} {text : String}
    (h : Begins c.buffer header (Text.encode text) rest) (chunk : Bytes) :
    ∃ later left, c.receive chunk = hearAll { c with buffer := left } (text :: later) := by
  obtain ⟨later, hlater⟩ := (h.append chunk).unframe (Text.decode?_encode text)
  exact ⟨later, _, by rw [receive, hlater]⟩

/-- A client has heard the bodies of all frames that have arrived, without those that are no texts,
except that a body of that kind keeps the frames behind it until more bytes arrive. -/
theorem heard_of_reads (h : Reads c arrived heard) :
    ∃ bodies, BeginsAll arrived bodies c.buffer ∧ heard = bodies.filterMap Text.decode? ∧
      ∀ header text rest, Begins c.buffer header (Text.encode text) rest →
        (∃ bad, bodies.getLast? = some bad ∧ Text.decode? bad = none) ∧
        ∀ chunk, ∃ later left,
          c.receive chunk = hearAll { c with buffer := left } (text :: later) := by
  obtain ⟨bodies, hbodies⟩ := h.unframes
  refine ⟨bodies, hbodies.begins, hbodies.messages_eq, fun header text rest hbegins => ⟨?_, ?_⟩⟩
  · exact hbodies.behind header (Text.encode text) rest hbegins
  · exact receive_of_begins hbegins

def badThenGood : Bytes := Text.encode "Content-Length: 1\r\n\r\n" ++ 0xff :: Rpc.frame "{}"

theorem begins_frame_of_object :
    Begins (Rpc.frame "{}") (Text.encode "Content-Length: 2") (Text.encode "{}") [] := by
  have hsplit := Rpc.splitHeader_frame "{}" []
  rw [List.append_nil] at hsplit
  obtain ⟨heq, hfirst⟩ := Rpc.splitHeader_eq_some_iff.mp hsplit
  exact ⟨heq, hfirst, Rpc.announcement 2, Text.decode?_encode _,
    Rpc.contentLength_announcement (by decide)⟩

theorem begins_after_badThenGood :
    Begins ((Client.new "rust" 1).receive badThenGood).client.buffer
      (Text.encode "Content-Length: 2") (Text.encode "{}") [] := by
  have hleft : (Rpc.unframe badThenGood).rest = Rpc.frame "{}" := by decide +kernel
  rw [buffer_receive]
  exact hleft ▸ begins_frame_of_object

theorem heard_of_reads_badThenGood :
    let c := ((Client.new "rust" 1).receive badThenGood).client
    Reads c badThenGood [] ∧
      Begins c.buffer (Text.encode "Content-Length: 2") (Text.encode "{}") [] ∧
      ∀ chunk, ∃ later left,
        c.receive chunk = hearAll { c with buffer := left } ("{}" :: later) := by
  intro c
  have hreads : Reads c badThenGood [] := by
    have hread := Reads.chunk (.start (c := Client.new "rust" 1) rfl) badThenGood
    have hnone : (Rpc.unframe badThenGood).messages = [] := by decide +kernel
    rwa [List.nil_append, List.nil_append, show (Client.new "rust" 1).buffer ++ badThenGood =
      badThenGood from rfl, hnone] at hread
  obtain ⟨_, _, _, hbehind⟩ := heard_of_reads hreads
  exact ⟨hreads, begins_after_badThenGood, (hbehind _ _ _ begins_after_badThenGood).2⟩

theorem frame_waits_behind_bad_body :
    ∃ header rest, Begins ((Client.new "rust" 1).receive badThenGood).client.buffer header
      (Text.encode "{}") rest :=
  ⟨_, _, begins_after_badThenGood⟩

end Client
end EditorSync.LanguageServer
