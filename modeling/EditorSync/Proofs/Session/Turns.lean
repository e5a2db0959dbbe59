import Mathlib
import EditorSync.Session.Tail

/-! A reader of a log, one look at the disk at a time. In between the log may change. -/

namespace EditorSync.Session

open Text (Bytes)

inductive Reader.Phase where
  | reading (line : Bytes)
  | looking
  deriving DecidableEq, Repr

structure Reader where
  tail : Tail
  phase : Reader.Phase
  deriving DecidableEq, Repr

namespace Reader

def start : Reader := ⟨.start, .reading []⟩

def takeLine (t : Tail) (line : Bytes) : Option Tail.Step × Reader :=
  match Text.decode? line with
  | none => (some .failed, ⟨t, .reading []⟩)
  | some text =>
    (Entry.ofLine? (Text.trim text) |>.map .entry,
      ⟨{ t with offset := t.offset + line.length }, .reading []⟩)

def meetEnd (t : Tail) (line : Bytes) : Option Tail.Step × Reader :=
  match Text.decode? line with
  | none => (some .failed, ⟨t, .reading []⟩)
  | some _ => (none, ⟨t.rewind, .looking⟩)

/-- What a reader does with what it has, and what it answers if it is done. A turn takes a line
from the buffer, reads once from the log, or looks once whether the log is there. -/
def turn (log : LogFile) (r : Reader) : Option Tail.Step × Reader :=
  match r.phase with
  | .reading line =>
    match r.tail.buffer.idxOf? 10 with
    | some i =>
      takeLine { r.tail with buffer := r.tail.buffer.drop (i + 1) }
        (line ++ r.tail.buffer.take (i + 1))
    | none =>
      let more := (log.content.drop r.tail.position).take Tail.chunk
      if more = [] then meetEnd { r.tail with buffer := [] } (line ++ r.tail.buffer)
      else
        (none, ⟨{ r.tail with position := r.tail.position + more.length, buffer := more },
          .reading (line ++ r.tail.buffer)⟩)
  | .looking =>
    if !log.isThere then (some .ended, ⟨r.tail, .reading []⟩)
    else if r.tail.offset ≤ log.content.length then (none, ⟨r.tail, .reading []⟩)
    else (none, .start)

inductive Turns (log : LogFile) : Reader → Option Tail.Step × Reader → Prop
  | line {t : Tail} {line pre rest : Bytes} (hbuffer : t.buffer = pre ++ 10 :: rest)
    (hpre : 10 ∉ pre) :
    Turns log ⟨t, .reading line⟩ (takeLine { t with buffer := rest } (line ++ pre ++ [10]))
  | more {t : Tail} {line : Bytes} (hbuffer : 10 ∉ t.buffer)
    (hmore : t.position < log.content.length) :
    Turns log ⟨t, .reading line⟩
      (none, ⟨{ t with
          position := t.position + ((log.content.drop t.position).take Tail.chunk).length
          buffer := (log.content.drop t.position).take Tail.chunk }, .reading (line ++ t.buffer)⟩)
  | metEnd {t : Tail} {line : Bytes} (hbuffer : 10 ∉ t.buffer)
    (hend : log.content.length ≤ t.position) :
    Turns log ⟨t, .reading line⟩ (meetEnd { t with buffer := [] } (line ++ t.buffer))
  | gone {t : Tail} (hgone : log.isThere = false) :
    Turns log ⟨t, .looking⟩ (some .ended, ⟨t, .reading []⟩)
  | again {t : Tail} (hthere : log.isThere = true) (hlength : t.offset ≤ log.content.length) :
    Turns log ⟨t, .looking⟩ (none, ⟨t, .reading []⟩)
  | restarted {t : Tail} (hthere : log.isThere = true) (hlength : log.content.length < t.offset) :
    Turns log ⟨t, .looking⟩ (none, .start)

def Quietly (log : LogFile) : Reader → Reader → Prop :=
  Relation.ReflTransGen fun r r' => r.turn log = (none, r')

def Answers (log : LogFile) (r : Reader) (step : Tail.Step) (t : Tail) : Prop :=
  ∃ r', Quietly log r r' ∧ r'.turn log = (some step, ⟨t, .reading []⟩)

variable {log : LogFile} {t : Tail} {line : Bytes} {r r' : Reader}

theorem Answers.head {step : Tail.Step} (h : Answers log r' step t) (hquiet : Quietly log r r') :
    Answers log r step t := by
  obtain ⟨r'', hquiet', hturn⟩ := h
  exact ⟨r'', hquiet.trans hquiet', hturn⟩

theorem idxOf?_eq_some {bytes : Bytes} {i : Nat} (h : bytes.idxOf? 10 = some i) :
    ∃ pre rest, bytes = pre ++ 10 :: rest ∧ 10 ∉ pre ∧ bytes.take (i + 1) = pre ++ [10] ∧
      bytes.drop (i + 1) = rest := by
  induction bytes generalizing i with
  | nil => cases h
  | cons b bytes ih =>
    rw [List.idxOf?_cons] at h
    by_cases hb : b = 10
    · subst hb
      obtain rfl : 0 = i := by simpa using h
      exact ⟨[], bytes, rfl, List.not_mem_nil, rfl, rfl⟩
    · rw [if_neg (by simpa using hb)] at h
      obtain ⟨j, hj, rfl⟩ := Option.map_eq_some_iff.mp h
      obtain ⟨pre, rest, rfl, hpre, htake, hdrop⟩ := ih hj
      refine ⟨b :: pre, rest, rfl, ?_, ?_, ?_⟩
      · rw [List.mem_cons, not_or]
        exact ⟨Ne.symm hb, hpre⟩
      · rw [List.take_succ_cons, htake]
        rfl
      · rw [List.drop_succ_cons, hdrop]

theorem not_mem_of_idxOf? {bytes : Bytes} (h : bytes.idxOf? 10 = none) : 10 ∉ bytes := by
  simpa using h

theorem turns (log : LogFile) (r : Reader) : Turns log r (r.turn log) := by
  obtain ⟨t, phase⟩ := r
  cases phase with
  | reading line =>
    unfold turn
    dsimp only
    cases hbuffer : t.buffer.idxOf? 10 with
    | some i =>
      obtain ⟨pre, rest, heq, hpre, htake, hdrop⟩ := idxOf?_eq_some hbuffer
      dsimp only
      rw [htake, hdrop, ← List.append_assoc]
      exact .line heq hpre
    | none =>
      have hnone := not_mem_of_idxOf? hbuffer
      dsimp only
      split
      · rename_i hmore
        refine .metEnd hnone ?_
        simpa [Tail.chunk] using hmore
      · rename_i hmore
        refine .more hnone ?_
        simpa [Tail.chunk] using hmore
  | looking =>
    unfold turn
    dsimp only
    cases hthere : log.isThere with
    | false => exact .gone hthere
    | true =>
      by_cases hlength : t.offset ≤ log.content.length
      · simp only [Bool.not_true, Bool.false_eq_true, if_false, if_pos hlength]
        exact .again hthere hlength
      · simp only [Bool.not_true, Bool.false_eq_true, if_false, if_neg hlength]
        exact .restarted hthere (by omega)

theorem quietly_readLine (content : Bytes) (hcontent : log.content = content) (t : Tail)
    (hline : 10 ∉ line) :
    ∃ r, Quietly log ⟨t, .reading line⟩ r ∧ r.turn log =
      let read := Tail.readLine content t
      if read.1.getLast? = some 10 then takeLine read.2 (line ++ read.1)
      else meetEnd read.2 (line ++ read.1) := by
  fun_induction Tail.readLine content t generalizing line with
  | case1 t i h =>
    obtain ⟨pre, rest, -, -, htake, -⟩ := idxOf?_eq_some h
    refine ⟨_, .refl, ?_⟩
    have hlast : (t.buffer.take (i + 1)).getLast? = some 10 := by simp [htake]
    simp only [turn, h, if_pos hlast]
  | case2 t h more =>
    rename_i hmore
    have hlast : ¬t.buffer.getLast? = some 10 := fun hlast =>
      not_mem_of_idxOf? h (List.mem_of_getLast? hlast)
    refine ⟨_, .refl, ?_⟩
    simp only [turn, h, hcontent, if_neg hlast]
    rw [if_pos hmore]
  | case3 t h more hmore rest after heq =>
    rename_i ih
    have hline' : 10 ∉ line ++ t.buffer := by
      rw [List.mem_append, not_or]
      exact ⟨hline, not_mem_of_idxOf? h⟩
    obtain ⟨r, hquiet, hturn⟩ := ih hline'
    have hlast : (t.buffer ++ rest).getLast? = some 10 ↔ rest.getLast? = some 10 := by
      cases rest with
      | nil =>
        rw [List.append_nil]
        exact ⟨fun hlast => absurd (List.mem_of_getLast? hlast) (not_mem_of_idxOf? h),
          fun hlast => by cases hlast⟩
      | cons b rest => simp
    refine ⟨r, .head ?_ hquiet, ?_⟩
    · simp only [turn, h, hcontent]
      rw [if_neg hmore]
    · rw [hturn, heq]
      simp only [hlast, List.append_assoc]

theorem takeLine_of_none (h : Text.decode? line = none) :
    takeLine t line = (some .failed, ⟨t, .reading []⟩) := by
  simp only [takeLine, h]

theorem meetEnd_of_none (h : Text.decode? line = none) :
    meetEnd t line = (some .failed, ⟨t, .reading []⟩) := by
  simp only [meetEnd, h]

theorem takeLine_of_some {text : String} (h : Text.decode? line = some text) :
    takeLine t line = ((Entry.ofLine? (Text.trim text)).map .entry,
      ⟨{ t with offset := t.offset + line.length }, .reading []⟩) := by
  simp only [takeLine, h]

theorem takeLine_keeps (t : Tail) (line : Bytes) :
    (takeLine t line).2.phase = .reading [] ∧ (takeLine t line).2.tail.position = t.position ∧
      (takeLine t line).2.tail.buffer = t.buffer := by
  cases hread : Text.decode? line with
  | none =>
    rw [takeLine_of_none hread]
    exact ⟨rfl, rfl, rfl⟩
  | some text =>
    rw [takeLine_of_some hread]
    exact ⟨rfl, rfl, rfl⟩

theorem meetEnd_of_some {text : String} (h : Text.decode? line = some text) :
    meetEnd t line = (none, ⟨t.rewind, .looking⟩) := by
  simp only [meetEnd, h]

theorem quietly_drain (content : Bytes) (hcontent : log.content = content) (t : Tail) :
    match Tail.drain content t with
    | (.entry e, t') => Answers log ⟨t, .reading []⟩ (.entry e) t'
    | (.notText, t') => Answers log ⟨t, .reading []⟩ .failed t'
    | (.nothing, t') => Quietly log ⟨t, .reading []⟩ ⟨t'.rewind, .looking⟩ := by
  fun_induction Tail.drain content t with
  | case1 t line after heq hnone =>
    obtain ⟨r, hquiet, hturn⟩ := quietly_readLine content hcontent t List.not_mem_nil
    refine ⟨r, hquiet, ?_⟩
    rw [hturn, heq]
    simp only [List.nil_append, takeLine_of_none hnone, meetEnd_of_none hnone, ite_self]
  | case2 t line after heq text htext hlast taken e he =>
    obtain ⟨r, hquiet, hturn⟩ := quietly_readLine content hcontent t List.not_mem_nil
    refine ⟨r, hquiet, ?_⟩
    rw [hturn, heq]
    simp only [List.nil_append, if_pos hlast, takeLine_of_some htext, he, Option.map_some, taken]
  | case3 t line after heq text htext hlast taken he ih =>
    obtain ⟨r, hquiet, hturn⟩ := quietly_readLine content hcontent t List.not_mem_nil
    rw [heq] at hturn
    simp only [List.nil_append, if_pos hlast, takeLine_of_some htext, he, Option.map_none] at hturn
    have hfirst : Quietly log ⟨t, .reading []⟩ ⟨taken, .reading []⟩ := hquiet.tail hturn
    generalize Tail.drain content taken = drained at ih ⊢
    obtain ⟨found, t'⟩ := drained
    cases found with
    | entry e => exact Answers.head ih hfirst
    | notText => exact Answers.head ih hfirst
    | nothing => exact hfirst.trans ih
  | case4 t line after heq text htext hlast =>
    obtain ⟨r, hquiet, hturn⟩ := quietly_readLine content hcontent t List.not_mem_nil
    rw [heq] at hturn
    simp only [List.nil_append, if_neg hlast, meetEnd_of_some htext] at hturn
    exact hquiet.tail hturn

theorem offset_readLine (content : Bytes) (t : Tail) :
    (Tail.readLine content t).2.offset = t.offset := by
  fun_induction Tail.readLine content t with
  | case1 => rfl
  | case2 => rfl
  | case3 t h more hmore line after heq ih => rw [heq] at ih; exact ih

theorem offset_drain_le (content : Bytes) (t : Tail) :
    (Tail.drain content t).2.offset + (Tail.pending content (Tail.drain content t).2).length ≤
      t.offset + (Tail.pending content t).length := by
  have hline (t : Tail) (line : Bytes) (after : Tail) (h : Tail.readLine content t = (line, after)) :
      after.offset = t.offset ∧
        line.length + (Tail.pending content after).length = (Tail.pending content t).length := by
    have hoffset := offset_readLine content t
    have happend := congrArg List.length (Tail.readLine_append_pending content t)
    rw [h] at hoffset happend
    rw [List.length_append] at happend
    exact ⟨hoffset, happend⟩
  fun_induction Tail.drain content t with
  | case1 t line after heq hnone =>
    have := hline t line after heq
    dsimp only
    omega
  | case2 t line after heq text htext hlast taken e he =>
    have := hline t line after heq
    dsimp only [taken, Tail.pending] at *
    omega
  | case3 t line after heq text htext hlast taken he ih =>
    have := hline t line after heq
    dsimp only [taken, Tail.pending] at *
    omega
  | case4 t line after heq text htext hlast =>
    have := hline t line after heq
    dsimp only
    omega

/-- A call that takes its turns without a break ends as one that takes no time. -/
theorem quietly_next (log : LogFile) (t : Tail) :
    match Tail.next log t with
    | (.waiting, t') => Quietly log ⟨t, .reading []⟩ ⟨t', .looking⟩ ∧
        turn log ⟨t', .looking⟩ = (none, ⟨t', .reading []⟩)
    | (step, t') => Answers log ⟨t, .reading []⟩ step t' := by
  have hdrain := quietly_drain log.content rfl t
  unfold Tail.next
  generalize Tail.drain log.content t = drained at hdrain ⊢
  obtain ⟨found, t'⟩ := drained
  cases found with
  | entry e => exact hdrain
  | notText => exact hdrain
  | nothing =>
    dsimp only at hdrain ⊢
    by_cases hthere : log.isThere = true
    · rw [if_neg (by simp [hthere])]
      by_cases hlength : t'.offset ≤ log.content.length
      · rw [if_pos hlength]
        refine ⟨hdrain, ?_⟩
        simp [turn, hthere, Tail.rewind, hlength]
      · rw [if_neg hlength]
        have hrestart : Quietly log ⟨t, .reading []⟩ .start := by
          refine hdrain.tail ?_
          simp [turn, hthere, Tail.rewind, hlength]
        have hagain := quietly_drain log.content rfl .start
        have hshort := offset_drain_le log.content .start
        generalize Tail.drain log.content .start = drained at hagain hshort ⊢
        obtain ⟨found, t''⟩ := drained
        cases found with
        | entry e => exact Answers.head hagain hrestart
        | notText => exact Answers.head hagain hrestart
        | nothing =>
          refine ⟨hrestart.trans hagain, ?_⟩
          have hoffset : t''.offset ≤ log.content.length := by
            have hall : Tail.pending log.content .start = log.content := rfl
            rw [hall] at hshort
            dsimp only [Tail.start] at hshort
            omega
          simp [turn, hthere, Tail.rewind, hoffset]
    · rw [if_pos (by simp [hthere])]
      refine ⟨_, hdrain, ?_⟩
      simp [turn, hthere]

end Reader
end EditorSync.Session
