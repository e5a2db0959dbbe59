import Mathlib.Data.List.Induction
import Mathlib.Data.List.TakeDrop
import Mathlib.Data.List.TakeWhile
import EditorSync.Proofs.Procedure
import EditorSync.Proofs.Rpc.Grammar
import EditorSync.Proofs.Text.Units

/-! The grammar of frames: the lines of a header, the numbers on them, and the frames that a buffer
begins with. -/

namespace EditorSync.Text

def Padded (word cs : List Char) : Prop :=
  ∃ before after, cs = before ++ word ++ after ∧ (∀ c ∈ before, isBlank c = true) ∧
    ∀ c ∈ after, isBlank c = true

theorem padded_trim (cs : List Char) : Padded (trim (String.ofList cs)).toList cs := by
  let rest := cs.dropWhile isBlank
  have hcs : cs = cs.takeWhile isBlank ++ rest := List.takeWhile_append_dropWhile.symm
  have hrest : rest = (rest.reverse.dropWhile isBlank).reverse ++
      (rest.reverse.takeWhile isBlank).reverse := by
    rw [← List.reverse_append, List.takeWhile_append_dropWhile, List.reverse_reverse]
  refine ⟨cs.takeWhile isBlank, (rest.reverse.takeWhile isBlank).reverse, ?_,
    fun c hc => List.mem_takeWhile_imp hc, fun c hc => ?_⟩
  · rw [trim, String.toList_ofList, String.toList_ofList, List.append_assoc, ← hrest]
    exact hcs
  · exact List.mem_takeWhile_imp (List.mem_reverse.mp hc)

theorem trim_of_padded {word cs : List Char} (h : Padded word cs)
    (hword : ∀ c ∈ word, isBlank c = false) : trim (String.ofList cs) = String.ofList word := by
  obtain ⟨before, after, rfl, hbefore, hafter⟩ := h
  exact trim_eq hbefore hafter (fun c hc => hword c (List.mem_of_mem_head? hc))
    fun c hc => hword c (List.mem_of_getLast? hc)

end EditorSync.Text

namespace EditorSync.Rpc

open Procedure (bind_eq_ok_iff)
open Text (Bytes Padded)

variable {buffer body rest : Bytes} {header : String} {line name value word : List Char}
  {lines : List (List Char)} {n : Nat}

def Numeral (word : List Char) (n : Nat) : Prop :=
  ∃ digits, (word = digits ∨ word = '+' :: digits) ∧ digits ≠ [] ∧
    (∀ c ∈ digits, c.isDigit = true) ∧ Nat.ofDigitChars 10 digits 0 = n ∧ n < 0x10000000000000000

def Holds (value : List Char) (n : Nat) : Prop := ∃ word, Padded word value ∧ Numeral word n

def GivesLength (line value : List Char) : Prop :=
  ∃ name word, line = name ++ ':' :: value ∧ ':' ∉ name ∧ Padded word name ∧
    word.map Char.toLower = "content-length".toList

/-- Whatever lines give a length hold a number, and the last of them holds this one. -/
structure Announces (lines : List (List Char)) (n : Nat) : Prop where
  holds : ∀ line ∈ lines, ∀ value, GivesLength line value → ∃ m, Holds value m
  last : ∃ earlier line later value, lines = earlier ++ line :: later ∧
    GivesLength line value ∧ Holds value n ∧ ∀ other ∈ later, ∀ value, ¬ GivesLength other value

/-- A buffer begins with a frame: a text and a blank line, which is the first, and then as many bytes
as the text announces. -/
structure Framed (buffer : Bytes) (header : String) (body rest : Bytes) : Prop where
  bytes_eq : buffer = Text.encode header ++ [13, 10, 13, 10] ++ body ++ rest
  first : ∀ before after, buffer = before ++ [13, 10, 13, 10] ++ after →
    (Text.encode header).length ≤ before.length
  announces : Announces (header.toList.splitOn '\n') body.length

section Numbers

theorem Numeral.not_blank (h : Numeral word n) : ∀ c ∈ word, Text.isBlank c = false := by
  obtain ⟨digits, rfl | rfl, -, hdigits, -, -⟩ := h
  · exact fun c hc => Text.not_blank_of_isDigit (hdigits c hc)
  · rw [List.forall_mem_cons]
    exact ⟨by decide, fun c hc => Text.not_blank_of_isDigit (hdigits c hc)⟩

theorem readLength_plus {digits : List Char} (hdigits : ∀ c ∈ digits, c.isDigit = true) :
    readLength (String.ofList ('+' :: digits)) = readLength (String.ofList digits) := by
  unfold readLength
  extract_lets afterSign signed unsigned value
  have hsame : unsigned = afterSign := by
    dsimp only [unsigned, afterSign]
    rw [String.toList_ofList, String.toList_ofList]
    split
    · exact absurd (hdigits '+' List.mem_cons_self) (by decide)
    · rfl
  simp only [value, signed, hsame]

theorem readLength_of_numeral (h : Numeral word n) : readLength (String.ofList word) = some n := by
  obtain ⟨digits, hword, hne, hdigits, hvalue, hbound⟩ := h
  have hread : readLength (String.ofList digits) = some n := by
    refine readLength_of_isDigit hne hdigits ?_ (by omega)
    rw [Nat.ofDigitChars_eq_foldl] at hvalue
    simpa only [Nat.mul_comm] using hvalue
  rcases hword with rfl | rfl
  · exact hread
  · rw [readLength_plus hdigits, hread]

theorem numeral_of_readLength (h : readLength (String.ofList word) = some n) : Numeral word n := by
  unfold readLength at h
  extract_lets digits value at h
  have hword : word = digits ∨ word = '+' :: digits := by
    dsimp only [digits]
    rw [String.toList_ofList]
    split
    · exact .inr rfl
    · exact .inl rfl
  split at h
  · rename_i hdigits
    split at h
    · rename_i hbound
      refine ⟨digits, hword, hdigits.1, List.all_eq_true.mp hdigits.2, ?_, ?_⟩
      · rw [Nat.ofDigitChars_eq_foldl, ← Option.some.inj h]
        simp only [value, Nat.mul_comm]
      · rw [← Option.some.inj h]
        omega
    · cases h
  · cases h

theorem readLength_trim_eq_some_iff :
    readLength (Text.trim (String.ofList value)) = some n ↔ Holds value n := by
  constructor
  · intro h
    rw [← String.ofList_toList (s := Text.trim (String.ofList value))] at h
    exact ⟨_, Text.padded_trim value, numeral_of_readLength h⟩
  · rintro ⟨word, hpadded, hnumeral⟩
    rw [Text.trim_of_padded hpadded hnumeral.not_blank, readLength_of_numeral hnumeral]

end Numbers

section Lines

theorem toLower_of_isBlank {c : Char} (h : Text.isBlank c = true) : c.toLower = c := by
  unfold Char.toLower
  split
  · rename_i hupper
    have hlow : 65 ≤ c.toNat := hupper.1
    have hhigh : c.toNat ≤ 90 := hupper.2
    simp only [Text.isBlank, Bool.or_eq_true, Bool.and_eq_true, decide_eq_true_eq,
      beq_iff_eq] at h
    omega
  · rfl

theorem trim_name_iff : (Text.trim (String.ofList name)).map Char.toLower = "content-length" ↔
    ∃ word, Padded word name ∧ word.map Char.toLower = "content-length".toList := by
  rw [← String.toList_inj, String.toList_map]
  refine ⟨fun h => ⟨_, Text.padded_trim name, h⟩, ?_⟩
  rintro ⟨word, hpadded, hlower⟩
  have hword : ∀ c ∈ word, Text.isBlank c = false := by
    intro c hc
    have hmem : c.toLower ∈ "content-length".toList := hlower ▸ List.mem_map_of_mem hc
    have hnone : ("content-length".toList.all fun d => !Text.isBlank d) = true := by decide
    by_contra hblank
    rw [Bool.not_eq_false] at hblank
    rw [toLower_of_isBlank hblank] at hmem
    have hclear := List.all_eq_true.mp hnone c hmem
    rw [hblank] at hclear
    cases hclear
  rw [Text.trim_of_padded hpadded hword, String.toList_ofList, hlower]

theorem span_colon (h : ':' ∉ name) :
    (name ++ ':' :: value).span (· ≠ ':') = (name, ':' :: value) := by
  have htake : (name ++ ':' :: value).takeWhile (· ≠ ':') = name := Text.takeWhile_ne_append h rfl
  have hwhole : (name ++ ':' :: value).takeWhile (· ≠ ':') ++
      (name ++ ':' :: value).dropWhile (· ≠ ':') = name ++ ':' :: value :=
    List.takeWhile_append_dropWhile
  rw [htake] at hwhole
  rw [List.span_eq_takeWhile_dropWhile, htake, List.append_cancel_left hwhole]

theorem announced_of_name (h : ':' ∉ name) : announced (name ++ ':' :: value) =
    if (Text.trim (String.ofList name)).map Char.toLower = "content-length" then
      match readLength (Text.trim (String.ofList value)) with
      | some n => .ok (some n)
      | none => .error .badLength
    else .ok none := by
  cases hread : readLength (Text.trim (String.ofList value)) <;>
    simp only [announced, span_colon h, hread]

theorem announced_of_not_mem (h : ':' ∉ line) : announced line = .ok none := by
  have hline : ∀ c ∈ line, decide (c ≠ ':') = true := by
    intro c hc
    exact decide_eq_true fun heq => h (heq ▸ hc)
  unfold announced
  rw [List.span_eq_takeWhile_dropWhile, List.dropWhile_eq_nil_iff.mpr hline]

theorem givesLength_iff (h : ':' ∉ name) {other : List Char} :
    GivesLength (name ++ ':' :: value) other ↔
      other = value ∧ (Text.trim (String.ofList name)).map Char.toLower = "content-length" := by
  rw [trim_name_iff]
  constructor
  · rintro ⟨name', word, heq, hname', hpadded, hlower⟩
    have hspan : (name ++ ':' :: value).span (· ≠ ':') = (name, ':' :: value) := span_colon h
    rw [heq, span_colon hname', Prod.mk.injEq, List.cons.injEq] at hspan
    obtain ⟨rfl, -, rfl⟩ := hspan
    exact ⟨rfl, word, hpadded, hlower⟩
  · rintro ⟨rfl, word, hpadded, hlower⟩
    exact ⟨name, word, rfl, h, hpadded, hlower⟩

theorem announced_cases (line : List Char) :
    ((∀ value, ¬ GivesLength line value) ∧ announced line = .ok none) ∨
      ∃ value, (∀ other, GivesLength line other ↔ other = value) ∧
        ((∃ n, Holds value n ∧ announced line = .ok (some n)) ∨
          (∀ n, ¬ Holds value n) ∧ announced line = .error .badLength) := by
  by_cases hcolon : ':' ∈ line
  · obtain ⟨name, value, rfl, hname⟩ := List.eq_append_cons_of_mem hcolon
    by_cases htrim : (Text.trim (String.ofList name)).map Char.toLower = "content-length"
    · refine .inr ⟨value, fun other => by simp only [givesLength_iff hname, htrim, and_true], ?_⟩
      rw [announced_of_name hname, if_pos htrim]
      cases hread : readLength (Text.trim (String.ofList value)) with
      | some n => exact .inl ⟨n, readLength_trim_eq_some_iff.mp hread, rfl⟩
      | none =>
        refine .inr ⟨fun n hn => ?_, rfl⟩
        rw [readLength_trim_eq_some_iff.mpr hn] at hread
        cases hread
    · refine .inl ⟨fun other h => htrim ((givesLength_iff hname).mp h).2, ?_⟩
      rw [announced_of_name hname, if_neg htrim]
  · refine .inl ⟨?_, announced_of_not_mem hcolon⟩
    rintro value ⟨name, word, rfl, -, -, -⟩
    exact hcolon (List.mem_append_right _ List.mem_cons_self)

theorem announced_eq_none_iff :
    announced line = .ok none ↔ ∀ value, ¬ GivesLength line value := by
  rcases announced_cases line with ⟨hnone, h⟩ | ⟨value, hvalue, h⟩
  · exact ⟨fun _ => hnone, fun _ => h⟩
  · have hgives : ¬ ∀ other, ¬ GivesLength line other := fun hno => hno value ((hvalue value).mpr rfl)
    rcases h with ⟨m, -, h⟩ | ⟨-, h⟩ <;> simp [h, hgives]

theorem announced_eq_some_iff :
    announced line = .ok (some n) ↔ ∃ value, GivesLength line value ∧ Holds value n := by
  rcases announced_cases line with ⟨hnone, h⟩ | ⟨value, hvalue, h⟩
  · simp [h, hnone]
  · simp only [hvalue, exists_eq_left]
    rcases h with ⟨m, hm, h⟩ | ⟨hno, h⟩
    · rw [← readLength_trim_eq_some_iff] at hm ⊢
      simp [h, hm]
    · simp [h, hno]

theorem exists_announced_iff :
    (∃ length, announced line = .ok length) ↔
      ∀ value, GivesLength line value → ∃ m, Holds value m := by
  rcases announced_cases line with ⟨hnone, h⟩ | ⟨value, hvalue, h⟩
  · simp [h, hnone]
  · simp only [hvalue, forall_eq]
    rcases h with ⟨m, hm, h⟩ | ⟨hno, h⟩
    · exact ⟨fun _ => ⟨m, hm⟩, fun _ => ⟨_, h⟩⟩
    · simp [h, hno]

def announcedBy (lines : List (List Char)) : Except FrameError (Option Nat) :=
  lines.foldlM (fun found line => do return (← announced line).or found) none

theorem announcedBy_concat (lines : List (List Char)) (line : List Char) :
    announcedBy (lines ++ [line]) = do
      let found ← announcedBy lines
      return (← announced line).or found := by
  simp only [announcedBy, List.foldlM_append, List.foldlM_cons, List.foldlM_nil, bind_pure]

theorem exists_announcedBy_iff : (∃ length, announcedBy lines = .ok length) ↔
    ∀ line ∈ lines, ∃ length, announced line = .ok length := by
  induction lines using List.reverseRecOn with
  | nil => exact ⟨fun _ _ h => absurd h List.not_mem_nil, fun _ => ⟨none, rfl⟩⟩
  | append_singleton lines line ih =>
    simp only [List.forall_mem_append, List.forall_mem_singleton, ← ih, announcedBy_concat,
      bind_eq_ok_iff]
    constructor
    · rintro ⟨length, found, hfound, here, hhere, -⟩
      exact ⟨⟨found, hfound⟩, here, hhere⟩
    · rintro ⟨⟨found, hfound⟩, here, hhere⟩
      exact ⟨here.or found, found, hfound, here, hhere, rfl⟩

theorem announcedBy_concat_eq_some_iff : announcedBy (lines ++ [line]) = .ok (some n) ↔
    (∃ found, announcedBy lines = .ok found) ∧ announced line = .ok (some n) ∨
      announcedBy lines = .ok (some n) ∧ announced line = .ok none := by
  simp only [announcedBy_concat, bind_eq_ok_iff]
  constructor
  · rintro ⟨found, hfound, here, hhere, hor⟩
    cases here with
    | some m =>
      obtain rfl : m = n := Option.some.inj (Except.ok.inj hor)
      exact .inl ⟨⟨found, hfound⟩, hhere⟩
    | none =>
      obtain rfl : found = some n := Except.ok.inj hor
      exact .inr ⟨hfound, hhere⟩
  · rintro (⟨⟨found, hfound⟩, hhere⟩ | ⟨hfound, hhere⟩)
    · exact ⟨found, hfound, some n, hhere, rfl⟩
    · exact ⟨some n, hfound, none, hhere, rfl⟩

def LastAnnounced (lines : List (List Char)) (n : Nat) : Prop :=
  ∃ earlier line later, lines = earlier ++ line :: later ∧ announced line = .ok (some n) ∧
    ∀ other ∈ later, announced other = .ok none

theorem lastAnnounced_concat_iff : LastAnnounced (lines ++ [line]) n ↔
    announced line = .ok (some n) ∨ LastAnnounced lines n ∧ announced line = .ok none := by
  constructor
  · rintro ⟨earlier, last, later, heq, hlast, hlater⟩
    rcases List.eq_nil_or_concat later with rfl | ⟨later, other, rfl⟩
    · obtain ⟨rfl, hline⟩ := List.append_inj' heq rfl
      exact .inl (List.singleton_inj.mp hline ▸ hlast)
    · rw [List.concat_eq_append] at heq hlater
      rw [← List.cons_append, ← List.append_assoc] at heq
      obtain ⟨rfl, hline⟩ := List.append_inj' heq rfl
      rw [List.forall_mem_append, List.forall_mem_singleton] at hlater
      exact .inr ⟨⟨earlier, last, later, rfl, hlast, hlater.1⟩,
        List.singleton_inj.mp hline ▸ hlater.2⟩
  · rintro (hline | ⟨⟨earlier, last, later, rfl, hlast, hlater⟩, hline⟩)
    · exact ⟨lines, line, [], rfl, hline, fun _ h => absurd h List.not_mem_nil⟩
    · refine ⟨earlier, last, later ++ [line], by rw [List.append_assoc, List.cons_append], hlast, ?_⟩
      rw [List.forall_mem_append, List.forall_mem_singleton]
      exact ⟨hlater, hline⟩

theorem announcedBy_eq_some_iff : announcedBy lines = .ok (some n) ↔
    (∀ line ∈ lines, ∃ length, announced line = .ok length) ∧ LastAnnounced lines n := by
  -- A later line overrides what the earlier ones gave, so lines are taken off the end.
  induction lines using List.reverseRecOn with
  | nil =>
    constructor
    · rintro ⟨⟩
    · rintro ⟨-, earlier, line, later, heq, -⟩
      exact absurd heq (by simp)
  | append_singleton lines line ih =>
    rw [announcedBy_concat_eq_some_iff, lastAnnounced_concat_iff, ih, exists_announcedBy_iff,
      List.forall_mem_append, List.forall_mem_singleton]
    constructor
    · rintro (⟨hlines, hline⟩ | ⟨⟨hlines, hlast⟩, hline⟩)
      · exact ⟨⟨hlines, some n, hline⟩, .inl hline⟩
      · exact ⟨⟨hlines, none, hline⟩, .inr ⟨hlast, hline⟩⟩
    · rintro ⟨⟨hlines, -⟩, hline | ⟨hlast, hline⟩⟩
      · exact .inl ⟨hlines, hline⟩
      · exact .inr ⟨⟨hlines, hlast⟩, hline⟩

theorem contentLength_eq_some_iff :
    contentLength header = .ok (some n) ↔ Announces (header.toList.splitOn '\n') n := by
  change announcedBy (header.toList.splitOn '\n') = .ok (some n) ↔ _
  simp only [announcedBy_eq_some_iff, LastAnnounced, exists_announced_iff, announced_eq_some_iff,
    announced_eq_none_iff]
  constructor
  · rintro ⟨hholds, earlier, line, later, hlines, ⟨value, hgives, hvalue⟩, hlater⟩
    exact ⟨hholds, earlier, line, later, value, hlines, hgives, hvalue, hlater⟩
  · rintro ⟨hholds, earlier, line, later, value, hlines, hgives, hvalue, hlater⟩
    exact ⟨hholds, earlier, line, later, hlines, ⟨value, hgives, hvalue⟩, hlater⟩

end Lines

section Frames

theorem Framed.begins (h : Framed buffer header body rest) :
    Begins buffer (Text.encode header) body rest := by
  refine ⟨?_, fun before after hbefore => h.first before after ?_, header,
    Text.decode?_encode header, contentLength_eq_some_iff.mpr h.announces⟩
  · rw [h.bytes_eq, List.append_assoc, List.append_assoc]
    rfl
  · rw [hbefore, List.append_assoc]
    rfl

theorem Begins.framed {bytes : Bytes} (h : Begins buffer bytes body rest) :
    ∃ header, bytes = Text.encode header ∧ Framed buffer header body rest := by
  obtain ⟨header, hdecode, hlength⟩ := h.announced
  obtain rfl := Text.encode_of_decode? hdecode
  refine ⟨header, rfl, ?_, fun before after hbefore => h.first before after ?_,
    contentLength_eq_some_iff.mp hlength⟩
  · rw [h.bytes_eq, List.append_assoc, List.append_assoc]
    rfl
  · rw [hbefore, List.append_assoc]
    rfl

theorem Framed.append (h : Framed buffer header body rest) (more : Bytes) :
    Framed (buffer ++ more) header body (rest ++ more) := by
  obtain ⟨header', heq, hframed⟩ := (h.begins.append more).framed
  rwa [Text.encode_injective heq]

theorem Framed.nextFrame_of_text {text : String} (h : Framed buffer header (Text.encode text) rest) :
    nextFrame buffer = .message text rest := by
  rw [h.begins.nextFrame, Text.decode?_encode]
  rfl

theorem Framed.nextFrame_of_not_text (h : Framed buffer header body rest)
    (hbody : ∀ text, body ≠ Text.encode text) : nextFrame buffer = .failed .bodyNotText rest := by
  have hdecode : Text.decode? body = none :=
    Option.eq_none_iff_forall_ne_some.mpr fun text h => hbody text (Text.encode_of_decode? h)
  rw [h.begins.nextFrame, hdecode]
  rfl

theorem nextFrame_cases (buffer : Bytes) :
    (∃ header text rest, Framed buffer header (Text.encode text) rest ∧
        nextFrame buffer = .message text rest) ∨
      (∃ header body rest, Framed buffer header body rest ∧ (∀ text, body ≠ Text.encode text) ∧
        nextFrame buffer = .failed .bodyNotText rest) ∨
      nextFrame buffer = .incomplete ∨ ∃ e, e ≠ .bodyNotText ∧ nextFrame buffer = .failed e buffer := by
  rcases exists_begins_or buffer with ⟨bytes, body, rest, hbegins⟩ | hstays
  · obtain ⟨header, -, hframed⟩ := hbegins.framed
    by_cases htext : ∃ text, body = Text.encode text
    · obtain ⟨text, rfl⟩ := htext
      exact .inl ⟨header, text, rest, hframed, hframed.nextFrame_of_text⟩
    · have hbody : ∀ text, body ≠ Text.encode text := fun text h => htext ⟨text, h⟩
      exact .inr (.inl ⟨header, body, rest, hframed, hbody, hframed.nextFrame_of_not_text hbody⟩)
  · exact .inr (.inr hstays)

theorem nextFrame_eq_message_iff {text : String} : nextFrame buffer = .message text rest ↔
    ∃ header, Framed buffer header (Text.encode text) rest := by
  refine ⟨fun h => ?_, fun ⟨header, hframed⟩ => hframed.nextFrame_of_text⟩
  rcases nextFrame_cases buffer with ⟨header, text', rest', hframed, hnext⟩ |
    ⟨header, body, rest', -, -, hnext⟩ | hnext | ⟨e, -, hnext⟩ <;> rw [hnext] at h
  · obtain ⟨rfl, rfl⟩ := FrameStep.message.inj h
    exact ⟨header, hframed⟩
  all_goals cases h

theorem nextFrame_eq_bodyNotText_iff : nextFrame buffer = .failed .bodyNotText rest ↔
    ∃ header body, Framed buffer header body rest ∧ ∀ text, body ≠ Text.encode text := by
  refine ⟨fun h => ?_, fun ⟨header, body, hframed, hbody⟩ => hframed.nextFrame_of_not_text hbody⟩
  rcases nextFrame_cases buffer with ⟨header, text, rest', -, hnext⟩ |
    ⟨header, body, rest', hframed, hbody, hnext⟩ | hnext | ⟨e, he, hnext⟩ <;> rw [hnext] at h
  · cases h
  · obtain ⟨-, rfl⟩ := FrameStep.failed.inj h
    exact ⟨header, body, hframed, hbody⟩
  · cases h
  · exact absurd (FrameStep.failed.inj h).1 he

theorem rest_of_header_failure {e : FrameError} (he : e ≠ .bodyNotText)
    (h : nextFrame buffer = .failed e rest) : rest = buffer := by
  rcases nextFrame_cases buffer with ⟨header, text, rest', -, hnext⟩ |
    ⟨header, body, rest', -, -, hnext⟩ | hnext | ⟨e', -, hnext⟩ <;> rw [hnext] at h
  · cases h
  · exact absurd (FrameStep.failed.inj h).1.symm he
  · cases h
  · exact (FrameStep.failed.inj h).2.symm

theorem unframe_of_stays (h : nextFrame buffer = .incomplete) : unframe buffer = ⟨[], none, buffer⟩ := by
  unfold unframe
  cases buffer.length with
  | zero => rfl
  | succ fuel => rw [unframeWith, h]

/-- A message comes out of a buffer exactly when the buffer begins with a frame whose body is its
text, and this frame is taken off. A frame with another body is taken off too, and nothing else ever
is. What bytes come later does not matter. -/
theorem nextFrame_takes_frame (buffer : Bytes) :
    (∀ text rest, nextFrame buffer = .message text rest ↔
        ∃ header, Framed buffer header (Text.encode text) rest) ∧
      (∀ rest, nextFrame buffer = .failed .bodyNotText rest ↔
        ∃ header body, Framed buffer header body rest ∧ ∀ text, body ≠ Text.encode text) ∧
      (∀ e rest, nextFrame buffer = .failed e rest → e ≠ .bodyNotText → rest = buffer) ∧
      (nextFrame buffer = .incomplete → unframe buffer = ⟨[], none, buffer⟩) ∧
      ∀ more rest,
        (∀ text, nextFrame buffer = .message text rest →
          nextFrame (buffer ++ more) = .message text (rest ++ more)) ∧
        (nextFrame buffer = .failed .bodyNotText rest →
          nextFrame (buffer ++ more) = .failed .bodyNotText (rest ++ more)) := by
  refine ⟨fun text rest => nextFrame_eq_message_iff, fun rest => nextFrame_eq_bodyNotText_iff,
    fun e rest h he => rest_of_header_failure he h, unframe_of_stays,
    fun more rest => ⟨fun text h => ?_, fun h => ?_⟩⟩
  · obtain ⟨header, hframed⟩ := nextFrame_eq_message_iff.mp h
    exact nextFrame_eq_message_iff.mpr ⟨header, hframed.append more⟩
  · obtain ⟨header, body, hframed, hbody⟩ := nextFrame_eq_bodyNotText_iff.mp h
    exact nextFrame_eq_bodyNotText_iff.mpr ⟨header, body, hframed.append more, hbody⟩

end Frames

end EditorSync.Rpc
