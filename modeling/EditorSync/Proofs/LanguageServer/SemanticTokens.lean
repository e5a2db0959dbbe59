import Mathlib.Data.List.Forall2
import EditorSync.LanguageServer.SemanticTokens
import EditorSync.Proofs.Text.Positions

namespace EditorSync.LanguageServer

open Text (Encoding LineIndex Upto)

variable {content : String} {server wire : Encoding} {legend : List String}
  {tokens : List SemanticToken} {token : SemanticToken} {line column line' column' : Nat}

structure Placed where
  line : Nat
  column : Nat
  token : SemanticToken
  deriving DecidableEq, Repr

namespace Placed

def after (line column : Nat) (token : SemanticToken) : Placed :=
  if token.deltaLine = 0 then ⟨line, column + token.deltaStart, token⟩
  else ⟨line + token.deltaLine, token.deltaStart, token⟩

def stop (p : Placed) : Nat := p.column + p.token.length

def Earlier (p q : Placed) : Prop := p.line < q.line ∨ p.line = q.line ∧ p.column ≤ q.column

def Clear (p q : Placed) : Prop := p.line = q.line → addPosition p.column p.token.length ≤ q.column

instance (p q : Placed) : Decidable (Clear p q) := inferInstanceAs (Decidable (_ → _))

end Placed

def places : Nat → Nat → List SemanticToken → List Placed
  | _, _, [] => []
  | line, column, token :: tokens =>
    let p := Placed.after line column token
    p :: places p.line p.column tokens

/-- A highlight covers a part of one line of the text: the characters between the two places that the
columns of its token mean. -/
def Covers (content : String) (server wire : Encoding) (legend : List String) (p : Placed)
    (h : Highlight) : Prop :=
  ∃ first covered rest, content = first ++ covered ++ rest ∧ '\n' ∉ covered.toList ∧
    Upto server content p.line p.column first ∧
    Upto server content p.line p.stop (first ++ covered) ∧
    h = ⟨(wire.units first).length, (wire.units covered).length,
      (legend[p.token.kind]?).getD "unknown"⟩

def StartsBy (h k : Highlight) : Prop := h.offset ≤ k.offset

def EndsBy (h k : Highlight) : Prop := h.offset + h.length ≤ k.offset

def Agrees (line column line' column' : Nat) : Prop :=
  line' = line ∧ (column' = column ∨ positionMax ≤ column ∧ positionMax ≤ column') ∨
    positionMax ≤ line ∧ positionMax ≤ line'

theorem Agrees.refl (line column : Nat) : Agrees line column line column := .inl ⟨rfl, .inl rfl⟩

theorem Agrees.add_column (h : Agrees line column line' column') (n : Nat) :
    Agrees line (column + n) line' (addPosition column' n) := by
  unfold Agrees addPosition at *
  omega

theorem Agrees.add_line (h : Agrees line column line' column') {n : Nat} (hn : 0 < n) (start : Nat) :
    Agrees (line + n) start (addPosition line' n) start := by
  unfold Agrees addPosition at *
  omega

theorem Agrees.upto (h : Agrees line column line' column')
    (hsize : (Text.encode content).length ≤ positionMax) {head : String}
    (hhead : Upto server content line column head) : Upto server content line' column' head := by
  rcases h with ⟨rfl, rfl | ⟨hcolumn, hcolumn'⟩⟩ | ⟨hline, hline'⟩
  · exact hhead
  · exact hhead.of_size_le_column (Nat.le_trans hsize hcolumn) (Nat.le_trans hsize hcolumn')
  · obtain ⟨head', hhead', -⟩ := Text.exists_upto server content line' column'
    rw [hhead'.eq_of_size_le_line (Nat.le_trans hsize hline')] at hhead'
    rw [hhead.eq_of_size_le_line (Nat.le_trans hsize hline)]
    exact hhead'

theorem highlightAt?_eq {first covered : String} (hfirst : Upto server content line column first)
    (hlast : Upto server content line (addPosition column token.length) (first ++ covered)) :
    highlightAt? legend (.of content) server wire line column token =
      some ⟨(wire.units first).length, (wire.units covered).length,
        (legend[token.kind]?).getD "unknown"⟩ := by
  simp only [highlightAt?, hfirst.byteOfPosition?_eq, hlast.byteOfPosition?_eq,
    Text.offsetOfByte?_eq hfirst.begins, Text.offsetOfByte?_eq hlast.begins, Encoding.units_append,
    List.length_append, Nat.add_sub_cancel_left, Option.bind_eq_bind, Option.bind_some,
    Option.pure_def]

theorem exists_covers (legend : List String) (server wire : Encoding) {p : Placed}
    (hsize : (Text.encode content).length ≤ positionMax)
    (hagrees : Agrees p.line p.column line' column') : ∃ h,
      highlightAt? legend (.of content) server wire line' column' p.token = some h ∧
        Covers content server wire legend p h := by
  obtain ⟨first, hfirst, -⟩ := Text.exists_upto server content p.line p.column
  obtain ⟨last, hlast, -⟩ := Text.exists_upto server content p.line p.stop
  have hle := hfirst.mono hlast (.inr ⟨rfl, Nat.le_add_right _ _⟩)
  obtain ⟨covered, rfl⟩ := Text.exists_rest hle
  obtain ⟨rest, hrest⟩ := Text.exists_rest hlast.begins
  exact ⟨_, highlightAt?_eq (hagrees.upto hsize hfirst)
    ((hagrees.add_column p.token.length).upto hsize hlast), first, covered, rest, hrest,
    hfirst.unbroken hlast, hfirst, hlast, rfl⟩

theorem token_after (line column : Nat) (token : SemanticToken) :
    (Placed.after line column token).token = token := by
  unfold Placed.after
  split <;> rfl

theorem tokenStarts_cons (token : SemanticToken) (tokens : List SemanticToken)
    (h : Agrees line column line' column') : ∃ next start,
      tokenStarts line' column' (token :: tokens) =
        (next, start, token) :: tokenStarts next start tokens ∧
      Agrees (Placed.after line column token).line (Placed.after line column token).column next
        start := by
  unfold Placed.after
  by_cases hsame : token.deltaLine = 0
  · rw [if_pos hsame]
    exact ⟨line', addPosition column' token.deltaStart, by simp [tokenStarts, hsame],
      h.add_column token.deltaStart⟩
  · have hpos := Nat.pos_of_ne_zero hsame
    rw [if_neg hsame]
    exact ⟨addPosition line' token.deltaLine, token.deltaStart, by simp [tokenStarts, hpos],
      h.add_line hpos token.deltaStart⟩

theorem forall₂_covers (legend : List String) (server wire : Encoding)
    (hsize : (Text.encode content).length ≤ positionMax) (tokens : List SemanticToken)
    (h : Agrees line column line' column') : ∃ highlights,
      (tokenStarts line' column' tokens).mapM (fun (line, column, token) =>
        highlightAt? legend (.of content) server wire line column token) = some highlights ∧
      List.Forall₂ (Covers content server wire legend) (places line column tokens) highlights := by
  -- Both ways of counting start anew from the token before, and agree about it.
  induction tokens generalizing line column line' column' with
  | nil => exact ⟨[], rfl, .nil⟩
  | cons token tokens ih =>
    obtain ⟨next, start, hstarts, hagrees⟩ := tokenStarts_cons token tokens h
    obtain ⟨highlight, hhighlight, hcovers⟩ := exists_covers legend server wire hsize hagrees
    obtain ⟨highlights, hrest, hall⟩ := ih hagrees
    rw [token_after] at hhighlight
    refine ⟨highlight :: highlights, ?_, .cons hcovers hall⟩
    rw [hstarts, List.mapM_cons, hrest]
    dsimp only
    rw [hhighlight]
    rfl

theorem earlier_after (p : Placed) (token : SemanticToken) :
    p.Earlier (.after p.line p.column token) := by
  unfold Placed.Earlier Placed.after
  split
  · exact .inr ⟨rfl, Nat.le_add_right _ _⟩
  · exact .inl (Nat.lt_add_of_pos_right (by omega))

theorem isChain_earlier (line column : Nat) (tokens : List SemanticToken) :
    (places line column tokens).IsChain Placed.Earlier := by
  induction tokens generalizing line column with
  | nil => exact .nil
  | cons token tokens ih =>
    have hrest := ih (Placed.after line column token).line (Placed.after line column token).column
    rw [places]
    cases tokens with
    | nil => exact .singleton _
    | cons next tokens =>
      rw [places] at hrest ⊢
      exact .cons_cons (earlier_after _ next) hrest

theorem length_places (line column : Nat) (tokens : List SemanticToken) :
    (places line column tokens).length = tokens.length := by
  induction tokens generalizing line column with
  | nil => rfl
  | cons token tokens ih => rw [places, List.length_cons, List.length_cons, ih]

section Order

variable {p q : Placed} {h k : Highlight}

theorem Covers.startsBy (hp : Covers content server wire legend p h)
    (hq : Covers content server wire legend q k) (hpq : p.Earlier q) : StartsBy h k := by
  obtain ⟨first, -, -, -, -, hfirst, -, rfl⟩ := hp
  obtain ⟨next, -, -, -, -, hnext, -, rfl⟩ := hq
  have hle : wire.span first.toList ≤ wire.span next.toList :=
    Text.span_le_of_prefix (hfirst.mono hnext hpq)
  rwa [← Encoding.length_units, ← Encoding.length_units] at hle

theorem Covers.endsBy (hsize : (Text.encode content).length ≤ positionMax)
    (hp : Covers content server wire legend p h) (hq : Covers content server wire legend q k)
    (hpq : p.Earlier q) (hclear : p.Clear q) : EndsBy h k := by
  obtain ⟨first, covered, -, -, -, -, hlast, rfl⟩ := hp
  obtain ⟨next, -, -, -, -, hnext, -, rfl⟩ := hq
  have hend := ((Agrees.refl p.line p.column).add_column p.token.length).upto hsize hlast
  have hbefore : p.line < q.line ∨ p.line = q.line ∧ addPosition p.column p.token.length ≤ q.column :=
    hpq.imp_right fun hline => ⟨hline.1, hclear hline.1⟩
  have hle : wire.span (first ++ covered).toList ≤ wire.span next.toList :=
    Text.span_le_of_prefix (hend.mono hnext hbefore)
  rwa [← Encoding.length_units, ← Encoding.length_units, Encoding.units_append,
    List.length_append] at hle

theorem isChain_of_covers {R : Placed → Placed → Prop} {S : Highlight → Highlight → Prop}
    {ps : List Placed} {hs : List Highlight}
    (himp : ∀ {p q h k}, Covers content server wire legend p h →
      Covers content server wire legend q k → p.Earlier q → R p q → S h k)
    (hcovers : List.Forall₂ (Covers content server wire legend) ps hs)
    (hearlier : ps.IsChain Placed.Earlier) (hR : ps.IsChain R) : hs.IsChain S := by
  induction hcovers with
  | nil => exact .nil
  | cons hp hrest ih =>
    cases hrest with
    | nil => exact .singleton _
    | cons hq hrest =>
      rw [List.isChain_cons_cons] at hearlier hR
      exact .cons_cons (himp hp hq hearlier.1 hR.1) (ih hearlier.2 hR.2)

end Order

/-- Every token has a highlight, which covers its characters, and the highlights are in order. They do
not overlap if the tokens do not. Places that are too large for words mean the same as those that are
reached by counting with words. -/
theorem highlights_of_tokens (tokens : List SemanticToken) (legend : List String)
    (server wire : Encoding) (hsize : (Text.encode content).length < UInt32.size) : ∃ highlights,
      highlightsOf? tokens legend content server wire = some highlights ∧
      highlightsOf tokens legend content server wire = highlights ∧
      highlights.length = tokens.length ∧
      List.Forall₂ (Covers content server wire legend) (places 0 0 tokens) highlights ∧
      highlights.Pairwise StartsBy ∧
      ((places 0 0 tokens).IsChain Placed.Clear → highlights.Pairwise EndsBy) := by
  have hwords : (Text.encode content).length ≤ positionMax := Nat.le_of_lt_succ hsize
  obtain ⟨highlights, hsome, hcovers⟩ :=
    forall₂_covers legend server wire hwords tokens (Agrees.refl 0 0)
  have hearlier := isChain_earlier 0 0 tokens
  have hfound : highlightsOf? tokens legend content server wire = some highlights := hsome
  refine ⟨highlights, hfound, ?_, ?_, hcovers, ?_, fun hclear => ?_⟩
  · rw [highlightsOf, hfound]
    rfl
  · rw [← hcovers.length_eq, length_places]
  · have htrans : Trans StartsBy StartsBy StartsBy := ⟨fun h k => Nat.le_trans h k⟩
    exact (isChain_of_covers (fun hp hq hpq _ => hp.startsBy hq hpq) hcovers hearlier
      hearlier).pairwise
  · have htrans : Trans EndsBy EndsBy EndsBy := ⟨fun h k => by unfold EndsBy at *; omega⟩
    exact (isChain_of_covers (fun hp hq hpq hR => hp.endsBy hwords hq hpq hR) hcovers hearlier
      hclear).pairwise

theorem highlights_of_tokens_past_line :
    let tokens : List SemanticToken := [⟨0, 0, 2, 0⟩, ⟨0, 3, 2, 1⟩, ⟨1, 0, 0xFFFFFFFF, 0⟩]
    let highlights : List Highlight := [⟨0, 4, "keyword"⟩, ⟨5, 2, "unknown"⟩, ⟨8, 1, "keyword"⟩]
    (Text.encode "😀 fn\nx").length < UInt32.size ∧ (places 0 0 tokens).IsChain Placed.Clear ∧
      highlightsOf? tokens ["keyword"] "😀 fn\nx" .utf16 .utf8 = some highlights ∧
      highlights.Pairwise EndsBy := by
  intro tokens highlights
  have hsize : (Text.encode "😀 fn\nx").length < UInt32.size := by decide
  have hclear : (places 0 0 tokens).IsChain Placed.Clear := by decide
  have hfound : highlightsOf? tokens ["keyword"] "😀 fn\nx" .utf16 .utf8 = some highlights := by
    decide +kernel
  obtain ⟨covering, hsome, -, -, -, -, hparts⟩ :=
    highlights_of_tokens tokens ["keyword"] .utf16 .utf8 hsize
  obtain rfl : highlights = covering := Option.some.inj (hfound.symm.trans hsome)
  exact ⟨hsize, hclear, hfound, hparts hclear⟩

end EditorSync.LanguageServer
