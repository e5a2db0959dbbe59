import Mathlib.Data.List.TakeWhile
import EditorSync.Console.Paint
import EditorSync.Proofs.Text

namespace EditorSync.Console

variable {c : Char} {cs xs ys rest parameters : List Char}

inductive Piece where
  | shown (c : Char)
  | code (parameters : List Char)
  deriving DecidableEq

namespace Piece

def char? : Piece → Option Char
  | shown c => some c
  | code _ => none

def code? : Piece → Option (List Char)
  | shown _ => none
  | code parameters => some parameters

end Piece

def escape : Char := '\x1b'

def Unescaped (text : String) : Prop := escape ∉ text.toList

instance (text : String) : Decidable (Unescaped text) := inferInstanceAs (Decidable (_ ∉ _))

theorem unescaped_append {s t : String} : Unescaped (s ++ t) ↔ Unescaped s ∧ Unescaped t := by
  rw [Unescaped, String.toList_append, List.mem_append, not_or]
  rfl

def isParameter (c : Char) : Bool := c.isDigit || c = ';'

def code? : List Char → Option (List Char × List Char)
  | '\x1b' :: '[' :: cs =>
    match cs.dropWhile isParameter with
    | 'm' :: rest => some (cs.takeWhile isParameter, rest)
    | _ => none
  | _ => none

theorem code?_eq_some_iff : code? cs = some (parameters, rest) ↔
    cs = escape :: '[' :: (parameters ++ 'm' :: rest) ∧ ∀ c ∈ parameters, isParameter c = true := by
  constructor
  · intro h
    unfold code? at h
    split at h
    · rename_i cs
      split at h
      · rename_i rest hdrop
        cases h
        refine ⟨?_, fun c hc => List.mem_takeWhile_imp hc⟩
        rw [← hdrop, List.takeWhile_append_dropWhile]
        rfl
      · cases h
    · cases h
  · rintro ⟨rfl, h⟩
    have hm : isParameter 'm' = false := by decide
    rw [escape, code?, List.dropWhile_append_of_pos h, List.dropWhile_cons_of_neg (by simp [hm]),
      List.takeWhile_append_of_pos h, List.takeWhile_cons_of_neg (by simp [hm]), List.append_nil]
    rfl

theorem length_lt_of_code? (h : code? cs = some (parameters, rest)) : rest.length < cs.length := by
  obtain ⟨rfl, -⟩ := code?_eq_some_iff.mp h
  simp only [List.length_cons, List.length_append]
  omega

theorem code?_of_ne_escape (h : c ≠ escape) : code? (c :: cs) = none := by
  rw [Option.eq_none_iff_forall_ne_some]
  rintro ⟨parameters, rest⟩ hcode
  obtain ⟨hcs, -⟩ := code?_eq_some_iff.mp hcode
  exact h (List.cons.inj hcs).1

theorem code?_append (h : 'm' ∉ ys) (cs : List Char) :
    code? (cs ++ ys) = (code? cs).map fun (parameters, rest) => (parameters, rest ++ ys) := by
  cases hcode : code? cs with
  | some read =>
    obtain ⟨parameters, rest⟩ := read
    obtain ⟨rfl, hparameters⟩ := code?_eq_some_iff.mp hcode
    rw [Option.map_some, code?_eq_some_iff]
    exact ⟨by simp, hparameters⟩
  | none =>
    rw [Option.map_none, Option.eq_none_iff_forall_ne_some]
    rintro ⟨parameters, rest⟩ hwhole
    obtain ⟨hcs, hparameters⟩ := code?_eq_some_iff.mp hwhole
    have hsplit : cs ++ ys = (escape :: '[' :: (parameters ++ ['m'])) ++ rest := by
      rw [hcs]
      simp
    have hno (more : List Char) : cs ≠ (escape :: '[' :: (parameters ++ ['m'])) ++ more := by
      intro heq
      have hsome : code? cs = some (parameters, more) :=
        code?_eq_some_iff.mpr ⟨by rw [heq]; simp, hparameters⟩
      rw [hcode] at hsome
      cases hsome
    rcases List.append_eq_append_iff.mp hsplit with ⟨more, hmore, rfl⟩ | ⟨more, hmore, -⟩
    · -- The last letter of the code would be one of those put after the text.
      rcases List.eq_nil_or_concat more with rfl | ⟨front, last, rfl⟩
      · exact hno [] (by rw [hmore]; simp)
      · have hend : (escape :: '[' :: parameters) ++ ['m'] = (cs ++ front) ++ [last] := by
          simpa using hmore
        obtain ⟨-, hlast⟩ := List.append_inj' hend rfl
        cases hlast
        simp at h
    · exact hno more hmore

def pieces : List Char → List Piece
  | [] => []
  | c :: cs =>
    match h : code? (c :: cs) with
    | some (parameters, rest) =>
      have := length_lt_of_code? h
      .code parameters :: pieces rest
    | none => .shown c :: pieces cs
termination_by cs => cs.length
decreasing_by
  · exact this
  · exact Nat.lt_succ_self cs.length

theorem pieces_of_code (h : code? cs = some (parameters, rest)) :
    pieces cs = .code parameters :: pieces rest := by
  cases cs with
  | nil => cases h
  | cons c cs =>
    rw [pieces]
    split
    · rename_i hcode
      cases hcode.symm.trans h
      rfl
    · rename_i hcode
      cases hcode.symm.trans h

theorem pieces_of_not_code (h : code? (c :: cs) = none) :
    pieces (c :: cs) = .shown c :: pieces cs := by
  rw [pieces]
  split
  · rename_i hcode
    cases hcode.symm.trans h
  · rfl

theorem pieces_append (h : 'm' ∉ ys) (cs : List Char) :
    pieces (cs ++ ys) = pieces cs ++ pieces ys := by
  fun_induction pieces cs with
  | case1 => rfl
  | case2 c cs parameters rest hcode _ ih =>
    have hwhole := code?_append h (c :: cs)
    rw [hcode, Option.map_some] at hwhole
    rw [pieces_of_code hwhole, ih, List.cons_append]
  | case3 c cs hcode ih =>
    have hwhole : code? (c :: (cs ++ ys)) = none := by
      rw [← List.cons_append, code?_append h, hcode, Option.map_none]
    rw [List.cons_append, pieces_of_not_code hwhole, ih, List.cons_append]

theorem pieces_unescaped (h : escape ∉ xs) (rest : List Char) :
    pieces (xs ++ rest) = xs.map .shown ++ pieces rest := by
  induction xs with
  | nil => rfl
  | cons c xs ih =>
    rw [List.mem_cons, not_or] at h
    rw [List.cons_append, pieces_of_not_code (code?_of_ne_escape (Ne.symm h.1)), ih h.2]
    rfl

def shownIn (cs : List Char) : List Char := (pieces cs).filterMap Piece.char?

theorem shownIn_append (h : 'm' ∉ ys) (cs : List Char) :
    shownIn (cs ++ ys) = shownIn cs ++ shownIn ys := by
  rw [shownIn, pieces_append h, List.filterMap_append]
  rfl

theorem shownIn_of_code (h : code? cs = some (parameters, rest)) : shownIn cs = shownIn rest := by
  rw [shownIn, pieces_of_code h, List.filterMap_cons_none rfl]
  rfl

def codesIn (cs : List Char) : List (List Char) := (pieces cs).filterMap Piece.code?

def reset : List Char := ['0']

/-- Every code that changes the colour has a reset after it. -/
def Closed : List (List Char) → Prop
  | [] => True
  | code :: codes => (code ≠ reset → reset ∈ codes) ∧ Closed codes

theorem Closed.append {codes codes' : List (List Char)} (h : Closed codes) (h' : Closed codes') :
    Closed (codes ++ codes') := by
  induction codes with
  | nil => exact h'
  | cons code codes ih =>
    obtain ⟨hcode, hcodes⟩ := h
    exact ⟨fun hne => List.mem_append_left _ (hcode hne), ih hcodes⟩

theorem not_closed_concat {code : List Char} (h : code ≠ reset) (codes : List (List Char)) :
    ¬ Closed (codes ++ [code]) := by
  induction codes with
  | nil => exact fun hclosed => List.not_mem_nil (hclosed.1 h)
  | cons first codes ih => exact fun hclosed => ih hclosed.2

theorem length_shownIn_le (cs : List Char) : (shownIn cs).length ≤ cs.length := by
  unfold shownIn
  fun_induction pieces cs with
  | case1 => exact Nat.le_refl 0
  | case2 c cs parameters rest hcode _ ih =>
    have hlt := length_lt_of_code? hcode
    rw [List.filterMap_cons_none rfl]
    omega
  | case3 c cs hcode ih =>
    have hshown : (Piece.shown c).char? = some c := rfl
    rw [List.filterMap_cons_some hshown, List.length_cons, List.length_cons]
    omega

/-- A text and the same with colour codes around parts of it. -/
inductive Decorates : String → String → Prop
  | plain {text : String} (h : Unescaped text) : Decorates text text
  | painted {text : String} (h : Unescaped text) (colour : Colour) :
    Decorates text (paint true colour text)
  | append {bare bare' painted painted' : String} (h : Decorates bare painted)
    (h' : Decorates bare' painted') : Decorates (bare ++ bare') (painted ++ painted')

namespace Decorates

def digitsOf (colour : Colour) : List Char := Nat.toDigits 10 colour.code

theorem toList_paint (colour : Colour) (text : String) (rest : List Char) :
    (paint true colour text).toList ++ rest = escape :: '[' :: (digitsOf colour ++
      'm' :: (text.toList ++ escape :: '[' :: (reset ++ 'm' :: rest))) := by
  simp [paint, Nat.repr, digitsOf, escape, reset, String.toList_append]

theorem code?_digitsOf (colour : Colour) (rest : List Char) :
    code? (escape :: '[' :: (digitsOf colour ++ 'm' :: rest)) = some (digitsOf colour, rest) := by
  rw [code?_eq_some_iff]
  refine ⟨rfl, List.all_eq_true.mp ?_⟩
  cases colour <;> rfl

theorem pieces_paint {text : String} (h : Unescaped text) (colour : Colour)
    (rest : List Char) : pieces ((paint true colour text).toList ++ rest) =
      .code (digitsOf colour) :: (text.toList.map .shown ++ .code reset :: pieces rest) := by
  have hreset : code? (escape :: '[' :: (reset ++ 'm' :: rest)) = some (reset, rest) :=
    code?_eq_some_iff.mpr ⟨rfl, List.all_eq_true.mp rfl⟩
  rw [toList_paint, pieces_of_code (code?_digitsOf colour _), pieces_unescaped h,
    pieces_of_code hreset]

theorem filterMap_shown (cs : List Char) :
    (cs.map Piece.shown).filterMap Piece.char? = cs ∧
      (cs.map Piece.shown).filterMap Piece.code? = [] := by
  have hchar : Piece.char? ∘ Piece.shown = some := rfl
  have hcode : Piece.code? ∘ Piece.shown = fun _ => none := rfl
  rw [List.filterMap_map, List.filterMap_map, hchar, hcode]
  simp

theorem exists_pieces {bare painted : String} (h : Decorates bare painted) : ∃ ps : List Piece,
    (∀ rest, pieces (painted.toList ++ rest) = ps ++ pieces rest) ∧
      ps.filterMap Piece.char? = bare.toList ∧ Closed (ps.filterMap Piece.code?) := by
  induction h with
  | @plain text h =>
    obtain ⟨hchars, hcodes⟩ := filterMap_shown text.toList
    exact ⟨_, pieces_unescaped h, hchars, hcodes ▸ trivial⟩
  | @painted text h colour =>
    obtain ⟨hchars, hcodes⟩ := filterMap_shown text.toList
    refine ⟨.code (digitsOf colour) :: (text.toList.map .shown ++ [.code reset]), ?_, ?_, ?_⟩
    · intro rest
      rw [pieces_paint h, List.cons_append, List.append_assoc]
      rfl
    · rw [List.filterMap_cons_none rfl, List.filterMap_append, hchars]
      exact List.append_nil _
    · have hcode : (Piece.code (digitsOf colour)).code? = some (digitsOf colour) := rfl
      rw [List.filterMap_cons_some hcode, List.filterMap_append, hcodes]
      exact ⟨fun _ => List.mem_singleton_self reset, fun hne => absurd rfl hne, trivial⟩
  | append h h' ih ih' =>
    obtain ⟨ps, hpieces, hchars, hcodes⟩ := ih
    obtain ⟨ps', hpieces', hchars', hcodes'⟩ := ih'
    refine ⟨ps ++ ps', fun rest => ?_, ?_, ?_⟩
    · rw [String.toList_append, List.append_assoc, hpieces, hpieces', List.append_assoc]
    · rw [List.filterMap_append, hchars, hchars', String.toList_append]
    · rw [List.filterMap_append]
      exact hcodes.append hcodes'

variable {bare painted : String}

theorem shownIn_append (h : Decorates bare painted) (rest : List Char) :
    shownIn (painted.toList ++ rest) = bare.toList ++ shownIn rest := by
  obtain ⟨ps, hpieces, hchars, -⟩ := h.exists_pieces
  rw [shownIn, hpieces, List.filterMap_append, hchars]
  rfl

theorem shownIn_eq (h : Decorates bare painted) : shownIn painted.toList = bare.toList := by
  have hshown := h.shownIn_append []
  rwa [List.append_nil, shownIn, shownIn, pieces, List.filterMap_nil, List.append_nil] at hshown

theorem closed (h : Decorates bare painted) : Closed (codesIn painted.toList) := by
  obtain ⟨ps, hpieces, -, hcodes⟩ := h.exists_pieces
  have hwhole := hpieces []
  rw [List.append_nil, pieces, List.append_nil] at hwhole
  rwa [codesIn, hwhole]

theorem not_closed_of_cut {text : String} (h : Decorates bare painted) (htext : Unescaped text)
    (colour : Colour) : ¬ Closed (codesIn
      (painted.toList ++ escape :: '[' :: (digitsOf colour ++ 'm' :: text.toList))) := by
  obtain ⟨ps, hpieces, -, -⟩ := h.exists_pieces
  obtain ⟨-, hcodes⟩ := filterMap_shown text.toList
  have htext := pieces_unescaped htext []
  rw [List.append_nil, pieces, List.append_nil] at htext
  have hcode : (Piece.code (digitsOf colour)).code? = some (digitsOf colour) := rfl
  rw [codesIn, hpieces, pieces_of_code (code?_digitsOf colour _), List.filterMap_append,
    List.filterMap_cons_some hcode, htext, hcodes]
  refine not_closed_concat ?_ _
  cases colour <;> decide

theorem unescaped (h : Decorates bare painted) : Unescaped bare := by
  induction h with
  | plain h => exact h
  | painted h colour => exact h
  | append h h' ih ih' => exact unescaped_append.mpr ⟨ih, ih'⟩

theorem length_le (h : Decorates bare painted) : bare.length ≤ painted.length := by
  have hle := length_shownIn_le painted.toList
  rwa [h.shownIn_eq, String.length_toList, String.length_toList] at hle

end Decorates

end EditorSync.Console
