namespace EditorSync.Text

inductive Encoding where
  | utf8
  | utf16
  | utf32
  deriving DecidableEq, Repr, Inhabited

namespace Encoding

def width : Encoding → Char → Nat
  | utf8, c => c.utf8Size
  | utf16, c => if c.val ≤ 0xFFFF then 1 else 2
  | utf32, _ => 1

def span (enc : Encoding) : List Char → Nat
  | [] => 0
  | c :: cs => enc.width c + enc.span cs

def len (enc : Encoding) (text : String) : Nat := enc.span text.toList

/-- Cuts a text before the character that starts at `offset`. There is no cut past the end
or inside a character. -/
def cut? (enc : Encoding) : List Char → Nat → Option (List Char × List Char)
  | cs, 0 => some ([], cs)
  | [], _ + 1 => none
  | c :: cs, n + 1 =>
    if enc.width c ≤ n + 1 then
      (enc.cut? cs (n + 1 - enc.width c)).map fun (before, after) => (c :: before, after)
    else none

def charIndices : List Char → Nat → List (Nat × Char)
  | [], _ => []
  | c :: cs, start => (start, c) :: charIndices cs (start + c.utf8Size)

def byteAt? (offset stop : Nat) : List (Nat × Char) → Nat → Option Nat
  | [], units => if units = offset then some stop else none
  | (byte, c) :: rest, units =>
    if units = offset then some byte
    else if offset < units then none
    else byteAt? offset stop rest (units + utf16.width c)

def byteIndex? (enc : Encoding) (text : String) (offset : Nat) : Option Nat :=
  match enc with
  | utf8 => if String.Pos.Raw.isValid text ⟨offset⟩ then some offset else none
  | utf16 => byteAt? offset (utf8.len text) (charIndices text.toList 0) 0
  | utf32 =>
    if offset = 0 then some 0
    else
      match (charIndices text.toList 0)[offset]? with
      | some (byte, _) => some byte
      | none => if utf32.len text = offset then some (utf8.len text) else none

def name : Encoding → String
  | utf8 => "utf-8"
  | utf16 => "utf-16"
  | utf32 => "utf-32"

def ofWireName? : String → Option Encoding
  | "utf-8" => some utf8
  | "utf-16" => some utf16
  | "utf-32" => some utf32
  | _ => none

def ofName? (s : String) : Option Encoding :=
  match s.map Char.toLower with
  | "utf-8" | "utf8" => some utf8
  | "utf-16" | "utf16" => some utf16
  | "utf-32" | "utf32" => some utf32
  | _ => none

theorem width_pos (enc : Encoding) (c : Char) : 0 < enc.width c := by
  cases enc with
  | utf8 => exact c.utf8Size_pos
  | utf16 => simp only [width]; split <;> omega
  | utf32 => exact Nat.one_pos

@[simp] theorem span_nil (enc : Encoding) : enc.span [] = 0 := rfl

@[simp] theorem span_cons (enc : Encoding) (c : Char) (cs : List Char) :
    enc.span (c :: cs) = enc.width c + enc.span cs := rfl

@[simp] theorem span_append (enc : Encoding) (xs ys : List Char) :
    enc.span (xs ++ ys) = enc.span xs + enc.span ys := by
  induction xs with
  | nil => simp
  | cons c cs ih => simp [ih, Nat.add_assoc]

theorem cut?_eq_some_iff (enc : Encoding) (cs : List Char) (n : Nat) (before after : List Char) :
    enc.cut? cs n = some (before, after) ↔ cs = before ++ after ∧ enc.span before = n := by
  fun_induction enc.cut? cs n generalizing before with
  | case1 cs =>
    constructor
    · rintro ⟨⟩
      simp
    · rintro ⟨rfl, h⟩
      cases before with
      | nil => rfl
      | cons c before =>
        have := enc.width_pos c
        simp only [span_cons] at h
        omega
  | case2 n =>
    simp only [reduceCtorEq, false_iff, not_and]
    intro h
    obtain ⟨rfl, rfl⟩ := List.append_eq_nil_iff.mp h.symm
    simp
  | case3 c cs n hle ih =>
    simp only [Option.map_eq_some_iff, Prod.exists, Prod.mk.injEq]
    constructor
    · rintro ⟨b, a, hcut, rfl, rfl⟩
      obtain ⟨rfl, hspan⟩ := (ih b).mp hcut
      exact ⟨rfl, by simp only [span_cons]; omega⟩
    · rintro ⟨happ, hspan⟩
      cases before with
      | nil => simp at hspan
      | cons d b =>
        obtain ⟨rfl, rfl⟩ := List.cons.inj happ
        exact ⟨b, after, (ih b).mpr ⟨rfl, by simp only [span_cons] at hspan; omega⟩, rfl, rfl⟩
  | case4 c cs n hgt =>
    simp only [reduceCtorEq, false_iff, not_and]
    intro happ
    cases before with
    | nil => simp
    | cons d b =>
      obtain ⟨rfl, rfl⟩ := List.cons.inj happ
      simp only [span_cons]
      omega

end Encoding
end EditorSync.Text
