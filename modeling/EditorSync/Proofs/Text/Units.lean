import EditorSync.Proofs.Text
import EditorSync.Text.Encoding

namespace EditorSync.Text

def codeUnits (c : Char) : List UInt16 :=
  if c.toNat ≤ 0xFFFF then [.ofNat c.toNat]
  else [.ofNat (0xD800 + (c.toNat - 0x10000) / 0x400), .ofNat (0xDC00 + (c.toNat - 0x10000) % 0x400)]

theorem encode_injective {s t : String} (h : encode s = encode t) : s = t := by
  apply Option.some.inj
  rw [← decode?_encode s, h, decode?_encode]

theorem codeUnits_append_inj {c d : Char} {xs ys : List UInt16}
    (h : codeUnits c ++ xs = codeUnits d ++ ys) : c = d ∧ xs = ys := by
  have hscalar (c : Char) : c.toNat < 0xD800 ∨ 0xDFFF < c.toNat ∧ c.toNat < 0x110000 := c.valid
  have hc := hscalar c
  have hd := hscalar d
  unfold codeUnits at h
  split at h <;> split at h <;>
    simp only [List.cons_append, List.nil_append, List.cons.injEq, ← UInt16.toNat_inj,
      UInt16.toNat_ofNat', ← Char.toNat_inj] at h ⊢
  · exact ⟨by omega, h.2⟩
  -- A single unit is no surrogate.
  · omega
  · omega
  · exact ⟨by omega, h.2.2⟩

theorem flatMap_codeUnits_injective {cs ds : List Char}
    (h : cs.flatMap codeUnits = ds.flatMap codeUnits) : cs = ds := by
  have hne (c : Char) (xs : List UInt16) : codeUnits c ++ xs ≠ [] := by
    unfold codeUnits
    split <;> simp
  induction cs generalizing ds with
  | nil =>
    cases ds with
    | nil => rfl
    | cons d ds => exact absurd h.symm (hne d _)
  | cons c cs ih =>
    cases ds with
    | nil => exact absurd h (hne c _)
    | cons d ds =>
      obtain ⟨rfl, hrest⟩ := codeUnits_append_inj h
      rw [ih hrest]

namespace Encoding

def CodeUnit : Encoding → Type
  | utf8 => UInt8
  | utf16 => UInt16
  | utf32 => Char

def charUnits : (enc : Encoding) → Char → List enc.CodeUnit
  | utf8, c => String.utf8EncodeChar c
  | utf16, c => codeUnits c
  | utf32, c => [c]

def units : (enc : Encoding) → String → List enc.CodeUnit
  | utf8, s => encode s
  | utf16, s => s.toList.flatMap codeUnits
  | utf32, s => s.toList

def Splits (enc : Encoding) (s : String) (offset : Nat) : Prop :=
  ∃ before c after, s.toList = before ++ c :: after ∧
    (enc.units (String.ofList before)).length < offset ∧
    offset < (enc.units (String.ofList (before ++ [c]))).length

variable {enc : Encoding}

theorem units_eq_flatMap (enc : Encoding) (s : String) :
    enc.units s = s.toList.flatMap enc.charUnits := by
  cases enc with
  | utf8 => exact encode_eq_flatMap s
  | utf16 => rfl
  | utf32 => exact (List.flatMap_singleton' _).symm

@[simp] theorem length_charUnits (enc : Encoding) (c : Char) :
    (enc.charUnits c).length = enc.width c := by
  cases enc with
  | utf8 => exact String.length_utf8EncodeChar c
  | utf16 =>
    have hle : c.val ≤ 0xFFFF ↔ c.toNat ≤ 0xFFFF := UInt32.le_iff_toNat_le
    simp only [charUnits, codeUnits, width, hle]
    split <;> rfl
  | utf32 => rfl

theorem length_units (enc : Encoding) (s : String) : (enc.units s).length = enc.span s.toList := by
  rw [units_eq_flatMap]
  induction s.toList with
  | nil => rfl
  | cons c cs ih => rw [List.flatMap_cons, List.length_append, ih, length_charUnits, span_cons]

theorem width_le_utf8Size (enc : Encoding) (c : Char) : enc.width c ≤ c.utf8Size := by
  have hpos := c.utf8Size_pos
  cases enc with
  | utf8 => exact Nat.le_refl _
  | utf16 =>
    rw [width]
    split
    · exact hpos
    · rename_i hlarge
      have hone : c.utf8Size ≠ 1 := fun h =>
        hlarge (UInt32.le_trans (Char.utf8Size_eq_one_iff.mp h) (by decide))
      omega
  | utf32 => exact hpos

theorem length_units_le (enc : Encoding) (s : String) : (enc.units s).length ≤ (encode s).length := by
  have hbytes : (encode s).length = utf8.span s.toList := length_units .utf8 s
  rw [length_units, hbytes]
  induction s.toList with
  | nil => exact Nat.le_refl 0
  | cons c cs ih =>
    rw [span_cons, span_cons]
    exact Nat.add_le_add (enc.width_le_utf8Size c) ih

theorem units_append (enc : Encoding) (s t : String) :
    enc.units (s ++ t) = enc.units s ++ enc.units t := by
  simp only [units_eq_flatMap, String.toList_append, List.flatMap_append]

theorem units_injective {s t : String} (h : enc.units s = enc.units t) : s = t := by
  cases enc with
  | utf8 => exact encode_injective h
  | utf16 => exact String.toList_injective (flatMap_codeUnits_injective h)
  | utf32 => exact String.toList_injective h

theorem splits_iff {s : String} {offset : Nat} :
    enc.Splits s offset ↔ ∃ before c after, s.toList = before ++ c :: after ∧
      enc.span before < offset ∧ offset < enc.span before + enc.width c := by
  simp only [Splits, length_units, String.toList_ofList, span_append, span_cons, span_nil,
    Nat.add_zero]

theorem exists_cut?_of_not_inside (cs : List Char) (n : Nat) (hle : n ≤ enc.span cs)
    (hinside : ¬ ∃ before c after, cs = before ++ c :: after ∧
      enc.span before < n ∧ n < enc.span before + enc.width c) :
    ∃ before after, enc.cut? cs n = some (before, after) := by
  fun_induction enc.cut? cs n with
  | case1 cs => exact ⟨[], cs, rfl⟩
  | case2 n => cases hle
  | case3 c cs n hfits ih =>
    rw [span_cons] at hle
    obtain ⟨before, after, hcut⟩ := ih (by omega) (by
      rintro ⟨b, d, a, hcs, hlow, hhigh⟩
      refine hinside ⟨c :: b, d, a, congrArg (c :: ·) hcs, ?_, ?_⟩
      · rw [span_cons]
        omega
      · rw [span_cons]
        omega)
    exact ⟨c :: before, after, by rw [hcut]; rfl⟩
  | case4 c cs n hwide => exact absurd ⟨[], c, cs, rfl, Nat.succ_pos n, by rw [span_nil]; omega⟩ hinside

theorem exists_cut?_iff (s : String) (offset : Nat) :
    (∃ before after, enc.cut? s.toList offset = some (before, after)) ↔
      offset ≤ (enc.units s).length ∧ ¬ enc.Splits s offset := by
  rw [length_units, splits_iff]
  refine ⟨?_, fun h => exists_cut?_of_not_inside _ _ h.1 h.2⟩
  rintro ⟨before, after, hcut⟩
  obtain ⟨hs, rfl⟩ := (enc.cut?_eq_some_iff _ _ _ _).mp hcut
  refine ⟨by rw [hs, span_append]; omega, ?_⟩
  rintro ⟨b, c, a, hsplit, hlow, hhigh⟩
  rw [hs] at hsplit
  rcases List.append_eq_append_iff.mp hsplit with ⟨more, rfl, -⟩ | ⟨more, rfl, hmore⟩
  · rw [span_append] at hlow
    omega
  · cases more with
    | nil => simp at hlow
    | cons d more =>
      obtain ⟨rfl, -⟩ := List.cons.inj hmore
      rw [span_append, span_cons] at hhigh
      omega

section Cut

variable {s : String} {before after : List Char}

theorem take_units (hs : s.toList = before ++ after) :
    (enc.units s).take (enc.span before) = enc.units (String.ofList before) := by
  have hlength : (enc.units (String.ofList before)).length = enc.span before := by
    rw [length_units, String.toList_ofList]
  rw [← String.ofList_toList (s := s), hs, String.ofList_append, units_append, List.take_left' hlength]

theorem drop_units (hs : s.toList = before ++ after) :
    (enc.units s).drop (enc.span before) = enc.units (String.ofList after) := by
  have hlength : (enc.units (String.ofList before)).length = enc.span before := by
    rw [length_units, String.toList_ofList]
  rw [← String.ofList_toList (s := s), hs, String.ofList_append, units_append, List.drop_left' hlength]

end Cut

end Encoding
end EditorSync.Text
