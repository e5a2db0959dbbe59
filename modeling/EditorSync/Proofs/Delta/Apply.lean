import EditorSync.Delta

namespace EditorSync.Delta

open Text (Encoding)

variable {enc : Encoding} {content result : String} {offset length : Nat} {text : String}
  {before middle after : List Char}

theorem cut_eq_ok (h : enc.cut? content.toList offset = some (before, after)) :
    cut enc content.toList offset = .ok (before, after) := by
  rw [cut, h]

theorem cut?_add (hcut : enc.cut? content.toList offset = some (before, middle ++ after))
    (hspan : enc.span middle = length) :
    enc.cut? content.toList (offset + length) = some (before ++ middle, after) := by
  obtain ⟨hlist, hbefore⟩ := (enc.cut?_eq_some_iff _ _ _ _).mp hcut
  apply (enc.cut?_eq_some_iff _ _ _ _).mpr
  refine ⟨by rw [hlist, List.append_assoc], ?_⟩
  rw [Encoding.span_append, hbefore, hspan]

theorem apply_insert (hcut : enc.cut? content.toList offset = some (before, after))
    (htext : text ≠ "") :
    (insert offset text).apply content enc =
      .ok (String.ofList (before ++ text.toList ++ after)) := by
  simp only [apply, check, if_neg htext, cut_eq_ok hcut]
  rfl

theorem apply_remove (hcut : enc.cut? content.toList offset = some (before, middle ++ after))
    (hspan : enc.span middle = length) (hlength : length ≠ 0)
    (hlimit : offset + length < offsetLimit) :
    (remove offset length).apply content enc = .ok (String.ofList (before ++ after)) := by
  simp only [apply, check, if_neg hlength, if_neg (Nat.not_le_of_lt hlimit), cut_eq_ok hcut,
    cut_eq_ok (cut?_add hcut hspan)]
  rfl

theorem check_of_apply (delta : Delta) (h : delta.apply content enc = .ok result) :
    delta.check = .ok () := by
  cases hcheck : delta.check with
  | ok u => rfl
  | error e =>
    unfold apply at h
    rw [hcheck] at h
    cases h

end EditorSync.Delta
