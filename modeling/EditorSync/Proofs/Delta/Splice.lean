import EditorSync.Proofs.Delta.Apply
import EditorSync.Proofs.Procedure
import EditorSync.Proofs.Text.Cuts
import EditorSync.Proofs.WorkingCopy.Transitions

namespace EditorSync.Delta

open Procedure (bind_eq_ok_iff)
open Text (Encoding encode decode?)

variable {enc : Encoding} {content new : String} {delta : Delta}

/-- What a text must have room for. The end of a range is a word of 64 bits, like every offset. -/
def Fits (enc : Encoding) (content : String) : Delta → Prop
  | insert offset text =>
    text ≠ "" ∧ offset ≤ (enc.units content).length ∧ ¬ enc.Splits content offset
  | remove offset length =>
    0 < length ∧ offset + length < offsetLimit ∧ offset + length ≤ (enc.units content).length ∧
      ¬ enc.Splits content offset ∧ ¬ enc.Splits content (offset + length)
  | replaceAll _ => True

def splice (enc : Encoding) (units : List enc.CodeUnit) : Delta → List enc.CodeUnit
  | insert offset text => units.take offset ++ enc.units text ++ units.drop offset
  | remove offset length => units.take offset ++ units.drop (offset + length)
  | replaceAll text => enc.units text

def inBytes? (enc : Encoding) (content : String) : Delta → Option Delta
  | insert offset text => (enc.byteIndex? content offset).map (insert · text)
  | remove offset length => do
    let first ← enc.byteIndex? content offset
    let last ← enc.byteIndex? content (offset + length)
    return remove first (last - first)
  | replaceAll text => some (replaceAll text)

theorem cut_eq_ok_iff {offset : Nat} {before after : List Char} :
    cut enc content.toList offset = .ok (before, after) ↔
      enc.cut? content.toList offset = some (before, after) := by
  refine ⟨fun h => ?_, cut_eq_ok⟩
  unfold cut at h
  split at h
  · rename_i hcut
    rw [hcut, Except.ok.inj h]
  · split at h <;> cases h

/-- The ways in which a delta changes a text. -/
inductive Changes (enc : Encoding) (content : String) : Delta → String → Prop
  | insert {offset : Nat} {text : String} {before after : List Char} (htext : text ≠ "")
    (hcut : enc.cut? content.toList offset = some (before, after)) :
    Changes enc content (.insert offset text) (String.ofList (before ++ text.toList ++ after))
  | remove {offset length : Nat} {before middle after : List Char} (hlength : 0 < length)
    (hlimit : offset + length < offsetLimit)
    (hcut : enc.cut? content.toList offset = some (before, middle ++ after))
    (hspan : enc.span middle = length) :
    Changes enc content (.remove offset length) (String.ofList (before ++ after))
  | replaceAll (text : String) : Changes enc content (.replaceAll text) text

theorem apply_eq_ok_of_changes (h : Changes enc content delta new) :
    delta.apply content enc = .ok new := by
  cases h with
  | insert htext hcut => exact apply_insert hcut htext
  | remove hlength hlimit hcut hspan =>
    exact apply_remove hcut hspan (Nat.pos_iff_ne_zero.mp hlength) hlimit
  | replaceAll text => rfl

theorem exists_middle {offset length : Nat} {before rest upTo after : List Char}
    (hfirst : enc.cut? content.toList offset = some (before, rest))
    (hlast : enc.cut? content.toList (offset + length) = some (upTo, after)) :
    ∃ middle, rest = middle ++ after ∧ enc.span middle = length := by
  obtain ⟨hsplit, hbefore⟩ := (enc.cut?_eq_some_iff _ _ _ _).mp hfirst
  obtain ⟨hsplit', hupTo⟩ := (enc.cut?_eq_some_iff _ _ _ _).mp hlast
  rw [hsplit] at hsplit'
  rcases List.append_eq_append_iff.mp hsplit' with ⟨middle, rfl, hrest⟩ | ⟨more, rfl, hmore⟩
  · rw [Encoding.span_append] at hupTo
    exact ⟨middle, hrest, by omega⟩
  · rw [Encoding.span_append] at hbefore
    cases more with
    | nil => exact ⟨[], hmore.symm, by rw [Encoding.span_nil] at hbefore ⊢; omega⟩
    | cons c more =>
      have := enc.width_pos c
      rw [Encoding.span_cons] at hbefore
      omega

theorem changes_of_apply (h : delta.apply content enc = .ok new) :
    Changes enc content delta new := by
  have hcheck := check_of_apply delta h
  unfold apply at h
  obtain ⟨u, -, h⟩ := bind_eq_ok_iff.mp h
  cases delta with
  | insert offset text =>
    have htext : text ≠ "" := by
      rintro rfl
      cases hcheck
    obtain ⟨parts, hcut, hnew⟩ := bind_eq_ok_iff.mp h
    cases hnew
    exact .insert htext (cut_eq_ok_iff.mp hcut)
  | remove offset length =>
    have hlength : length ≠ 0 := by
      rintro rfl
      cases hcheck
    by_cases hlimit : offsetLimit ≤ offset + length
    · simp only [if_pos hlimit] at h
      cases h
    · simp only [if_neg hlimit] at h
      obtain ⟨first, hfirst, h⟩ := bind_eq_ok_iff.mp h
      obtain ⟨last, hlast, hnew⟩ := bind_eq_ok_iff.mp h
      cases hnew
      have hcut := cut_eq_ok_iff.mp hfirst
      obtain ⟨middle, hrest, hspan⟩ := exists_middle hcut (cut_eq_ok_iff.mp hlast)
      rw [hrest] at hcut
      exact .remove (Nat.pos_of_ne_zero hlength) (Nat.lt_of_not_le hlimit) hcut hspan
  | replaceAll text =>
    cases h
    exact .replaceAll _

theorem fits_of_changes (h : Changes enc content delta new) : delta.Fits enc content := by
  cases h with
  | insert htext hcut => exact ⟨htext, (enc.exists_cut?_iff _ _).mp ⟨_, _, hcut⟩⟩
  | remove hlength hlimit hcut hspan =>
    have hfirst := (enc.exists_cut?_iff _ _).mp ⟨_, _, hcut⟩
    have hlast := (enc.exists_cut?_iff _ _).mp ⟨_, _, cut?_add hcut hspan⟩
    exact ⟨hlength, hlimit, hlast.1, hfirst.2, hlast.2⟩
  | replaceAll text => trivial

theorem changes_of_fits (h : delta.Fits enc content) : ∃ new, Changes enc content delta new := by
  cases delta with
  | insert offset text =>
    obtain ⟨before, after, hcut⟩ := (enc.exists_cut?_iff content offset).mpr h.2
    exact ⟨_, .insert h.1 hcut⟩
  | remove offset length =>
    obtain ⟨hlength, hlimit, hend, hfirst, hlast⟩ := h
    obtain ⟨before, rest, hcut⟩ := (enc.exists_cut?_iff content offset).mpr ⟨by omega, hfirst⟩
    obtain ⟨upTo, after, hcut'⟩ := (enc.exists_cut?_iff content (offset + length)).mpr ⟨hend, hlast⟩
    obtain ⟨middle, rfl, hspan⟩ := exists_middle hcut hcut'
    exact ⟨_, .remove hlength hlimit hcut hspan⟩
  | replaceAll text => exact ⟨text, .replaceAll text⟩

section Units

variable {before middle after : List Char}

theorem units_insert (enc : Encoding) (text : String) (hs : content.toList = before ++ after) :
    enc.units (String.ofList (before ++ text.toList ++ after)) =
      (insert (enc.span before) text).splice enc (enc.units content) := by
  simp only [splice, Encoding.take_units hs, Encoding.drop_units hs, String.ofList_append,
    Encoding.units_append, String.ofList_toList]

theorem units_remove (enc : Encoding) (hs : content.toList = before ++ (middle ++ after)) :
    enc.units (String.ofList (before ++ after)) =
      (remove (enc.span before) (enc.span middle)).splice enc (enc.units content) := by
  have hs' : content.toList = (before ++ middle) ++ after := by rw [hs, List.append_assoc]
  rw [splice, ← Encoding.span_append, Encoding.take_units hs, Encoding.drop_units hs',
    String.ofList_append, Encoding.units_append]

end Units

theorem units_of_changes (h : Changes enc content delta new) :
    enc.units new = delta.splice enc (enc.units content) := by
  cases h with
  | insert htext hcut =>
    obtain ⟨hs, rfl⟩ := (enc.cut?_eq_some_iff _ _ _ _).mp hcut
    exact units_insert enc _ hs
  | remove hlength hlimit hcut hspan =>
    obtain ⟨hs, rfl⟩ := (enc.cut?_eq_some_iff _ _ _ _).mp hcut
    subst hspan
    exact units_remove enc hs
  | replaceAll text => rfl

theorem byteIndex?_of_cut {offset : Nat} {before after : List Char}
    (hcut : enc.cut? content.toList offset = some (before, after)) :
    enc.byteIndex? content offset = some (Encoding.utf8.span before) := by
  rw [Encoding.byteIndex?_eq, hcut]
  rfl

theorem bytes_of_changes (h : Changes enc content delta new) :
    ∃ bytewise, delta.inBytes? enc content = some bytewise ∧
      encode new = bytewise.splice .utf8 (encode content) := by
  cases h with
  | insert htext hcut =>
    have hs := ((enc.cut?_eq_some_iff _ _ _ _).mp hcut).1
    exact ⟨_, by rw [inBytes?, byteIndex?_of_cut hcut]; rfl, units_insert .utf8 _ hs⟩
  | @remove offset length before middle after hlength hlimit hcut hspan =>
    have hs := ((enc.cut?_eq_some_iff _ _ _ _).mp hcut).1
    refine ⟨.remove (Encoding.utf8.span before) (Encoding.utf8.span middle), ?_,
      units_remove .utf8 hs⟩
    simp only [inBytes?, byteIndex?_of_cut hcut, byteIndex?_of_cut (cut?_add hcut hspan),
      Encoding.span_append, Option.bind_eq_bind, Option.bind_some, Option.pure_def,
      Nat.add_sub_cancel_left]
  | replaceAll text => exact ⟨_, rfl, rfl⟩

theorem content_deliver_of_not_fits {w : WorkingCopy} (h : ¬ delta.Fits enc w.content)
    (seq : Option Nat) (maxPending : Nat) :
    (w.deliver enc maxPending delta seq).content = w.content := by
  rcases WorkingCopy.deliver_cases seq with ⟨hself, -⟩ | ⟨applied, htakes⟩
  · rw [hself]
  · generalize w.deliver enc maxPending delta seq = w' at htakes
    cases htakes with
    | unnumbered fits => exact absurd (fits_of_changes (changes_of_apply fits)) h
    | held => rfl
    | advanced due fits => exact absurd (fits_of_changes (changes_of_apply fits)) h

/-- A delta applies exactly if it fits, and then it splices the units of the text, and the bytes
at the same places to bytes of a text. One that does not fit changes nothing. -/
theorem apply_splices_units (delta : Delta) (content : String) (enc : Encoding) :
    ((∃ new, delta.apply content enc = .ok new) ↔ delta.Fits enc content) ∧
      (∀ new, delta.apply content enc = .ok new ↔
        delta.Fits enc content ∧ enc.units new = delta.splice enc (enc.units content)) ∧
      (∀ new, delta.apply content enc = .ok new →
        ∃ bytewise, delta.inBytes? enc content = some bytewise ∧
          decode? (bytewise.splice .utf8 (encode content)) = some new) ∧
      (¬ delta.Fits enc content → ∀ w : WorkingCopy, w.content = content →
        ∀ seq maxPending, (w.deliver enc maxPending delta seq).content = content) := by
  refine ⟨⟨?_, fun hfits => ?_⟩, fun new => ⟨fun h => ?_, ?_⟩, fun new h => ?_, ?_⟩
  · rintro ⟨new, h⟩
    exact fits_of_changes (changes_of_apply h)
  · obtain ⟨new, hnew⟩ := changes_of_fits hfits
    exact ⟨new, apply_eq_ok_of_changes hnew⟩
  · have hnew := changes_of_apply h
    exact ⟨fits_of_changes hnew, units_of_changes hnew⟩
  · rintro ⟨hfits, hunits⟩
    obtain ⟨found, hfound⟩ := changes_of_fits hfits
    obtain rfl : found = new := Encoding.units_injective ((units_of_changes hfound).trans hunits.symm)
    exact apply_eq_ok_of_changes hfound
  · obtain ⟨bytewise, hbytewise, hbytes⟩ := bytes_of_changes (changes_of_apply h)
    exact ⟨bytewise, hbytewise, by rw [← hbytes, Text.decode?_encode]⟩
  · rintro hfits w rfl seq maxPending
    exact content_deliver_of_not_fits hfits seq maxPending

end EditorSync.Delta
