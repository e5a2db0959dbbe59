import EditorSync.Message.EditorChanges

namespace EditorSync.EditorChanges

open Text (Encoding)

variable {m : EditorChanges} {delta : Delta}

theorem delta?_ofDelta (delta : Delta) (target : ChangeTarget) (enc : Encoding)
    (seq : Option Nat) : (ofDelta delta target enc seq).delta? = some delta := by
  cases delta <;> rfl

theorem toDelta_eq_ok (howns : Path.isProperAncestor m.project m.file = true)
    (hdelta : m.delta? = some delta) (hcheck : delta.check = .ok ()) : m.toDelta = .ok delta := by
  simp only [toDelta, howns, hdelta, hcheck]
  rfl

theorem toDelta_ofDelta (delta : Delta) (target : ChangeTarget) (enc : Encoding)
    (seq : Option Nat) (howns : Path.isProperAncestor target.project target.file = true)
    (hcheck : delta.check = .ok ()) : (ofDelta delta target enc seq).toDelta = .ok delta :=
  toDelta_eq_ok howns (delta?_ofDelta delta target enc seq) hcheck

theorem toDelta_eq_ok_iff : m.toDelta = .ok delta ↔
    Path.isProperAncestor m.project m.file = true ∧ m.delta? = some delta ∧
      delta.check = .ok () := by
  refine ⟨fun h => ?_, fun h => toDelta_eq_ok h.1 h.2.1 h.2.2⟩
  unfold toDelta at h
  cases howns : Path.isProperAncestor m.project m.file with
  | false =>
    rw [howns] at h
    cases h
  | true =>
    cases hdelta : m.delta? with
    | none =>
      rw [howns, hdelta] at h
      cases h
    | some found =>
      cases hcheck : found.check with
      | error e =>
        simp only [howns, hdelta, hcheck] at h
        cases h
      | ok u =>
        simp only [howns, hdelta, hcheck] at h
        cases h
        exact ⟨rfl, rfl, hcheck⟩

def Carries (m : EditorChanges) : Prop :=
  match m.kind with
  | .insert => ∃ text, m.text = some text ∧ text ≠ ""
  | .remove => ∃ length, m.removed = some length ∧ 0 < length
  | .replaceAll => ∃ text, m.text = some text

theorem exists_check_iff :
    (∃ delta, m.delta? = some delta ∧ delta.check = .ok ()) ↔ m.Carries := by
  unfold delta? Carries
  cases m.kind with
  | insert => cases m.text <;> simp [Delta.check]
  | remove => cases m.removed <;> simp [Delta.check, Nat.pos_iff_ne_zero]
  | replaceAll => cases m.text <;> simp [Delta.check]

theorem exists_toDelta_iff : (∃ delta, m.toDelta = .ok delta) ↔
    Path.isProperAncestor m.project m.file = true ∧ m.Carries := by
  rw [← exists_check_iff]
  constructor
  · rintro ⟨delta, hdelta⟩
    obtain ⟨howns, hcarries⟩ := toDelta_eq_ok_iff.mp hdelta
    exact ⟨howns, delta, hcarries⟩
  · rintro ⟨howns, delta, hcarries⟩
    exact ⟨delta, toDelta_eq_ok_iff.mpr ⟨howns, hcarries⟩⟩

end EditorSync.EditorChanges
