import EditorSync.Proofs.Delta.Replay
import EditorSync.Proofs.Procedure
import EditorSync.Proofs.Table
import EditorSync.WorkingCopy.Basic

namespace EditorSync.WorkingCopy

open Procedure (bind_eq_ok_iff)
open Text (Encoding)

variable {enc : Encoding} {maxPending : Nat} {w w' : WorkingCopy} {delta : Delta}

def takeTurn (w : WorkingCopy) (last : Nat) (delta : Delta) (enc : Encoding) : WorkingCopy :=
  { w with
    content := (delta.apply w.content enc).toOption.getD w.content
    lastApplied := some (last + 1)
    pending := w.pending.erase (last + 1) }

theorem drainWith_succ (fuel last : Nat) (hlast : w.lastApplied = some last)
    (hnext : w.pending.get? (last + 1) = some delta) :
    (drainWith enc (fuel + 1) w).1 = (drainWith enc fuel (w.takeTurn last delta enc)).1 := by
  rw [drainWith]
  simp only [hlast, hnext, patch, takeTurn]
  cases delta.apply w.content enc with
  | ok content => rfl
  | error e => rfl

theorem drainWith_eq_self (fuel : Nat)
    (h : ∀ last, w.lastApplied = some last → w.pending.get? (last + 1) = none) :
    drainWith enc fuel w = (w, []) := by
  cases fuel with
  | zero => rfl
  | succ fuel =>
    rw [drainWith]
    cases hlast : w.lastApplied with
    | none => rfl
    | some last => simp only [h last hlast]

theorem drainWith_induction (P : WorkingCopy → Prop)
    (turn : ∀ w last delta, P w → w.lastApplied = some last →
      w.pending.get? (last + 1) = some delta → P (w.takeTurn last delta enc))
    (fuel : Nat) (w : WorkingCopy) (h : P w) : P (drainWith enc fuel w).1 := by
  induction fuel generalizing w with
  | zero => exact h
  | succ fuel ih =>
    cases hlast : w.lastApplied with
    | none => simpa only [drainWith, hlast] using h
    | some last =>
      cases hnext : w.pending.get? (last + 1) with
      | none => simpa only [drainWith, hlast, hnext] using h
      | some delta =>
        rw [drainWith_succ fuel last hlast hnext]
        exact ih _ (turn w last delta h hlast hnext)

theorem drainWith_settled (fuel : Nat) (w : WorkingCopy) (hfuel : w.pending.size ≤ fuel)
    (last : Nat) (h : (drainWith enc fuel w).1.lastApplied = some last) :
    (drainWith enc fuel w).1.pending.get? (last + 1) = none := by
  induction fuel generalizing w with
  | zero =>
    have hnone : ∀ k, w.pending.get? k = none := by
      intro k
      have hk : k ∉ w.pending.keys := by
        have hlen : w.pending.entries.length = 0 := Nat.le_zero.mp hfuel
        simp [Table.keys, List.length_eq_zero_iff.mp hlen]
      simpa [Table.mem_keys_iff] using hk
    exact hnone (last + 1)
  | succ fuel ih =>
    cases hl : w.lastApplied with
    | none =>
      simp only [drainWith, hl] at h
      cases h
    | some l =>
      cases hnext : w.pending.get? (l + 1) with
      | none =>
        simp only [drainWith, hl, hnext, Option.some.injEq] at h ⊢
        rw [← h, hnext]
      | some delta =>
        rw [drainWith_succ fuel l hl hnext] at h ⊢
        apply ih _ _ h
        have hlt := w.pending.size_erase_lt (l + 1) delta hnext
        simp only [takeTurn]
        omega

def jumpTo (w : WorkingCopy) (seq : Nat) (content : String) : WorkingCopy :=
  { w with
    content := content
    lastApplied := some seq
    pending := w.pending.filter fun n _ => seq < n }

inductive Takes (w : WorkingCopy) (delta : Delta) (enc : Encoding) (maxPending : Nat) :
    Option Nat → WorkingCopy → List Applied → Prop
  | unnumbered {content : String} (fits : delta.apply w.content enc = .ok content) :
    Takes w delta enc maxPending none { w with content := content } [⟨delta.kind, none, content⟩]
  | held {seq last : Nat} (baseline : w.lastApplied = some last) (early : last + 1 < seq)
    (incremental : delta.kind ≠ .replaceAll) (room : w.pending.size < maxPending) :
    Takes w delta enc maxPending (some seq) { w with pending := w.pending.insert seq delta } []
  | advanced {seq : Nat} {content : String}
    (due : ∀ last, w.lastApplied = some last →
      last < seq ∧ (delta.kind ≠ .replaceAll → seq = last + 1))
    (fits : delta.apply w.content enc = .ok content) :
    Takes w delta enc maxPending (some seq) ((w.jumpTo seq content).drain enc).1
      (⟨delta.kind, some seq, content⟩ :: ((w.jumpTo seq content).drain enc).2)

theorem patch_eq_ok_iff : w.patch delta enc = .ok w' ↔
    ∃ content, delta.apply w.content enc = .ok content ∧ w' = { w with content := content } := by
  unfold patch
  cases delta.apply w.content enc with
  | error e => simp
  | ok content => simp [eq_comm]

theorem advance_eq_ok_iff (seq : Nat) (applied : List Applied) :
    w.advance delta seq enc = .ok (w', applied) ↔
      ∃ content, delta.apply w.content enc = .ok content ∧
        w' = ((w.jumpTo seq content).drain enc).1 ∧
        applied = ⟨delta.kind, some seq, content⟩ :: ((w.jumpTo seq content).drain enc).2 := by
  simp only [advance, bind_eq_ok_iff, patch_eq_ok_iff]
  constructor
  · rintro ⟨v, ⟨content, hfits, rfl⟩, hnew⟩
    cases hnew
    exact ⟨content, hfits, rfl, rfl⟩
  · rintro ⟨content, hfits, rfl, rfl⟩
    exact ⟨_, ⟨content, hfits, rfl⟩, rfl⟩

theorem takes_of_apply (seq : Option Nat) (applied : List Applied)
    (h : w.apply delta seq enc maxPending = .ok (w', applied)) :
    Takes w delta enc maxPending seq w' applied := by
  unfold apply at h
  split at h
  · obtain ⟨v, hpatch, hnew⟩ := bind_eq_ok_iff.mp h
    obtain ⟨content, hfits, rfl⟩ := patch_eq_ok_iff.mp hpatch
    cases hnew
    exact .unnumbered hfits
  · rename_i hlast
    obtain ⟨content, hd, rfl, rfl⟩ := (advance_eq_ok_iff _ _).mp h
    exact .advanced (fun last hl => by rw [hlast] at hl; cases hl) hd
  · rename_i seq last hlast
    split at h
    · cases h
    · rename_i hstale
      split at h
      · rename_i hgap
        split at h
        · cases h
        · rename_i hroom
          cases h
          exact .held hlast hgap.1 hgap.2 (Nat.lt_of_not_le hroom)
      · rename_i hgap
        obtain ⟨content, hd, rfl, rfl⟩ := (advance_eq_ok_iff _ _).mp h
        refine .advanced (fun l hl => ?_) hd
        rw [hlast, Option.some.injEq] at hl
        subst hl
        refine ⟨by omega, fun hk => ?_⟩
        have hle : ¬ last + 1 < seq := fun hlt => hgap ⟨hlt, hk⟩
        omega

theorem apply_of_takes (seq : Option Nat) (applied : List Applied)
    (h : Takes w delta enc maxPending seq w' applied) :
    w.apply delta seq enc maxPending = .ok (w', applied) := by
  cases h with
  | unnumbered fits =>
    simp only [apply, patch, fits]
    rfl
  | @held seq last baseline early incremental room =>
    have hstale : ¬ seq ≤ last := by omega
    simp only [apply, baseline, if_neg hstale, if_pos (And.intro early incremental),
      if_neg (Nat.not_le_of_lt room)]
  | @advanced seq content due fits =>
    have hadv : w.advance delta seq enc = .ok (((w.jumpTo seq content).drain enc).1,
        ⟨delta.kind, some seq, content⟩ :: ((w.jumpTo seq content).drain enc).2) :=
      (advance_eq_ok_iff seq _).mpr ⟨content, fits, rfl, rfl⟩
    cases hlast : w.lastApplied with
    | none => simpa only [apply, hlast] using hadv
    | some last =>
      obtain ⟨hlt, hnext⟩ := due last hlast
      have hgap : ¬ (last + 1 < seq ∧ delta.kind ≠ .replaceAll) := by
        rintro ⟨hearly, hk⟩
        have := hnext hk
        omega
      simpa only [apply, hlast, if_neg (Nat.not_le_of_lt hlt), if_neg hgap] using hadv

theorem apply_key (seq : Option Nat) (applied : List Applied)
    (h : w.apply delta seq enc maxPending = .ok (w', applied)) : w'.key = w.key := by
  cases takes_of_apply seq applied h with
  | unnumbered | held => rfl
  | @advanced seq content =>
    exact drainWith_induction (fun v => v.key = w.key) (fun _ _ _ hv _ _ => hv) _ _ rfl

theorem apply_discarded (seq : Option Nat) (applied : List Applied)
    (h : w.apply delta seq enc maxPending = .ok (w', applied)) :
    w'.discarded = w.discarded := by
  cases takes_of_apply seq applied h with
  | unnumbered | held => rfl
  | @advanced seq content =>
    exact drainWith_induction (fun v => v.discarded = w.discarded) (fun _ _ _ hv _ _ => hv) _ _ rfl

theorem apply_content_of_isEmpty (seq : Option Nat) (applied : List Applied)
    (h : w.apply delta seq enc maxPending = .ok (w', applied)) (hempty : applied.isEmpty = true) :
    w'.content = w.content := by
  cases takes_of_apply seq applied h with
  | unnumbered | advanced => cases hempty
  | held => rfl

def deliver (w : WorkingCopy) (enc : Encoding) (maxPending : Nat) (delta : Delta)
    (seq : Option Nat) : WorkingCopy :=
  match w.apply delta seq enc maxPending with
  | .ok (w, _) => w
  | .error _ => w

theorem deliver_of_takes {seq : Option Nat} {applied : List Applied}
    (h : Takes w delta enc maxPending seq w' applied) :
    w.deliver enc maxPending delta seq = w' := by
  rw [deliver, apply_of_takes seq applied h]

theorem deliver_cases (seq : Option Nat) :
    w.deliver enc maxPending delta seq = w ∧
        (∀ w' applied, ¬ Takes w delta enc maxPending seq w' applied) ∨
      ∃ applied, Takes w delta enc maxPending seq (w.deliver enc maxPending delta seq) applied := by
  cases happly : w.apply delta seq enc maxPending with
  | error e =>
    refine .inl ⟨by rw [deliver, happly], fun w' applied ht => ?_⟩
    rw [apply_of_takes seq applied ht] at happly
    cases happly
  | ok r =>
    have ht := takes_of_apply seq r.2 happly
    exact .inr ⟨r.2, deliver_of_takes ht ▸ ht⟩

theorem drain_jumpTo {seq : Nat} {content : String}
    (hwaiting : ∀ s, (w.pending.get? s).isSome → s < seq) :
    (w.jumpTo seq content).drain enc =
      ({ w with content := content, lastApplied := some seq, pending := .empty }, []) := by
  have hnone : ∀ s, (w.jumpTo seq content).pending.get? s = none := by
    intro s
    cases hs : w.pending.get? s with
    | none => simp [jumpTo, hs]
    | some d =>
      have hlt := hwaiting s (by rw [hs, Option.isSome_some])
      simp [jumpTo, hs, Option.filter, Nat.not_lt_of_le (Nat.le_of_lt hlt)]
  have hempty : w.pending.filter (fun n _ => decide (seq < n)) = .empty :=
    Table.eq_empty_of_get?_eq_none _ hnone
  rw [drain, drainWith_eq_self _ fun last _ => hnone (last + 1)]
  simp only [jumpTo, hempty]

theorem deliver_next {seq : Nat} {content : String}
    (hwaiting : ∀ s, (w.pending.get? s).isSome → s < seq)
    (hdue : ∀ last, w.lastApplied = some last →
      last < seq ∧ (delta.kind ≠ .replaceAll → seq = last + 1))
    (hfits : delta.apply w.content enc = .ok content) :
    w.deliver enc maxPending delta (some seq) =
      { w with content := content, lastApplied := some seq, pending := .empty } := by
  rw [deliver_of_takes (.advanced hdue hfits), drain_jumpTo hwaiting]

theorem deliver_le {seq : Nat} (hbaseline : ∀ last, w.lastApplied = some last → last < seq)
    (hwaiting : ∀ s, (w.pending.get? s).isSome → s < seq) :
    (∀ last, (w.deliver enc maxPending delta (some seq)).lastApplied = some last → last ≤ seq) ∧
      ∀ s, ((w.deliver enc maxPending delta (some seq)).pending.get? s).isSome → s ≤ seq := by
  rcases deliver_cases (some seq) with ⟨hself, -⟩ | ⟨applied, htakes⟩
  · rw [hself]
    exact ⟨fun last h => Nat.le_of_lt (hbaseline last h), fun s h => Nat.le_of_lt (hwaiting s h)⟩
  · generalize w.deliver enc maxPending delta (some seq) = w' at htakes
    cases htakes with
    | held baseline early incremental room =>
      refine ⟨fun last h => Nat.le_of_lt (hbaseline last h), fun s h => ?_⟩
      rw [Table.get?_insert] at h
      split at h
      · omega
      · exact Nat.le_of_lt (hwaiting s h)
    | advanced due fits =>
      rw [drain_jumpTo hwaiting]
      refine ⟨fun last h => ?_, fun s h => ?_⟩
      · cases h
        exact Nat.le_refl _
      · cases h

end EditorSync.WorkingCopy
