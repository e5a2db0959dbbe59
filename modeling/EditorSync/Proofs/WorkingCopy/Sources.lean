import EditorSync.Proofs.WorkingCopy.Gaps

/-! Which delta has brought about each text of a working copy. -/

namespace EditorSync.WorkingCopy

open Text (Encoding)

variable {enc : Encoding} {maxPending last : Nat} {w w' : WorkingCopy} {delta : Delta}
variable {source other : Applied → Delta → Prop} {text : String}

def Sourced (enc : Encoding) (source : Applied → Delta → Prop) : String → List Applied → Prop
  | _, [] => True
  | text, a :: rest =>
    (∃ delta, source a delta ∧ delta.kind = a.kind ∧ delta.apply text enc = .ok a.content) ∧
      Sourced enc source a.content rest

theorem Sourced.mono {applied : List Applied} (h : Sourced enc source text applied)
    (himp : ∀ a ∈ applied, ∀ delta, source a delta → other a delta) :
    Sourced enc other text applied := by
  induction applied generalizing text with
  | nil => trivial
  | cons a rest ih =>
    obtain ⟨⟨delta, hsource, hkind, happly⟩, hrest⟩ := h
    exact ⟨⟨delta, himp a List.mem_cons_self delta hsource, hkind, happly⟩,
      ih hrest fun b hb => himp b (List.mem_cons_of_mem _ hb)⟩

theorem Sourced.exists_source {applied : List Applied} (h : Sourced enc source text applied) :
    ∀ a ∈ applied, ∃ delta, source a delta := by
  induction applied generalizing text with
  | nil => exact fun a ha => absurd ha List.not_mem_nil
  | cons a rest ih =>
    obtain ⟨⟨delta, hsource, -⟩, hrest⟩ := h
    intro b hb
    rcases List.mem_cons.mp hb with rfl | hb
    · exact ⟨delta, hsource⟩
    · exact ih hrest b hb

def Waits (pending : Table Nat Delta) (last : Nat) (a : Applied) (delta : Delta) : Prop :=
  ∃ n, a.seq = some n ∧ last < n ∧ pending.get? n = some delta

theorem sourced_drainWith (fuel : Nat) (hlast : w.lastApplied = some last) :
    Sourced enc (Waits w.pending last) w.content (drainWith enc fuel w).2 := by
  induction fuel generalizing w last with
  | zero => trivial
  | succ fuel ih =>
    rw [drainWith]
    cases hnext : w.pending.get? (last + 1) with
    | none =>
      simp only [hlast, hnext]
      trivial
    | some delta =>
      have hlater : ∀ a delta', Waits (w.pending.erase (last + 1)) (last + 1) a delta' →
          Waits w.pending last a delta' := by
        rintro a delta' ⟨n, hseq, hlt, hn⟩
        rw [Table.get?_erase] at hn
        split at hn
        · cases hn
        · exact ⟨n, hseq, by omega, hn⟩
      have hrest (content : String) :=
        (ih (w := { w with
            content := content
            lastApplied := some (last + 1)
            pending := w.pending.erase (last + 1) }) rfl).mono fun a _ => hlater a
      simp only [hlast, hnext, patch]
      cases hfits : delta.apply w.content enc with
      | error e => exact hrest w.content
      | ok content =>
        exact ⟨⟨delta, ⟨last + 1, rfl, Nat.lt_succ_self last, hnext⟩, rfl, hfits⟩, hrest content⟩

theorem sourced_of_apply {seq : Option Nat} {applied : List Applied}
    (h : w.apply delta seq enc maxPending = .ok (w', applied)) (hne : applied ≠ []) :
    ∃ content later, applied = ⟨delta.kind, seq, content⟩ :: later ∧
      delta.apply w.content enc = .ok content ∧
      Sourced enc (fun a delta => ∃ n, seq = some n ∧ Waits w.pending n a delta) content later := by
  cases takes_of_apply seq applied h with
  | @unnumbered content fits => exact ⟨content, [], rfl, fits, trivial⟩
  | held => exact absurd rfl hne
  | @advanced n content due fits =>
    have hdrained : Sourced enc (Waits (w.jumpTo n content).pending n) content
        ((w.jumpTo n content).drain enc).2 := sourced_drainWith _ rfl
    refine ⟨content, _, rfl, fits, hdrained.mono fun a _ delta' hwaits => ⟨n, rfl, ?_⟩⟩
    obtain ⟨m, hseq, hlt, hm⟩ := hwaits
    rw [jumpTo, Table.get?_filter, Option.filter_eq_some_iff] at hm
    exact ⟨m, hseq, hlt, hm.1⟩

theorem pending_of_apply {seq : Option Nat} {applied : List Applied}
    (h : w.apply delta seq enc maxPending = .ok (w', applied)) (hne : applied ≠ []) (n : Nat)
    (other : Delta) (hn : w'.pending.get? n = some other) : w.pending.get? n = some other := by
  cases takes_of_apply seq applied h with
  | unnumbered => exact hn
  | held => exact absurd rfl hne
  | @advanced m content due fits =>
    obtain ⟨last, -, hpassed⟩ := (passed_jumpTo w m content).drain enc
    rw [hpassed.waiting] at hn
    split at hn
    · exact hn
    · cases hn

end EditorSync.WorkingCopy
