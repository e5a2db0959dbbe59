import EditorSync.Proofs.WorkingCopy.Transitions

/-! What has been applied to a working copy, over any run of deliveries. -/

namespace EditorSync.WorkingCopy

open Text (Encoding)

variable {enc : Encoding} {maxPending last : Nat} {w w' w'' : WorkingCopy} {delta : Delta}

structure Delivery where
  delta : Delta
  seq : Option Nat
  enc : Encoding
  maxPending : Nat
  deriving DecidableEq, Repr

/-- A working copy and all that has been applied to it, each with the encoding of the delivery
that brought it about. -/
structure Journal where
  copy : WorkingCopy
  entries : List (Encoding × Applied)
  deriving DecidableEq, Repr

def Journal.take (j : Journal) (d : Delivery) : Journal :=
  match j.copy.apply d.delta d.seq d.enc d.maxPending with
  | .ok (copy, applied) => ⟨copy, j.entries ++ applied.map (d.enc, ·)⟩
  | .error _ => j

def Journal.run (start : WorkingCopy) (deliveries : List Delivery) : Journal :=
  deliveries.foldl take ⟨start, []⟩

def Chained (deliveries : List Delivery) : String → List (Encoding × Applied) → Prop
  | _, [] => True
  | text, (enc, a) :: rest =>
    (∃ d ∈ deliveries, d.seq = a.seq ∧ d.delta.kind = a.kind ∧
      d.delta.apply text enc = .ok a.content) ∧ Chained deliveries a.content rest

def lastText (text : String) (entries : List (Encoding × Applied)) : String :=
  (entries.getLast?.map (·.2.content)).getD text

def numbers (entries : List (Encoding × Applied)) : List Nat := entries.filterMap (·.2.seq)

/-- The least number that has not been passed. -/
def nextNumber (w : WorkingCopy) : Nat := w.lastApplied.elim 0 (· + 1)

def Supplied (deliveries : List Delivery) (w : WorkingCopy) : Prop :=
  ∀ n delta, w.pending.get? n = some delta → ∃ d ∈ deliveries, d.delta = delta ∧ d.seq = some n

variable {deliveries : List Delivery} {text : String} {xs ys : List (Encoding × Applied)}

theorem lastText_append (text : String) (xs ys : List (Encoding × Applied)) :
    lastText text (xs ++ ys) = lastText (lastText text xs) ys := by
  unfold lastText
  rw [List.getLast?_append]
  cases ys.getLast? <;> simp

theorem lastText_cons (text : String) (x : Encoding × Applied) (xs : List (Encoding × Applied)) :
    lastText text (x :: xs) = lastText x.2.content xs := lastText_append text [x] xs

theorem chained_append (hxs : Chained deliveries text xs)
    (hys : Chained deliveries (lastText text xs) ys) : Chained deliveries text (xs ++ ys) := by
  induction xs generalizing text with
  | nil => exact hys
  | cons x xs ih =>
    rw [lastText_cons] at hys
    exact ⟨hxs.1, ih hxs.2 hys⟩

structure Advances (deliveries : List Delivery) (w : WorkingCopy)
    (entries : List (Encoding × Applied)) (w' : WorkingCopy) : Prop where
  supplied : Supplied deliveries w'
  chained : Chained deliveries w.content entries
  content : w'.content = lastText w.content entries
  increasing : (numbers entries).Pairwise (· < ·)
  bounds : ∀ n ∈ numbers entries, w.nextNumber ≤ n ∧ n < w'.nextNumber
  rises : w.nextNumber ≤ w'.nextNumber

theorem Advances.nothing (hsupplied : Supplied deliveries w') (hcontent : w'.content = w.content)
    (hrises : w.nextNumber ≤ w'.nextNumber) : Advances deliveries w [] w' :=
  ⟨hsupplied, trivial, hcontent, List.Pairwise.nil, (fun _ hn => by cases hn), hrises⟩

theorem Advances.trans (h : Advances deliveries w xs w') (h' : Advances deliveries w' ys w'') :
    Advances deliveries w (xs ++ ys) w'' := by
  have hnumbers : numbers (xs ++ ys) = numbers xs ++ numbers ys := List.filterMap_append
  have hrises := h.rises
  have hrises' := h'.rises
  refine ⟨h'.supplied, ?_, ?_, ?_, ?_, by omega⟩
  · apply chained_append h.chained
    rw [← h.content]
    exact h'.chained
  · rw [lastText_append, ← h.content, h'.content]
  · rw [hnumbers, List.pairwise_append]
    refine ⟨h.increasing, h'.increasing, fun n hn m hm => ?_⟩
    have := h.bounds n hn
    have := h'.bounds m hm
    omega
  · intro n hn
    rw [hnumbers, List.mem_append] at hn
    rcases hn with hn | hn
    · have := h.bounds n hn
      omega
    · have := h'.bounds n hn
      omega

theorem Supplied.sublist {pending : Table Nat Delta} (h : Supplied deliveries w)
    (hsub : ∀ n delta, pending.get? n = some delta → w.pending.get? n = some delta)
    (content : String) (last? : Option Nat) :
    Supplied deliveries { w with content := content, lastApplied := last?, pending := pending } :=
  fun n delta hn => h n delta (hsub n delta hn)

theorem advances_numbered {d : Delivery} {n : Nat} {content : String} {pending : Table Nat Delta}
    (h : Supplied deliveries w) (hd : d ∈ deliveries) (hseq : d.seq = some n)
    (hfits : d.delta.apply w.content enc = .ok content) (hdue : w.nextNumber ≤ n)
    (hsub : ∀ n delta, pending.get? n = some delta → w.pending.get? n = some delta) :
    Advances deliveries w [(enc, ⟨d.delta.kind, some n, content⟩)]
      { w with content := content, lastApplied := some n, pending := pending } := by
  have hnext : nextNumber { w with content := content, lastApplied := some n, pending := pending } =
      n + 1 := rfl
  refine ⟨h.sublist hsub _ _, ⟨⟨d, hd, hseq, rfl, hfits⟩, trivial⟩, rfl,
    List.pairwise_singleton _ _, fun m hm => ?_, ?_⟩
  · obtain rfl := List.mem_singleton.mp hm
    omega
  · omega

theorem advances_drainWith (fuel : Nat) (h : Supplied deliveries w) :
    Advances deliveries w ((drainWith enc fuel w).2.map (enc, ·)) (drainWith enc fuel w).1 := by
  induction fuel generalizing w with
  | zero => exact .nothing h rfl (Nat.le_refl _)
  | succ fuel ih =>
    rw [drainWith]
    cases hlast : w.lastApplied with
    | none => exact .nothing h rfl (Nat.le_refl _)
    | some last =>
      dsimp only
      cases hnext : w.pending.get? (last + 1) with
      | none => exact .nothing h rfl (Nat.le_refl _)
      | some delta =>
        have hnumber : w.nextNumber = last + 1 := by rw [nextNumber, hlast]; rfl
        have hsub : ∀ n delta, (w.pending.erase (last + 1)).get? n = some delta →
            w.pending.get? n = some delta := by
          intro n delta hn
          rw [Table.get?_erase] at hn
          split at hn
          · cases hn
          · exact hn
        dsimp only [patch]
        cases hfits : delta.apply w.content enc with
        | error e =>
          have hdropped := h.sublist hsub w.content (some (last + 1))
          have hturn : Advances deliveries w []
              { w with lastApplied := some (last + 1), pending := w.pending.erase (last + 1) } := by
            refine .nothing hdropped rfl ?_
            rw [hnumber]
            exact Nat.le_succ _
          exact hturn.trans (ih hdropped)
        | ok content =>
          obtain ⟨d, hd, rfl, hseq⟩ := h _ _ hnext
          have hturn := advances_numbered h hd hseq hfits (Nat.le_of_eq hnumber) hsub
          exact hturn.trans (ih hturn.supplied)

theorem nextNumber_le {seq : Nat} (hdue : ∀ last, w.lastApplied = some last →
    last < seq ∧ (delta.kind ≠ .replaceAll → seq = last + 1)) : w.nextNumber ≤ seq := by
  unfold nextNumber
  cases hlast : w.lastApplied with
  | none => exact Nat.zero_le _
  | some last => exact (hdue last hlast).1

theorem advances_apply {d : Delivery} {applied : List Applied} (h : Supplied deliveries w)
    (hd : d ∈ deliveries)
    (happly : w.apply d.delta d.seq d.enc d.maxPending = .ok (w', applied)) :
    Advances deliveries w (applied.map (d.enc, ·)) w' := by
  have htakes := takes_of_apply _ _ happly
  generalize hseq : d.seq = seq at htakes
  cases htakes with
  | unnumbered fits =>
    exact ⟨h, ⟨⟨d, hd, hseq, rfl, fits⟩, trivial⟩, rfl, List.Pairwise.nil,
      (fun _ hn => by cases hn), Nat.le_refl _⟩
  | held =>
    refine .nothing (fun n delta hn => ?_) rfl (Nat.le_refl _)
    rw [Table.get?_insert] at hn
    split at hn
    · rename_i hn'
      cases hn
      exact ⟨d, hd, rfl, hn' ▸ hseq⟩
    · exact h n delta hn
  | @advanced seq content due fits =>
    have hsub : ∀ n delta, (w.pending.filter fun n _ => seq < n).get? n = some delta →
        w.pending.get? n = some delta := by
      intro n delta hn
      rw [Table.get?_filter, Option.filter_eq_some_iff] at hn
      exact hn.1
    have hjump := advances_numbered h hd hseq fits (nextNumber_le due) hsub
    exact hjump.trans (advances_drainWith _ hjump.supplied)

theorem apply_eq_nil_iff {seq : Option Nat} {applied : List Applied}
    (happly : w.apply delta seq enc maxPending = .ok (w', applied)) :
    applied = [] ↔ (∃ n, seq = some n ∧ w'.pending = w.pending.insert n delta) ∧
      w'.content = w.content ∧ w'.lastApplied = w.lastApplied := by
  cases takes_of_apply seq applied happly with
  | unnumbered => simp
  | held => simp
  | @advanced seq content due fits =>
    have hpassed : seq < ((w.jumpTo seq content).drain enc).1.nextNumber := by
      apply drainWith_induction (fun v => seq < v.nextNumber)
      · intro v last delta hv hlast hnext
        rw [nextNumber, hlast] at hv
        exact Nat.lt_succ_of_lt hv
      · exact Nat.lt_succ_self seq
    have hdue := nextNumber_le due
    constructor
    · intro hnil
      cases hnil
    · rintro ⟨-, -, hlast⟩
      rw [nextNumber, hlast] at hpassed
      exact absurd hpassed (Nat.not_lt_of_le hdue)

theorem advances_foldl {start : WorkingCopy} (more : List Delivery) (hmore : more ⊆ deliveries)
    {j : Journal} (h : Advances deliveries start j.entries j.copy) :
    Advances deliveries start (more.foldl Journal.take j).entries
      (more.foldl Journal.take j).copy := by
  induction more generalizing j with
  | nil => exact h
  | cons d more ih =>
    obtain ⟨hd, hrest⟩ := List.cons_subset.mp hmore
    apply ih hrest
    unfold Journal.take
    split
    · rename_i happly
      exact h.trans (advances_apply h.supplied hd happly)
    · exact h

/-- The numbers of what is applied grow, each text comes from the one before it by a delta that
was delivered, the last one is the content, and only a delta that has to wait applies nothing. -/
theorem entries_of_run (key : Key) (text : String) (deliveries : List Delivery) :
    let j := Journal.run (new key text) deliveries
    (numbers j.entries).Pairwise (· < ·) ∧
      Chained deliveries text j.entries ∧
      j.copy.content = lastText text j.entries ∧
      ∀ delta seq enc maxPending copy applied,
        j.copy.apply delta seq enc maxPending = .ok (copy, applied) →
          (applied = [] ↔ (∃ n, seq = some n ∧ copy.pending = j.copy.pending.insert n delta) ∧
            copy.content = j.copy.content ∧ copy.lastApplied = j.copy.lastApplied) := by
  intro j
  have hstart : Advances deliveries (new key text) [] (new key text) :=
    .nothing (fun n delta hn => by cases hn) rfl (Nat.le_refl _)
  have hrun : Advances deliveries (new key text) j.entries j.copy :=
    advances_foldl deliveries (List.Subset.refl _) hstart
  exact ⟨hrun.increasing, hrun.chained, hrun.content,
    fun _ _ _ _ _ _ happly => apply_eq_nil_iff happly⟩

example :
    let run := Journal.run (new ⟨"/p", "/p/a"⟩ "") [⟨.insert 0 "b", some 1, .utf8, 8⟩,
      ⟨.remove 5 1, some 3, .utf8, 8⟩, ⟨.insert 1 "c", some 4, .utf8, 8⟩,
      ⟨.insert 0 "a", none, .utf8, 8⟩, ⟨.insert 2 "!", some 2, .utf8, 8⟩]
    run.entries.map (fun entry => (entry.2.seq, entry.2.content)) =
        [(some 1, "b"), (none, "ab"), (some 2, "ab!"), (some 4, "acb!")] ∧
      run.copy.lastApplied = some 4 := by decide

end EditorSync.WorkingCopy
