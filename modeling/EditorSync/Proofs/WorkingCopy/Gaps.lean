import EditorSync.Proofs.WorkingCopy.Transitions

/-! The deltas that wait in a working copy: how many there are, and which numbers they have, over
any run of operations. -/

namespace EditorSync.WorkingCopy

open Text (Encoding)

variable {enc : Encoding} {maxPending last seq : Nat} {w w' v : WorkingCopy} {delta : Delta}

inductive Op where
  | apply (delta : Delta) (seq : Option Nat) (enc : Encoding)
  | reset (content : String)
  | resetSequence
  deriving DecidableEq, Repr

namespace Op

def resets : Op → Bool
  | apply .. => false
  | reset _ | resetSequence => true

def after (maxPending : Nat) (w : WorkingCopy) : Op → WorkingCopy
  | apply delta seq enc => w.deliver enc maxPending delta seq
  | reset content => w.reset content
  | resetSequence => w.resetSequence

end Op

def run (maxPending : Nat) (w : WorkingCopy) (ops : List Op) : WorkingCopy :=
  ops.foldl (Op.after maxPending) w

structure Gapped (maxPending : Nat) (w : WorkingCopy) : Prop where
  room : w.pending.size ≤ maxPending
  idle : w.lastApplied = none → w.pending = .empty
  gap : ∀ last, w.lastApplied = some last →
    ∀ seq, (w.pending.get? seq).isSome → last + 2 ≤ seq

structure Passed (w : WorkingCopy) (last : Nat) (v : WorkingCopy) : Prop where
  baseline : v.lastApplied = some last
  waiting : ∀ n, v.pending.get? n = if last < n then w.pending.get? n else none

theorem passed_jumpTo (w : WorkingCopy) (seq : Nat) (content : String) :
    Passed w seq (w.jumpTo seq content) := by
  refine ⟨rfl, fun n => ?_⟩
  rw [jumpTo, Table.get?_filter]
  by_cases hn : seq < n
  · cases w.pending.get? n <;> simp [hn]
  · cases w.pending.get? n <;> simp [hn]

theorem Passed.takeTurn (h : Passed w last v) (delta : Delta) (enc : Encoding) :
    Passed w (last + 1) (v.takeTurn last delta enc) := by
  refine ⟨rfl, fun n => ?_⟩
  rw [WorkingCopy.takeTurn, Table.get?_erase, h.waiting]
  by_cases hn : n = last + 1
  · rw [if_pos hn, if_neg (by omega)]
  · by_cases hlater : last < n
    · rw [if_neg hn, if_pos hlater, if_pos (by omega)]
    · rw [if_neg hn, if_neg hlater, if_neg (by omega)]

theorem Passed.drain (h : Passed w seq v) (enc : Encoding) :
    ∃ last, seq ≤ last ∧ Passed w last (v.drain enc).1 := by
  apply drainWith_induction fun u => ∃ last, seq ≤ last ∧ Passed w last u
  · rintro u l delta ⟨last, hle, hu⟩ hl -
    obtain rfl : l = last := Option.some.inj (hl.symm.trans hu.baseline)
    exact ⟨l + 1, by omega, hu.takeTurn delta enc⟩
  · exact ⟨seq, Nat.le_refl _, h⟩

theorem Passed.size_le (h : Passed w last v) : v.pending.size ≤ w.pending.size := by
  have hkeys : v.pending.keys ⊆ w.pending.keys := by
    intro n hn
    rw [Table.mem_keys_iff, h.waiting] at hn
    rw [Table.mem_keys_iff]
    split at hn
    · exact hn
    · cases hn
  have hsize := v.pending.size_le_of_keys_subset w.pending.keys hkeys
  rwa [Table.keys, List.length_map] at hsize

theorem gapped_drain (hroom : w.pending.size ≤ maxPending) (h : Passed w seq v) :
    ((v.drain enc).1).Gapped maxPending := by
  obtain ⟨last, -, hpassed⟩ := h.drain enc
  have hstuck := drainWith_settled v.pending.size v (Nat.le_refl _) last hpassed.baseline
  refine ⟨Nat.le_trans hpassed.size_le hroom, fun hnone => ?_, fun l hl n hn => ?_⟩
  · rw [hpassed.baseline] at hnone
    cases hnone
  · obtain rfl : l = last := Option.some.inj (hl.symm.trans hpassed.baseline)
    have hnext : n ≠ l + 1 := by
      rintro rfl
      rw [drain, hstuck] at hn
      cases hn
    rw [hpassed.waiting] at hn
    split at hn
    · omega
    · cases hn

theorem gapped_resetSequence (w : WorkingCopy) (maxPending : Nat) :
    w.resetSequence.Gapped maxPending :=
  ⟨Nat.zero_le _, fun _ => rfl, fun _ hl => nomatch hl⟩

theorem Gapped.deliver (h : w.Gapped maxPending) (delta : Delta) (seq : Option Nat)
    (enc : Encoding) : (w.deliver enc maxPending delta seq).Gapped maxPending := by
  rcases deliver_cases seq with ⟨hself, -⟩ | ⟨applied, htakes⟩
  · rwa [hself]
  · generalize w.deliver enc maxPending delta seq = w' at htakes
    cases htakes with
    | unnumbered fits => exact ⟨h.room, h.idle, h.gap⟩
    | @held seq last baseline early incremental room =>
      refine ⟨?_, fun hnone => ?_, fun l hl n hn => ?_⟩
      · have := w.pending.size_insert_le seq delta
        dsimp only
        omega
      · rw [baseline] at hnone
        cases hnone
      · obtain rfl : l = last := Option.some.inj (hl.symm.trans baseline)
        rw [Table.get?_insert] at hn
        split at hn
        · omega
        · exact h.gap l hl n hn
    | @advanced seq content due fits => exact gapped_drain h.room (passed_jumpTo w seq content)

theorem Gapped.after (h : w.Gapped maxPending) (op : Op) : (op.after maxPending w).Gapped maxPending := by
  cases op with
  | apply delta seq enc => exact h.deliver delta seq enc
  | reset content => exact gapped_resetSequence _ maxPending
  | resetSequence => exact gapped_resetSequence _ maxPending

theorem gapped_run (h : w.Gapped maxPending) (ops : List Op) :
    (run maxPending w ops).Gapped maxPending := by
  induction ops generalizing w with
  | nil => exact h
  | cons op rest ih => exact ih (h.after op)

theorem lastApplied_deliver (hlast : w.lastApplied = some last) (delta : Delta) (seq : Option Nat)
    (enc : Encoding) :
    ∃ later, last ≤ later ∧ (w.deliver enc maxPending delta seq).lastApplied = some later := by
  rcases deliver_cases seq with ⟨hself, -⟩ | ⟨applied, htakes⟩
  · exact ⟨last, Nat.le_refl _, hself ▸ hlast⟩
  · generalize w.deliver enc maxPending delta seq = w' at htakes
    cases htakes with
    | unnumbered | held => exact ⟨last, Nat.le_refl _, hlast⟩
    | @advanced seq content due fits =>
      obtain ⟨later, hle, hpassed⟩ := (passed_jumpTo w seq content).drain enc
      have hlt := (due last hlast).1
      exact ⟨later, by omega, hpassed.baseline⟩

theorem lastApplied_run (ops : List Op) (hops : ∀ op ∈ ops, op.resets = false)
    (hlast : w.lastApplied = some last) :
    ∃ later, last ≤ later ∧ (run maxPending w ops).lastApplied = some later := by
  induction ops generalizing w last with
  | nil => exact ⟨last, Nat.le_refl _, hlast⟩
  | cons op rest ih =>
    have hop := hops op List.mem_cons_self
    cases op with
    | apply delta seq enc =>
      obtain ⟨mid, hmid, hfirst⟩ := lastApplied_deliver hlast delta seq enc
      obtain ⟨later, hlater, hrest⟩ := ih (fun op hop => hops op (List.mem_cons_of_mem _ hop)) hfirst
      exact ⟨later, Nat.le_trans hmid hlater, hrest⟩
    | reset | resetSequence => cases hop

theorem apply_newer_replaceAll (text : String) (enc : Encoding) (maxPending : Nat)
    (hnewer : ∀ last, w.lastApplied = some last → last < seq) :
    ∃ last later w', seq ≤ last ∧ Passed w last w' ∧
      w.apply (.replaceAll text) (some seq) enc maxPending =
        .ok (w', ⟨.replaceAll, some seq, text⟩ :: later) := by
  obtain ⟨last, hle, hpassed⟩ := (passed_jumpTo w seq text).drain enc
  have hdue : ∀ last, w.lastApplied = some last →
      last < seq ∧ ((Delta.replaceAll text).kind ≠ .replaceAll → seq = last + 1) :=
    fun last hlast => ⟨hnewer last hlast, fun hkind => absurd rfl hkind⟩
  exact ⟨last, _, _, hle, hpassed,
    apply_of_takes _ _ (.advanced hdue (Delta.apply_replaceAll text))⟩

/-- In any run, no more deltas wait than may, none waits before the first number, and none that
waits is stale or due; only a reset takes the last number back. A newer replacement of the whole
content is taken at any time, and no number up to its own waits after it. -/
theorem gaps_of_run (key : Key) (text : String) (maxPending : Nat) (ops : List Op) :
    let w := run maxPending (new key text) ops
    w.pending.size ≤ maxPending ∧ (w.lastApplied = none → w.pending = .empty) ∧
      (∀ last, w.lastApplied = some last →
        (∀ seq, (w.pending.get? seq).isSome → last + 2 ≤ seq) ∧
        ∀ more, (∀ op ∈ more, op.resets = false) →
          ∃ later, last ≤ later ∧ (run maxPending w more).lastApplied = some later) ∧
      ∀ (v : WorkingCopy) (snapshot : String) (seq : Nat) (enc : Encoding),
        (∀ last, v.lastApplied = some last → last < seq) →
          ∃ last later v', v.apply (.replaceAll snapshot) (some seq) enc maxPending =
              .ok (v', ⟨.replaceAll, some seq, snapshot⟩ :: later) ∧
            seq ≤ last ∧ v'.lastApplied = some last ∧
            ∀ n, v'.pending.get? n = if last < n then v.pending.get? n else none := by
  intro w
  have hw : w.Gapped maxPending := gapped_run (gapped_resetSequence (new key text) maxPending) ops
  refine ⟨hw.room, hw.idle, fun last hlast => ⟨hw.gap last hlast, fun more hmore => ?_⟩, ?_⟩
  · exact lastApplied_run more hmore hlast
  · intro v snapshot seq enc hnewer
    obtain ⟨last, later, v', hle, hpassed, happly⟩ := apply_newer_replaceAll snapshot enc maxPending hnewer
    exact ⟨last, later, v', happly, hle, hpassed.baseline, hpassed.waiting⟩

example :
    let w := run 2 (new ⟨"/p", "/p/a"⟩ "")
      ([1, 3, 4, 5].map fun seq => .apply (.insert 0 "z") (some seq) .utf16)
    w.pending.entries.map (·.1) = [3, 4] ∧ w.lastApplied = some 1 := by
  cbv

end EditorSync.WorkingCopy
