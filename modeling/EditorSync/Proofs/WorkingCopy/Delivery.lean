import EditorSync.Proofs.WorkingCopy.Transitions

namespace EditorSync.WorkingCopy

open Text (Encoding)

variable {enc : Encoding} {maxPending : Nat} {w : WorkingCopy}

def deliverAll (enc : Encoding) (maxPending : Nat) (w : WorkingCopy)
    (arrivals : List (Delta × Nat)) : WorkingCopy :=
  arrivals.foldl (fun w x => w.deliver enc maxPending x.1 (some x.2)) w

def Knows (w : WorkingCopy) (seq : Nat) : Prop :=
  (∃ last, w.lastApplied = some last ∧ seq ≤ last) ∨ (w.pending.get? seq).isSome

structure Follows (enc : Encoding) (start : String) (deltas : List Delta) (base : Nat)
    (w : WorkingCopy) (last : Nat) : Prop where
  baseline : w.lastApplied = some last
  lower : base ≤ last
  upper : last < base + deltas.length
  content : Delta.replay enc start (deltas.take (last + 1 - base)) = .ok w.content
  waiting : ∀ seq delta, w.pending.get? seq = some delta →
    last < seq ∧ (delta, seq) ∈ deltas.zipIdx base

section

variable {start final : String} {deltas : List Delta} {base last seq : Nat} {delta : Delta}

theorem replay_member (history : Delta.replay enc start deltas = .ok final)
    (h : (delta, seq) ∈ deltas.zipIdx base) :
    ∃ before after, Delta.replay enc start (deltas.take (seq - base)) = .ok before ∧
      delta.apply before enc = .ok after ∧
      Delta.replay enc start (deltas.take (seq + 1 - base)) = .ok after := by
  obtain ⟨hle, hget⟩ := List.mk_mem_zipIdx_iff_le_and_getElem?_sub.mp h
  have hsub : seq + 1 - base = seq - base + 1 := by omega
  rw [hsub]
  exact Delta.replay_step deltas (seq - base) delta history hget

theorem member_bounds (h : (delta, seq) ∈ deltas.zipIdx base) :
    base ≤ seq ∧ seq < base + deltas.length :=
  ⟨List.le_snd_of_mem_zipIdx h, List.snd_lt_add_of_mem_zipIdx h⟩

theorem Follows.takeTurn (history : Delta.replay enc start deltas = .ok final)
    (h : Follows enc start deltas base w last)
    (hnext : w.pending.get? (last + 1) = some delta) :
    Follows enc start deltas base (w.takeTurn last delta enc) (last + 1) := by
  have hmem := (h.waiting _ _ hnext).2
  obtain ⟨before, after, hbefore, happly, hafter⟩ := replay_member history hmem
  have hcontent : w.content = before := by
    rw [h.content, Except.ok.injEq] at hbefore
    exact hbefore
  have hbounds := member_bounds hmem
  refine ⟨rfl, by have := h.lower; omega, hbounds.2, ?_, ?_⟩
  · simp only [WorkingCopy.takeTurn, hcontent, happly, Except.toOption, Option.getD_some]
    exact hafter
  · intro s d hs
    simp only [WorkingCopy.takeTurn, Table.get?_erase] at hs
    split at hs
    · cases hs
    · obtain ⟨hlt, hsmem⟩ := h.waiting s d hs
      exact ⟨by omega, hsmem⟩

theorem Follows.drain (history : Delta.replay enc start deltas = .ok final)
    (h : Follows enc start deltas base w last) :
    ∃ last', last ≤ last' ∧ Follows enc start deltas base (w.drain enc).1 last' ∧
      ∀ s, w.Knows s → (w.drain enc).1.Knows s := by
  apply drainWith_induction fun v => ∃ last', last ≤ last' ∧ Follows enc start deltas base v last' ∧
    ∀ s, w.Knows s → v.Knows s
  · rintro v l d ⟨last', hle, hv, hknows⟩ hl hnext
    obtain rfl : l = last' := by rw [hv.baseline, Option.some.injEq] at hl; exact hl.symm
    refine ⟨l + 1, by omega, hv.takeTurn history hnext, fun s hs => ?_⟩
    rcases hknows s hs with ⟨l', hl', hsl⟩ | hwaits
    · rw [hv.baseline, Option.some.injEq] at hl'
      exact .inl ⟨l + 1, rfl, by omega⟩
    · by_cases hs : s = l + 1
      · exact .inl ⟨l + 1, rfl, by omega⟩
      · apply Or.inr
        simpa only [WorkingCopy.takeTurn, Table.get?_erase, if_neg hs] using hwaits
  · exact ⟨last, Nat.le_refl _, h, fun s hs => hs⟩

structure Settled (enc : Encoding) (start : String) (deltas : List Delta) (base : Nat)
    (w : WorkingCopy) (last : Nat) : Prop extends Follows enc start deltas base w last where
  stuck : w.pending.get? (last + 1) = none

theorem Follows.drain_settled (history : Delta.replay enc start deltas = .ok final)
    (h : Follows enc start deltas base w last) :
    ∃ last', last ≤ last' ∧ Settled enc start deltas base (w.drain enc).1 last' ∧
      ∀ s, w.Knows s → (w.drain enc).1.Knows s := by
  obtain ⟨last', hle, hfollows, hknows⟩ := h.drain history
  have hstuck := drainWith_settled w.pending.size w (Nat.le_refl _) last' hfollows.baseline
  exact ⟨last', hle, ⟨hfollows, hstuck⟩, hknows⟩

theorem follows_jumpTo {content : String} (hmem : (delta, seq) ∈ deltas.zipIdx base)
    (hcontent : Delta.replay enc start (deltas.take (seq + 1 - base)) = .ok content)
    (hwaiting : ∀ s d, w.pending.get? s = some d → (d, s) ∈ deltas.zipIdx base) :
    Follows enc start deltas base (w.jumpTo seq content) seq := by
  obtain ⟨hlower, hupper⟩ := member_bounds hmem
  refine ⟨rfl, hlower, hupper, hcontent, fun s d hs => ?_⟩
  simp only [jumpTo, Table.get?_filter, Option.filter_eq_some_iff, decide_eq_true_eq] at hs
  exact ⟨hs.2, hwaiting s d hs.1⟩

theorem knows_jumpTo {content : String} {s : Nat} (hlast : ∀ l, w.lastApplied = some l → l < seq)
    (h : w.Knows s) : (w.jumpTo seq content).Knows s := by
  rcases h with ⟨l, hl, hsl⟩ | hwaits
  · have := hlast l hl
    exact .inl ⟨seq, rfl, by omega⟩
  · by_cases hs : s ≤ seq
    · exact .inl ⟨seq, rfl, hs⟩
    · apply Or.inr
      obtain ⟨d, hd⟩ := Option.isSome_iff_exists.mp hwaits
      simp [jumpTo, hd, Nat.lt_of_not_le hs]

theorem Settled.room (h : Settled enc start deltas base w last)
    (hmem : (delta, seq) ∈ deltas.zipIdx base) (hearly : last + 1 < seq)
    (hnew : w.pending.get? seq = none) (hroomy : deltas.length ≤ maxPending + 2) :
    w.pending.size < maxPending := by
  let free := (List.range' (last + 2) (base + deltas.length - (last + 2))).erase seq
  have hbounds := member_bounds hmem
  have hkeys : w.pending.keys ⊆ free := by
    intro s hs
    obtain ⟨d, hd⟩ := Option.isSome_iff_exists.mp ((Table.mem_keys_iff _ _).mp hs)
    have hlater := h.waiting s d hd
    have hupper := (member_bounds hlater.2).2
    have hne : s ≠ seq := by
      rintro rfl
      rw [hnew] at hd
      cases hd
    have hstuck : s ≠ last + 1 := by
      rintro rfl
      rw [h.stuck] at hd
      cases hd
    apply (List.mem_erase_of_ne hne).mpr
    exact List.mem_range'_1.mpr (by omega)
  have hsize := w.pending.size_le_of_keys_subset free hkeys
  have hin : seq ∈ List.range' (last + 2) (base + deltas.length - (last + 2)) :=
    List.mem_range'_1.mpr (by omega)
  have hlen : free.length = base + deltas.length - (last + 2) - 1 := by
    rw [List.length_erase_of_mem hin, List.length_range']
  have hlower := h.lower
  omega

theorem Settled.held (h : Settled enc start deltas base w last)
    (hmem : (delta, seq) ∈ deltas.zipIdx base) (hearly : last + 1 < seq) :
    Settled enc start deltas base { w with pending := w.pending.insert seq delta } last := by
  refine ⟨⟨h.baseline, h.lower, h.upper, h.content, fun s d hs => ?_⟩, ?_⟩
  · simp only [Table.get?_insert] at hs
    split at hs
    · rename_i heq
      cases hs
      subst heq
      exact ⟨by omega, hmem⟩
    · exact h.waiting s d hs
  · have hne : last + 1 ≠ seq := by omega
    simpa only [Table.get?_insert, if_neg hne] using h.stuck

structure Progress (enc : Encoding) (start : String) (deltas : List Delta) (base : Nat)
    (w w' : WorkingCopy) : Prop where
  settled : ∃ last, Settled enc start deltas base w' last
  keeps : ∀ s, w.Knows s → w'.Knows s

theorem Settled.deliver_due (history : Delta.replay enc start deltas = .ok final)
    (h : Settled enc start deltas base w last) (hmem : (delta, seq) ∈ deltas.zipIdx base)
    (hlt : last < seq) (hdue : delta.kind ≠ .replaceAll → seq = last + 1) (maxPending : Nat) :
    Progress enc start deltas base w (w.deliver enc maxPending delta (some seq)) ∧
      (w.deliver enc maxPending delta (some seq)).Knows seq := by
  obtain ⟨before, after, hbefore, happly, hafter⟩ := replay_member history hmem
  -- The content is the text before the delta, or does not matter to it.
  have hfits : delta.apply w.content enc = .ok after := by
    by_cases hk : delta.kind = .replaceAll
    · cases delta with
      | replaceAll text => exact happly
      | insert => cases hk
      | remove => cases hk
    · have hcontent := h.content
      rw [← hdue hk, hbefore, Except.ok.injEq] at hcontent
      rw [← hcontent, happly]
  have hahead : ∀ l, w.lastApplied = some l → l < seq ∧ (delta.kind ≠ .replaceAll → seq = l + 1) := by
    intro l hl
    rw [h.baseline, Option.some.injEq] at hl
    exact hl ▸ ⟨hlt, hdue⟩
  rw [deliver_of_takes (.advanced hahead hfits)]
  have hjump := follows_jumpTo hmem hafter fun s d hs => (h.waiting s d hs).2
  obtain ⟨last', hle, hsettled, hknows⟩ := hjump.drain_settled history
  refine ⟨⟨⟨last', hsettled⟩, fun s hs => ?_⟩, hknows seq (.inl ⟨seq, rfl, Nat.le_refl _⟩)⟩
  exact hknows s (knows_jumpTo (fun l hl => (hahead l hl).1) hs)

theorem Settled.deliver_early (h : Settled enc start deltas base w last)
    (hmem : (delta, seq) ∈ deltas.zipIdx base) (hearly : last + 1 < seq)
    (hk : delta.kind ≠ .replaceAll) (maxPending : Nat) :
    Progress enc start deltas base w (w.deliver enc maxPending delta (some seq)) ∧
      (deltas.length ≤ maxPending + 2 → (w.deliver enc maxPending delta (some seq)).Knows seq) := by
  by_cases hroom : w.pending.size < maxPending
  · rw [deliver_of_takes (.held h.baseline hearly hk hroom)]
    have hget (s : Nat) : (w.pending.get? s).isSome ∨ s = seq →
        ((w.pending.insert seq delta).get? s).isSome := by
      intro hs
      rw [Table.get?_insert]
      split
      · rfl
      · rename_i hne
        exact hs.resolve_right hne
    refine ⟨⟨⟨last, h.held hmem hearly⟩, fun s hs => ?_⟩, fun _ => .inr (hget seq (.inr rfl))⟩
    rcases hs with hpast | hwaits
    · exact .inl hpast
    · exact .inr (hget s (.inl hwaits))
  · have hself : w.deliver enc maxPending delta (some seq) = w := by
      have hstale : ¬ seq ≤ last := by omega
      simp only [WorkingCopy.deliver, apply, h.baseline, if_neg hstale,
        if_pos (And.intro hearly hk), if_pos (Nat.le_of_not_lt hroom)]
    rw [hself]
    refine ⟨⟨⟨last, h⟩, fun s hs => hs⟩, fun hroomy => .inr ?_⟩
    cases hpending : w.pending.get? seq with
    | some d => rfl
    | none => exact absurd (h.room hmem hearly hpending hroomy) hroom

theorem Settled.deliver (history : Delta.replay enc start deltas = .ok final)
    (h : Settled enc start deltas base w last) (hmem : (delta, seq) ∈ deltas.zipIdx base)
    (maxPending : Nat) :
    Progress enc start deltas base w (w.deliver enc maxPending delta (some seq)) ∧
      (deltas.length ≤ maxPending + 2 → (w.deliver enc maxPending delta (some seq)).Knows seq) := by
  rcases Nat.lt_or_ge last seq with hlt | hstale
  · by_cases hdue : delta.kind ≠ .replaceAll → seq = last + 1
    · obtain ⟨hprogress, hknows⟩ := h.deliver_due history hmem hlt hdue maxPending
      exact ⟨hprogress, fun _ => hknows⟩
    · obtain ⟨hk, hne⟩ := Classical.not_imp.mp hdue
      exact h.deliver_early hmem (by omega) hk maxPending
  · have hself : w.deliver enc maxPending delta (some seq) = w := by
      simp only [WorkingCopy.deliver, apply, h.baseline, if_pos hstale]
    rw [hself]
    exact ⟨⟨⟨last, h⟩, fun s hs => hs⟩, fun _ => .inl ⟨last, h.baseline, hstale⟩⟩

theorem Settled.deliverAll (history : Delta.replay enc start deltas = .ok final)
    (h : Settled enc start deltas base w last) (maxPending : Nat) (arrivals : List (Delta × Nat))
    (members : ∀ x ∈ arrivals, x ∈ deltas.zipIdx base) :
    Progress enc start deltas base w (deliverAll enc maxPending w arrivals) ∧
      (deltas.length ≤ maxPending + 2 →
        ∀ x ∈ arrivals, (deliverAll enc maxPending w arrivals).Knows x.2) := by
  induction arrivals generalizing w last with
  | nil => exact ⟨⟨⟨last, h⟩, fun s hs => hs⟩, fun _ x hx => absurd hx List.not_mem_nil⟩
  | cons x rest ih =>
    obtain ⟨hfirst, hknown⟩ := h.deliver history (members x List.mem_cons_self) maxPending
    obtain ⟨mid, hmid⟩ := hfirst.settled
    obtain ⟨hrest, hknown'⟩ := ih hmid fun y hy => members y (List.mem_cons_of_mem _ hy)
    refine ⟨⟨hrest.settled, fun s hs => hrest.keeps s (hfirst.keeps s hs)⟩, fun hroomy y hy => ?_⟩
    rcases List.mem_cons.mp hy with rfl | hy
    · exact hrest.keeps _ (hknown hroomy)
    · exact hknown' hroomy y hy

theorem settled_first (key : Key) (history : Delta.replay enc start deltas = .ok final)
    (hmem : (delta, base) ∈ deltas.zipIdx base) (maxPending : Nat) :
    ∃ last, Settled enc start deltas base
        ((new key start).deliver enc maxPending delta (some base)) last ∧
      ((new key start).deliver enc maxPending delta (some base)).Knows base := by
  obtain ⟨before, after, hbefore, happly, hafter⟩ := replay_member history hmem
  rw [Nat.sub_self, List.take_zero, Delta.replay_nil, Except.ok.injEq] at hbefore
  subst hbefore
  have htakes : Takes (new key start) delta enc maxPending (some base)
      (((new key start).jumpTo base after).drain enc).1 _ :=
    .advanced (fun l hl => by cases hl) happly
  rw [deliver_of_takes htakes]
  have hjump : Follows enc start deltas base ((new key start).jumpTo base after) base :=
    follows_jumpTo hmem hafter fun s d hs => by cases hs
  obtain ⟨last, hle, hsettled, hknows⟩ := hjump.drain_settled history
  exact ⟨last, hsettled, hknows base (.inl ⟨base, rfl, Nat.le_refl _⟩)⟩

theorem settled_deliverAll_new (key : Key) (history : Delta.replay enc start deltas = .ok final)
    (maxPending : Nat) (rest : List (Delta × Nat))
    (members : ∀ x ∈ (delta, base) :: rest, x ∈ deltas.zipIdx base) :
    (∃ last, Settled enc start deltas base
        (deliverAll enc maxPending (new key start) ((delta, base) :: rest)) last) ∧
      (deltas.length ≤ maxPending + 2 → ∀ x ∈ (delta, base) :: rest,
        (deliverAll enc maxPending (new key start) ((delta, base) :: rest)).Knows x.2) := by
  obtain ⟨last, hlast, hbase⟩ := settled_first key history (members _ List.mem_cons_self) maxPending
  obtain ⟨hrest, hknown⟩ :=
    hlast.deliverAll history maxPending rest fun x hx => members x (List.mem_cons_of_mem _ hx)
  refine ⟨hrest.settled, fun hroomy x hx => ?_⟩
  rcases List.mem_cons.mp hx with rfl | hx
  · exact hrest.keeps base hbase
  · exact hknown hroomy x hx

theorem Settled.complete (history : Delta.replay enc start deltas = .ok final)
    (h : Settled enc start deltas base w last)
    (hall : ∀ x ∈ deltas.zipIdx base, w.Knows x.2) :
    w.content = final ∧ w.lastApplied = some (base + deltas.length - 1) ∧ w.pending = .empty := by
  have hupper := h.upper
  have hlower := h.lower
  have hlast : last + 1 = base + deltas.length := by
    rcases Nat.lt_or_ge (last + 1) (base + deltas.length) with hlt | hge
    · have hi : last + 1 - base < deltas.length := by omega
      have hmem : (deltas[last + 1 - base], last + 1) ∈ deltas.zipIdx base :=
        List.mk_mem_zipIdx_iff_le_and_getElem?_sub.mpr ⟨by omega, List.getElem?_eq_getElem hi⟩
      rcases hall _ hmem with ⟨l, hl, hle⟩ | hwaits
      · rw [h.baseline, Option.some.injEq] at hl
        omega
      · rw [h.stuck] at hwaits
        cases hwaits
    · omega
  refine ⟨?_, by rw [h.baseline, Option.some.injEq]; omega, ?_⟩
  · have hcontent := h.content
    rw [List.take_of_length_le (by omega), history, Except.ok.injEq] at hcontent
    exact hcontent.symm
  · apply Table.eq_empty_of_get?_eq_none
    intro s
    cases hs : w.pending.get? s with
    | none => rfl
    | some d =>
      obtain ⟨hlater, hmem⟩ := h.waiting s d hs
      have := (member_bounds hmem).2
      omega

/-- However the numbered deltas arrive, the content is always the text after the last number
applied, and the last text once all have arrived and enough of them may wait. -/
theorem content_of_arrivals (key : Key) (history : Delta.replay enc start deltas = .ok final)
    (maxPending : Nat) (arrivals : List (Delta × Nat))
    (members : ∀ x ∈ arrivals, x ∈ deltas.zipIdx base)
    (first : arrivals.head?.map (·.2) = some base) :
    (∀ done, done <+: arrivals → done ≠ [] →
      ∃ last, (deliverAll enc maxPending (new key start) done).lastApplied = some last ∧
        base ≤ last ∧ last < base + deltas.length ∧
        Delta.replay enc start (deltas.take (last + 1 - base)) =
          .ok (deliverAll enc maxPending (new key start) done).content) ∧
    (deltas.length ≤ maxPending + 2 → (∀ x ∈ deltas.zipIdx base, x ∈ arrivals) →
      (deliverAll enc maxPending (new key start) arrivals).content = final ∧
        (deliverAll enc maxPending (new key start) arrivals).lastApplied =
          some (base + deltas.length - 1) ∧
        (deliverAll enc maxPending (new key start) arrivals).pending = .empty) := by
  obtain ⟨delta, rest, rfl⟩ : ∃ delta rest, arrivals = (delta, base) :: rest := by
    cases arrivals with
    | nil => cases first
    | cons x rest =>
      obtain ⟨delta, seq⟩ := x
      cases first
      exact ⟨delta, rest, rfl⟩
  constructor
  · intro done hdone hne
    obtain ⟨done, rfl⟩ : ∃ done', done = (delta, base) :: done' := by
      cases done with
      | nil => exact absurd rfl hne
      | cons x done' => exact ⟨done', by rw [(List.cons_prefix_cons.mp hdone).1]⟩
    have hmembers : ∀ x ∈ (delta, base) :: done, x ∈ deltas.zipIdx base :=
      fun x hx => members x (hdone.subset hx)
    obtain ⟨⟨last, hlast⟩, -⟩ := settled_deliverAll_new key history maxPending done hmembers
    exact ⟨last, hlast.baseline, hlast.lower, hlast.upper, hlast.content⟩
  · intro hroomy hall
    obtain ⟨⟨last, hlast⟩, hknown⟩ := settled_deliverAll_new key history maxPending rest members
    exact hlast.complete history fun x hx => hknown hroomy x (hall x hx)

end

theorem content_of_arrivals_reordered :
    let arrivals := [(.insert 1 "a", 5), (.insert 2 "c", 7), (.insert 2 "c", 7),
      (.replaceAll "xy", 6), (.insert 1 "a", 5)]
    (∀ x ∈ arrivals, x ∈ [.insert 1 "a", .replaceAll "xy", .insert 2 "c"].zipIdx 5) ∧
      (deliverAll .utf16 1 (new ⟨"/p", "/p/a"⟩ "x") arrivals).content = "xyc" := by
  have history : Delta.replay .utf16 "x"
      [.insert 1 "a", .replaceAll "xy", .insert 2 "c"] = .ok "xyc" := by rfl
  have members : ∀ x ∈ [(Delta.insert 1 "a", 5), (.insert 2 "c", 7), (.insert 2 "c", 7),
      (.replaceAll "xy", 6), (.insert 1 "a", 5)],
      x ∈ [.insert 1 "a", .replaceAll "xy", .insert 2 "c"].zipIdx 5 := by decide
  have all : ∀ x ∈ [.insert 1 "a", .replaceAll "xy", .insert 2 "c"].zipIdx 5,
      x ∈ [(Delta.insert 1 "a", 5), (.insert 2 "c", 7), (.insert 2 "c", 7),
        (.replaceAll "xy", 6), (.insert 1 "a", 5)] := by decide
  exact ⟨members, ((content_of_arrivals ⟨"/p", "/p/a"⟩ history 1 _ members rfl).2 (by decide) all).1⟩

end EditorSync.WorkingCopy
