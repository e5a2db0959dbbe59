import Mathlib
import EditorSync.Proofs.Reconcile.Interleaving

namespace EditorSync.Reconcile

namespace Schedule

variable {s s' : Schedule} {id : Nat} {w w' : Worker}

theorem waiting_update (hw : s.workers.get? id = some w) (w' : Worker) :
    (s.update id w').waiting + w.queue.length = s.waiting + w'.queue.length := by
  have hperm := (s.workers.perm_erase hw).flatMap_right fun e => e.2.queue
  have hold : s.waiting = (w.queue ++ (s.workers.erase id).entries.flatMap
      fun e => e.2.queue).length := hperm.length_eq
  have hnew : (s.update id w').waiting =
      ((s.workers.erase id).entries.flatMap (fun e => e.2.queue) ++ w'.queue).length := by
    have happend : (s.update id w').waiting =
        (((s.workers.erase id).entries ++ [(id, w')]).flatMap fun e => e.2.queue).length := rfl
    rw [happend, List.flatMap_append, List.flatMap_singleton]
  rw [List.length_append] at hold hnew
  omega

theorem waiting_receive {ticket : Ticket} (h : s.receive id = some (s', w, ticket)) :
    s'.waiting + 1 = s.waiting := by
  obtain ⟨file, queue, hw, rfl, rfl⟩ := receive_eq_some h
  have hupdate := waiting_update hw ⟨file, .busy ticket, queue⟩
  simp only [List.length_cons] at hupdate
  omega

theorem waiting_finish (s : Schedule) (id : Nat) : (s.finish id).waiting = s.waiting := by
  rcases finish_cases s id with ⟨file, ticket, queue, phase, hw, -, heq⟩ | ⟨-, heq⟩
  · have hupdate := waiting_update hw ⟨file, phase, queue⟩
    simp only at hupdate
    rw [heq]
    omega
  · rw [heq]

theorem waiting_retire (s : Schedule) (id : Nat) : (s.retire id).waiting = s.waiting := by
  unfold retire
  split
  · rename_i file hw
    have hperm := (s.workers.perm_erase hw).flatMap_right fun e => e.2.queue
    exact hperm.length_eq.symm
  · rename_i file queue _ hw
    have hupdate := waiting_update hw ⟨file, .idle, queue⟩
    simp only [update] at hupdate
    omega
  · rfl

theorem mem_of_foldl {β : Type} {choose : Option β → β → Option β}
    (hchoose : ∀ best? b, choose best? b = some b ∨ choose best? b = best?) {bs : List β}
    {best? : Option β} {b : β} (h : bs.foldl choose best? = some b) : best? = some b ∨ b ∈ bs := by
  induction bs generalizing best? with
  | nil => exact .inl h
  | cons c bs ih =>
    rcases ih h with hbest | hmem
    · rcases hchoose best? c with hnew | hold
      · rw [hnew, Option.some.injEq] at hbest
        exact .inr (List.mem_cons.mpr (.inl hbest.symm))
      · exact .inl (hold ▸ hbest)
    · exact .inr (List.mem_cons_of_mem _ hmem)

theorem receive_of_next? (h : s.next? = some id) :
    ∃ s' w ticket, s.receive id = some (s', w, ticket) := by
  obtain ⟨⟨number, id'⟩, hfirst, rfl⟩ := Option.map_eq_some_iff.mp h
  have hmem := (mem_of_foldl (fun best? w => by
    cases best? with
    | none => exact .inl rfl
    | some best =>
      dsimp only
      split
      · exact .inl rfl
      · exact .inr rfl) hfirst).resolve_left (by simp)
  obtain ⟨⟨id, file, phase, queue⟩, hentry, hwaits⟩ := List.mem_filterMap.mp hmem
  rw [← Table.get?_eq_some_iff] at hentry
  cases phase with
  | idle =>
    cases queue with
    | nil => cases hwaits
    | cons ticket queue =>
      cases hwaits
      unfold receive
      rw [hentry]
      exact ⟨_, _, _, rfl⟩
  | busy | retiring => cases hwaits

end Schedule

variable {σ : Type}

theorem waiting_runJob (engine : Engine σ) {s : Schedule} {id : Nat} (state : σ)
    (h : s.next? = some id) : (runJob engine s state id).1.waiting + 1 = s.waiting := by
  obtain ⟨s', w, ⟨number, job⟩, hreceive⟩ := Schedule.receive_of_next? h
  have hfewer := Schedule.waiting_receive hreceive
  unfold runJob
  rw [hreceive]
  cases job with
  | release => exact (congrArg (· + 1) ((Schedule.waiting_retire _ _).trans
      (Schedule.waiting_finish _ _))).trans hfewer
  | pass => exact (congrArg (· + 1) (Schedule.waiting_finish _ _)).trans hfewer

theorem next?_settleWith (engine : Engine σ) (fuel : Nat) (s : Schedule) (state : σ)
    (hfuel : s.waiting ≤ fuel) : (settleWith engine fuel s state).1.next? = none := by
  induction fuel generalizing s state with
  | zero =>
    change s.next? = none
    cases hnext : s.next? with
    | none => rfl
    | some id =>
      have hfewer := waiting_runJob engine state hnext
      omega
  | succ fuel ih =>
    unfold settleWith
    cases hnext : s.next? with
    | none => exact hnext
    | some id =>
      have hfewer := waiting_runJob engine state hnext
      exact ih _ _ (by omega)

theorem settle_of_rest (engine : Engine σ) {s : Schedule} (state : σ) (h : s.next? = none) :
    settle engine s state = (s, state, []) := by
  unfold settle
  cases s.waiting with
  | zero => rfl
  | succ => simp only [settleWith, h]

end EditorSync.Reconcile
