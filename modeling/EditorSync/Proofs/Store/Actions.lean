import EditorSync.Proofs.Procedure
import EditorSync.Store.Basic

namespace EditorSync.Store

def World.Quiet (w : World) : Prop := w.store.unreported = []

namespace Action

variable {α β : Type} {P P' : World → Prop} {Q : α → World → Prop} {R : β → World → Prop}
variable {E : World → Prop}

/-- From a state with the one property an operation leads to a state with another, and to a
state with a third when it fails. All of this only as long as no failure goes unreported. -/
def Ensures (P : World → Prop) (x : Action α) (Q : α → World → Prop) (E : World → Prop) : Prop :=
  ∀ w, (w.Quiet → P w) → (x.perform w).2.Quiet →
    match x.perform w with
    | (.ok a, w') => Q a w'
    | (.error _, w') => E w'

theorem perform_bind (x : Action α) (f : α → Action β) (w : World) :
    (x >>= f).perform w =
      match x.perform w with
      | (.ok a, w') => (f a).perform w'
      | (.error e, w') => (.error e, w') := by
  refine (Procedure.run_bind x f w).trans ?_
  rw [perform]
  split
  · rename_i h
    rw [h]
    rfl
  · rename_i h
    rw [h]

theorem perform_bind_of_ok {x : Action α} {a : α} {w w' : World} (f : α → Action β)
    (h : x.perform w = (.ok a, w')) : (x >>= f).perform w = (f a).perform w' := by
  rw [perform_bind, h]

@[simp] theorem perform_pure (a : α) (w : World) : (pure a : Action α).perform w = (.ok a, w) := rfl

@[simp] theorem perform_get (w : World) : (get : Action World).perform w = (.ok w, w) := rfl

@[simp] theorem perform_modifyStore (f : Store → Store) (w : World) :
    (modifyStore f).perform w = (.ok (), { w with store := f w.store }) := rfl

@[simp] theorem perform_ofExcept (r : Except SyncError α) (w : World) :
    (MonadExcept.ofExcept r : Action α).perform w = (r, w) := Procedure.run_ofExcept r w

@[simp] theorem perform_query (f : Store → Disk → Except SyncError α) (w : World) :
    (query f).perform w = (f w.store w.disk, w) := by
  rw [query, perform_bind]
  exact perform_ofExcept _ w

theorem Ensures.bind {x : Action α} {f : α → Action β} (hx : Ensures P x Q E)
    (hf : ∀ a, Ensures (Q a) (f a) R E) : Ensures P (x >>= f) R E := by
  intro w hP hquiet
  rw [perform_bind] at hquiet ⊢
  have hxw := hx w hP
  cases hresult : x.perform w with
  | mk result w' =>
    rw [hresult] at hquiet hxw
    cases result with
    | ok a => exact hf a w' hxw hquiet
    | error e => exact hxw hquiet

theorem Ensures.pre {x : Action α} (h : Ensures P x Q E) (hpre : ∀ w, P' w → P w) :
    Ensures P' x Q E := fun w hP => h w fun hq => hpre w (hP hq)

theorem Ensures.post {Q' : α → World → Prop} {x : Action α} (h : Ensures P x Q E)
    (hpost : ∀ a w, Q a w → Q' a w) : Ensures P x Q' E := by
  intro w hP hquiet
  have hw := h w hP hquiet
  cases hresult : x.perform w with
  | mk result w' =>
    rw [hresult] at hw
    cases result with
    | ok a => exact hpost a w' hw
    | error e => exact hw

theorem ensures_pure {a : α} (h : ∀ w, P w → Q a w) : Ensures P (pure a) Q E :=
  fun w hP hquiet => h w (hP hquiet)

theorem ensures_throw {e : SyncError} {f : α → Action β} (h : ∀ w, P w → E w) :
    Ensures P ((throw e : Action α) >>= f) R E := fun w hP hquiet => h w (hP hquiet)

theorem ensures_get : Ensures P (get : Action World) (fun v w => P w ∧ w = v) E :=
  fun _ hP hquiet => ⟨hP hquiet, rfl⟩

theorem ensures_ofExcept {r : Except SyncError α} (h : ∀ a, r = .ok a → ∀ w, P w → Q a w)
    (herror : ∀ w, P w → E w) : Ensures P (MonadExcept.ofExcept r : Action α) Q E := by
  intro w hP hquiet
  cases r with
  | ok a => exact h a rfl w (hP hquiet)
  | error e => exact herror w (hP hquiet)

theorem ensures_query {f : Store → Disk → Except SyncError α}
    (h : ∀ w a, P w → f w.store w.disk = .ok a → Q a w) (herror : ∀ w, P w → E w) :
    Ensures P (query f) Q E := by
  refine ensures_get.bind fun v => ensures_ofExcept ?_ fun w hw => herror w hw.1
  rintro a ha w ⟨hP, rfl⟩
  exact h w a hP ha

theorem ensures_modifyStore {f : Store → Store} {Q : Unit → World → Prop}
    (hsame : ∀ s, (f s).unreported = s.unreported)
    (h : ∀ w, P w → Q () { w with store := f w.store }) : Ensures P (modifyStore f) Q E := by
  intro w hP hquiet
  exact h w (hP ((hsame w.store).symm.trans hquiet))

theorem ensures_attempt {effect : Store → Disk → Shadows.Effect} {Q : Unit → World → Prop}
    (h : ∀ w, P w → (effect w.store w.disk).2 = .ok () →
      Q () { w with disk := (effect w.store w.disk).1 }) : Ensures P (attempt effect) Q E := by
  intro w hP hquiet
  have hworld : (attempt effect).perform w =
      (.ok (), ⟨w.store.note (effect w.store w.disk).2, (effect w.store w.disk).1⟩) := rfl
  rw [hworld] at hquiet ⊢
  cases hresult : (effect w.store w.disk).2 with
  | ok _ =>
    rw [hresult] at hquiet
    exact h w (hP hquiet) hresult
  | error e =>
    rw [hresult] at hquiet
    exact absurd hquiet (by simp [World.Quiet, note])

theorem ensures_perform {effect : Store → Disk → Shadows.Effect} {Q : Unit → World → Prop}
    (h : ∀ w, P w → Q () { w with disk := (effect w.store w.disk).1 })
    (herror : ∀ w, P w → E { w with disk := (effect w.store w.disk).1 }) :
    Ensures P (Store.perform effect) Q E := by
  intro w hP hquiet
  have hworld : (Store.perform effect).perform w =
      ((effect w.store w.disk).2, { w with disk := (effect w.store w.disk).1 }) := by
    cases hresult : effect w.store w.disk with
    | mk disk result =>
      have hset : (Store.perform effect).perform w =
          ((MonadExcept.ofExcept (effect w.store w.disk).2 : Action Unit).perform
            { w with disk := (effect w.store w.disk).1 }) := rfl
      rw [hset, hresult]
      cases result <;> rfl
  rw [hworld] at hquiet ⊢
  cases (effect w.store w.disk).2 with
  | ok _ => exact h w (hP hquiet)
  | error e => exact herror w (hP hquiet)

end Action
end EditorSync.Store
