import Mathlib.Order.Defs.Unbundled

/-! Computations with a state that may fail. What has happened to the state stays then. -/

namespace EditorSync.Procedure

variable {ε σ α β γ ι : Type}

theorem bind_eq_ok_iff {x : Except ε α} {f : α → Except ε β} {b : β} :
    (x >>= f) = .ok b ↔ ∃ a, x = .ok a ∧ f a = .ok b := by
  cases x <;> simp [bind, Except.bind]

theorem run_bind (x : ExceptT ε (StateM σ) α) (f : α → ExceptT ε (StateM σ) β) (s : σ) :
    (x >>= f).run s =
      match x.run s with
      | (.ok a, s') => (f a).run s'
      | (.error e, s') => (.error e, s') := by
  change ((x >>= f) : ExceptT ε (StateM σ) β) s = match x s with
    | (.ok a, s') => f a s'
    | (.error e, s') => (.error e, s')
  simp only [bind, ExceptT.bind, ExceptT.mk, StateT.bind, ExceptT.bindCont]
  cases x s with
  | mk result s' => cases result <;> rfl

theorem run_ofExcept (r : Except ε α) (s : σ) :
    (MonadExcept.ofExcept r : ExceptT ε (StateM σ) α).run s = (r, s) := by
  cases r <;> rfl

theorem run_map (f : α → β) (x : ExceptT ε (StateM σ) α) (s : σ) :
    (f <$> x).run s =
      match x.run s with
      | (.ok a, s') => (.ok (f a), s')
      | (.error e, s') => (.error e, s') := by
  rw [← bind_pure_comp, run_bind]
  rfl

theorem run_get_bind (f : σ → ExceptT ε (StateM σ) β) (s : σ) :
    ((get : ExceptT ε (StateM σ) σ) >>= f).run s = (f s).run s := rfl

theorem run_modify_bind (g : σ → σ) (f : PUnit → ExceptT ε (StateM σ) β) (s : σ) :
    ((modify g : ExceptT ε (StateM σ) PUnit) >>= f).run s = (f ⟨⟩).run (g s) := rfl

theorem run_tryCatch (x : ExceptT ε (StateM σ) α) (f : ε → ExceptT ε (StateM σ) α) (s : σ) :
    (tryCatch x f).run s =
      match x.run s with
      | (.ok a, s') => (.ok a, s')
      | (.error e, s') => (f e).run s' := by
  change ((tryCatch x f) : ExceptT ε (StateM σ) α) s = match x s with
    | (.ok a, s') => (.ok a, s')
    | (.error e, s') => f e s'
  simp only [tryCatch, tryCatchThe, MonadExceptOf.tryCatch, ExceptT.tryCatch, ExceptT.mk, bind,
    StateT.bind]
  cases x s with
  | mk result s' => cases result <;> rfl

def Respects (R : σ → σ → Prop) (x : ExceptT ε (StateM σ) α) : Prop := ∀ s, R s (x.run s).2

section Respects

variable {R : σ → σ → Prop} {x : ExceptT ε (StateM σ) α} {f : α → ExceptT ε (StateM σ) β}

theorem Respects.bind [IsPreorder σ R] (hx : Respects R x) (hf : ∀ a, Respects R (f a)) :
    Respects R (x >>= f) := by
  intro s
  have hs := hx s
  rw [run_bind]
  rcases hrun : x.run s with ⟨r, s'⟩
  rw [hrun] at hs
  cases r with
  | error e => exact hs
  | ok a => exact IsTrans.trans _ _ _ hs (hf a s')

theorem respects_pure [IsPreorder σ R] (a : α) :
    Respects R (pure a : ExceptT ε (StateM σ) α) := fun s => refl s

theorem respects_throw [IsPreorder σ R] (e : ε) :
    Respects R (throw e : ExceptT ε (StateM σ) α) := fun s => refl s

theorem respects_modify {g : σ → σ} (h : ∀ s, R s (g s)) :
    Respects R (modify g : ExceptT ε (StateM σ) PUnit) := h

theorem respects_get_bind {g : σ → ExceptT ε (StateM σ) β} (h : ∀ s, R s ((g s).run s).2) :
    Respects R ((get : ExceptT ε (StateM σ) σ) >>= g) := h

theorem Respects.tryCatch [IsPreorder σ R] {g : ε → ExceptT ε (StateM σ) α} (hx : Respects R x)
    (hg : ∀ e, Respects R (g e)) : Respects R (tryCatch x g) := by
  intro s
  have hs := hx s
  rw [run_tryCatch]
  rcases hrun : x.run s with ⟨r, s'⟩
  rw [hrun] at hs
  cases r with
  | ok a => exact hs
  | error e => exact IsTrans.trans _ _ _ hs (hg e s')

theorem respects_forIn [IsPreorder σ R] {g : ι → PUnit → ExceptT ε (StateM σ) (ForInStep PUnit)}
    (h : ∀ i, Respects R (g i ⟨⟩)) (items : List ι) : Respects R (forIn items ⟨⟩ g) := by
  induction items with
  | nil => exact respects_pure _
  | cons i rest ih =>
    rw [List.forIn_cons]
    refine (h i).bind fun step => ?_
    cases step with
    | done => exact respects_pure _
    | yield => exact ih

end Respects

def Same (view : σ → γ) (s s' : σ) : Prop := view s' = view s

instance (view : σ → γ) : IsPreorder σ (Same view) where
  refl _ := rfl
  trans _ _ _ h h' := h'.trans h

theorem view_bind {view : σ → γ} {x : ExceptT ε (StateM σ) α}
    {f : α → ExceptT ε (StateM σ) β} (hf : ∀ a, Respects (Same view) (f a)) (s : σ) :
    view ((x >>= f).run s).2 = view (x.run s).2 := by
  rw [run_bind]
  rcases x.run s with ⟨r, s'⟩
  cases r with
  | error e => rfl
  | ok a => exact hf a s'

end EditorSync.Procedure
