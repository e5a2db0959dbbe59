import EditorSync.Proofs.Store.Actions
import EditorSync.Proofs.Table

namespace EditorSync.Store

open WorkingCopy (Key)

variable {w w' : World} {key : Key} {path : String}

namespace World

def track (w : World) (f : Tracking → Tracking) : World :=
  { w with store := { w.store with tracking := f w.store.tracking } }

def put (w : World) (copy : WorkingCopy) : World :=
  { w with store := { w.store with copies := w.store.copies.insert copy.key copy } }

def retain (w : World) (keep : Key → Bool) : World :=
  { w with store := { w.store with copies := w.store.copies.filter fun k _ => keep k } }

def undergo (w : World) (effect : Shadows.Effect) : World := ⟨w.store.note effect.2, effect.1⟩

def persisted (w : World) (copy : WorkingCopy) : World :=
  if w.store.settings.persist then
    w.undergo (w.store.shadows.write w.disk copy.key.project copy.key.file copy.content)
  else w

def discard (w : World) (key : Key) : World :=
  match w.store.copies.get? key with
  | none => w
  | some _ =>
    if w.store.settings.persist then
      (w.retain (· ≠ key)).undergo (w.store.shadows.remove w.disk key.project key.file)
    else w.retain (· ≠ key)

def rehome (w : World) (old new : Key) (copy : WorkingCopy) : World :=
  let w' := (w.retain (· ≠ old)).put { copy with key := new }
  if w.store.settings.persist then
    w'.undergo (w.store.shadows.rename w.disk old.project old.file new.project new.file)
  else w'

def forgetProject (w : World) (project : String) : World :=
  (w.retain (·.project ≠ project)).track (·.removeUnder project)

end World

section Fields

variable (s : Store) (w : World) (copy : WorkingCopy) (result : Except SyncError Unit)

@[simp] theorem note_shadows : (s.note result).shadows = s.shadows := by cases result <;> rfl

@[simp] theorem note_settings : (s.note result).settings = s.settings := by cases result <;> rfl

@[simp] theorem note_copies : (s.note result).copies = s.copies := by cases result <;> rfl

@[simp] theorem note_tracking : (s.note result).tracking = s.tracking := by cases result <;> rfl

@[simp] theorem World.persisted_settings : (w.persisted copy).store.settings = w.store.settings := by
  unfold World.persisted World.undergo
  split <;> simp

@[simp] theorem World.persisted_copies : (w.persisted copy).store.copies = w.store.copies := by
  unfold World.persisted World.undergo
  split <;> simp

theorem World.get?_put (key : Key) : (w.put copy).store.copies.get? key =
    if key = copy.key then some copy else w.store.copies.get? key :=
  Table.get?_insert _ _ _ _

@[simp] theorem World.persisted_tracking : (w.persisted copy).store.tracking = w.store.tracking := by
  unfold World.persisted World.undergo
  split <;> simp

theorem World.persisted_disk : (w.persisted copy).disk =
    if w.store.settings.persist then
      (w.store.shadows.write w.disk copy.key.project copy.key.file copy.content).1
    else w.disk := by
  unfold World.persisted World.undergo
  split <;> rfl

theorem World.persisted_of_write {disk : Disk} (hpersist : w.store.settings.persist = true)
    (hwrite : w.store.shadows.write w.disk copy.key.project copy.key.file copy.content =
      (disk, .ok ())) : w.persisted copy = { w with disk := disk } := by
  rw [World.persisted, if_pos hpersist, hwrite]
  rfl

end Fields

theorem perform_modifyTracking (f : Tracking → Tracking) (w : World) :
    (modifyTracking f).perform w = (.ok (), w.track f) := rfl

theorem perform_putCopy (copy : WorkingCopy) (w : World) :
    (putCopy copy).perform w = (.ok (), w.put copy) := rfl

theorem perform_persist (copy : WorkingCopy) (w : World) :
    (persist copy).perform w = (.ok (), w.persisted copy) := by
  unfold persist World.persisted
  rw [Action.perform_bind_of_ok _ (Action.perform_get w)]
  split <;> rfl

theorem perform_perform (effect : Store → Disk → Shadows.Effect) (w : World) :
    (perform effect).perform w =
      ((effect w.store w.disk).2, { w with disk := (effect w.store w.disk).1 }) := by
  have hset : (perform effect).perform w =
      (MonadExcept.ofExcept (effect w.store w.disk).2 : Action Unit).perform
        { w with disk := (effect w.store w.disk).1 } := rfl
  rw [hset, Action.perform_ofExcept]

theorem perform_keyOf (path : String) (w : World) :
    (keyOf path).perform w = (w.store.key w.disk path, w) := Action.perform_query _ w

theorem initialContent_eq_ok {s : Store} {disk : Disk} {content : String} {fromShadow : Bool}
    (h : s.initialContent disk key = .ok (content, fromShadow)) :
    fromShadow = true ∧ s.settings.persist = true ∧
        s.shadows.read disk key.project key.file = .ok (some content) ∨
      fromShadow = false ∧
        (s.settings.persist = true → s.shadows.read disk key.project key.file = .ok none) ∧
        ∃ real, s.shadows.readReal disk key.file = .ok real ∧ content = real.getD "" := by
  have hfresh (hfresh : (do
        let real ← s.shadows.readReal disk key.file
        return (real.getD "", false) : Except SyncError (String × Bool)) =
        .ok (content, fromShadow)) :
      fromShadow = false ∧
        ∃ real, s.shadows.readReal disk key.file = .ok real ∧ content = real.getD "" := by
    cases hreal : s.shadows.readReal disk key.file with
    | error e =>
      rw [hreal] at hfresh
      cases hfresh
    | ok real =>
      rw [hreal] at hfresh
      cases hfresh
      exact ⟨rfl, real, rfl, rfl⟩
  unfold initialContent at h
  by_cases hpersist : s.settings.persist = true
  · rw [if_pos hpersist] at h
    cases hread : s.shadows.read disk key.project key.file with
    | error e =>
      rw [hread] at h
      cases h
    | ok shadow =>
      rw [hread] at h
      cases shadow with
      | some text =>
        cases h
        exact .inl ⟨rfl, hpersist, rfl⟩
      | none =>
        obtain ⟨hfalse, hreal⟩ := hfresh h
        exact .inr ⟨hfalse, fun _ => rfl, hreal⟩
  · rw [if_neg hpersist] at h
    obtain ⟨hfalse, hreal⟩ := hfresh h
    exact .inr ⟨hfalse, fun hon => absurd hon hpersist, hreal⟩

inductive Creates (w : World) (key : Key) : Except SyncError WorkingCopy → World → Prop
  | known {copy : WorkingCopy} (hcopy : w.store.copies.get? key = some copy) :
    Creates w key (.ok copy) w
  | loaded {content : String} (hnone : w.store.copies.get? key = none)
    (hcontent : w.store.initialContent w.disk key = .ok (content, true)) :
    Creates w key (.ok (.new key content)) (w.put (.new key content))
  | made {content : String} (hnone : w.store.copies.get? key = none)
    (hcontent : w.store.initialContent w.disk key = .ok (content, false)) :
    Creates w key (.ok (.new key content)) ((w.persisted (.new key content)).put (.new key content))
  | failed {e : SyncError} (hnone : w.store.copies.get? key = none)
    (herror : w.store.initialContent w.disk key = .error e) : Creates w key (.error e) w

theorem creates (w : World) (key : Key) :
    Creates w key ((getOrCreate key).perform w).1 ((getOrCreate key).perform w).2 := by
  unfold getOrCreate
  rw [Action.perform_bind_of_ok _ (Action.perform_get w)]
  cases hcopy : w.store.copies.get? key with
  | some copy => exact .known hcopy
  | none =>
    dsimp only
    rw [Action.perform_bind, Action.perform_query]
    cases hcontent : w.store.initialContent w.disk key with
    | error e => exact .failed hcopy hcontent
    | ok initial =>
      obtain ⟨content, fromShadow⟩ := initial
      cases fromShadow with
      | true => exact .loaded hcopy hcontent
      | false =>
        have hmade := Creates.made hcopy hcontent
        dsimp only
        rw [if_neg Bool.false_ne_true, Action.perform_bind_of_ok _ (perform_persist _ w)]
        exact hmade

theorem Creates.tracking {w' : World} {r : Except SyncError WorkingCopy}
    (h : Creates w key r w') : w'.store.tracking = w.store.tracking := by
  cases h with
  | made => exact w.persisted_tracking _
  | _ => rfl

theorem Creates.get?_eq {w' : World} {copy : WorkingCopy}
    (h : Creates w key (.ok copy) w') : w'.store.copies.get? key = some copy := by
  cases h with
  | known hcopy => exact hcopy
  | loaded => exact Table.get?_insert_self _ _ _
  | made => exact Table.get?_insert_self _ _ _

theorem Creates.eq_of_known {w' : World} {r : Except SyncError WorkingCopy} {copy : WorkingCopy}
    (h : Creates w key r w') (hcopy : w.store.copies.get? key = some copy) :
    r = .ok copy ∧ w' = w := by
  cases h with
  | known hcopy' =>
    cases hcopy'.symm.trans hcopy
    exact ⟨rfl, rfl⟩
  | loaded hnone | made hnone | failed hnone => cases hcopy.symm.trans hnone

inductive Starts (w : World) (path : String) : Except SyncError Snapshot → World → Prop
  | unaddressed {e : SyncError} (hkey : w.store.key w.disk path = .error e) :
    Starts w path (.error e) w
  | failed {key : Key} {e : SyncError} {w' : World} (hkey : w.store.key w.disk path = .ok key)
    (hcreate : Creates (w.track (·.start key.file)) key (.error e) w') :
    Starts w path (.error e) w'
  | unread {key : Key} {copy : WorkingCopy} {e : SyncError} {w' : World}
    (hkey : w.store.key w.disk path = .ok key)
    (hcreate : Creates (w.track (·.start key.file)) key (.ok copy) w')
    (hverify : w'.store.settings.verifyOnStart = true)
    (hreal : w'.store.shadows.readReal w'.disk key.file = .error e) : Starts w path (.error e) w'
  | kept {key : Key} {copy : WorkingCopy} {w' : World} (hkey : w.store.key w.disk path = .ok key)
    (hcreate : Creates (w.track (·.start key.file)) key (.ok copy) w')
    (hsame : w'.store.settings.verifyOnStart = true →
      ∃ real, w'.store.shadows.readReal w'.disk key.file = .ok real ∧
        ∀ text, real = some text → Digest.Sha256.hex text = Digest.Sha256.hex copy.content) :
    Starts w path (.ok (.of copy.resetSequence)) (w'.put copy.resetSequence)
  | renewed {key : Key} {copy : WorkingCopy} {text : String} {w' : World}
    (hkey : w.store.key w.disk path = .ok key)
    (hcreate : Creates (w.track (·.start key.file)) key (.ok copy) w')
    (hverify : w'.store.settings.verifyOnStart = true)
    (hreal : w'.store.shadows.readReal w'.disk key.file = .ok (some text))
    (hdiffers : Digest.Sha256.hex text ≠ Digest.Sha256.hex copy.content) :
    Starts w path (.ok (.of (copy.reset text)))
      ((w'.persisted (copy.reset text)).put (copy.reset text))

theorem starts (w : World) (path : String) :
    Starts w path ((start path).perform w).1 ((start path).perform w).2 := by
  unfold start
  rw [Action.perform_bind, perform_keyOf]
  cases hkey : w.store.key w.disk path with
  | error e => exact .unaddressed hkey
  | ok key =>
    dsimp only
    rw [Action.perform_bind_of_ok _ (perform_modifyTracking _ w), Action.perform_bind]
    have hcreate := creates (w.track (·.start key.file)) key
    cases hcreated : (getOrCreate key).perform (w.track (·.start key.file)) with
    | mk created w' =>
      rw [hcreated] at hcreate
      cases created with
      | error e => exact .failed hkey hcreate
      | ok copy =>
        dsimp only at hcreate ⊢
        rw [Action.perform_bind_of_ok _ (Action.perform_get w')]
        by_cases hverify : w'.store.settings.verifyOnStart = true
        · rw [if_pos hverify, Action.perform_bind, Action.perform_query]
          cases hreal : w'.store.shadows.readReal w'.disk key.file with
          | error e => exact .unread hkey hcreate hverify hreal
          | ok real =>
            cases real with
            | none => exact .kept hkey hcreate fun _ => ⟨none, hreal, fun _ h => nomatch h⟩
            | some text =>
              dsimp only
              by_cases hsame : Digest.Sha256.hex text = Digest.Sha256.hex copy.content
              · rw [if_pos hsame]
                exact .kept hkey hcreate fun _ => ⟨some text, hreal, fun _ h => by
                  rw [← Option.some.inj h]
                  exact hsame⟩
              · rw [if_neg hsame]
                have hrenewed := Starts.renewed hkey hcreate hverify hreal hsame
                simp only [pure_bind]
                rw [Action.perform_bind_of_ok _ (perform_persist _ w')]
                exact hrenewed
        · rw [if_neg hverify]
          exact .kept hkey hcreate fun h => absurd h hverify

inductive Applies (w : World) (changes : EditorChanges) :
    Except SyncError ApplyOutcome → World → Prop
  | undecoded {e : SyncError} (hdelta : changes.toDelta = .error e) : Applies w changes (.error e) w
  | unaddressed {e : SyncError} (hkey : w.store.key w.disk changes.file = .error e) :
    Applies w changes (.error e) w
  | outside {e : SyncError} (hproject : Workspace.normalize changes.project = .error e) :
    Applies w changes (.error e) w
  | foreign {key : Key} {project : String} (hkey : w.store.key w.disk changes.file = .ok key)
    (hproject : Workspace.normalize changes.project = .ok project) (hother : project ≠ key.project) :
    Applies w changes (.error (.projectResolution key.file)) w
  | suspended {key : Key} (hkey : w.store.key w.disk changes.file = .ok key)
    (hrefuses : w.store.tracking.acceptsDeltas key.file = false) : Applies w changes (.ok .skipped) w
  | failed {key : Key} {e : SyncError} {w' : World} (hkey : w.store.key w.disk changes.file = .ok key)
    (hcreate : Creates w key (.error e) w') : Applies w changes (.error e) w'
  | discarded {key : Key} {copy : WorkingCopy} {w' : World}
    (hkey : w.store.key w.disk changes.file = .ok key) (hcreate : Creates w key (.ok copy) w')
    (hdiscarded : copy.discarded = true) : Applies w changes (.ok .skipped) w'
  | rejected {key : Key} {copy : WorkingCopy} {delta : Delta} {e : SyncError} {w' : World}
    (hdelta : changes.toDelta = .ok delta) (hkey : w.store.key w.disk changes.file = .ok key)
    (hcreate : Creates w key (.ok copy) w')
    (happly : copy.apply delta changes.seq w'.store.settings.encoding
      w'.store.settings.maxPending = .error e) : Applies w changes (.error e) w'
  | held {key : Key} {copy copy' : WorkingCopy} {delta : Delta} {w' : World}
    (hdelta : changes.toDelta = .ok delta) (hkey : w.store.key w.disk changes.file = .ok key)
    (hproject : Workspace.normalize changes.project = .ok key.project)
    (haccepts : w.store.tracking.acceptsDeltas key.file = true)
    (hcreate : Creates w key (.ok copy) w') (hlive : copy.discarded = false)
    (happly : copy.apply delta changes.seq w'.store.settings.encoding
      w'.store.settings.maxPending = .ok (copy', [])) :
    Applies w changes (.ok (.buffered (changes.seq.getD 0))) (w'.put copy')
  | taken {key : Key} {copy copy' : WorkingCopy} {delta : Delta}
    {applied : List WorkingCopy.Applied} {w' : World} (hdelta : changes.toDelta = .ok delta)
    (hkey : w.store.key w.disk changes.file = .ok key)
    (hproject : Workspace.normalize changes.project = .ok key.project)
    (haccepts : w.store.tracking.acceptsDeltas key.file = true)
    (hcreate : Creates w key (.ok copy) w') (hlive : copy.discarded = false)
    (happly : copy.apply delta changes.seq w'.store.settings.encoding
      w'.store.settings.maxPending = .ok (copy', applied)) (hne : applied ≠ []) :
    Applies w changes
      (.ok (.applied (applied.map fun a => (a, ⟨key, ownerOf changes key.file, a.content⟩))))
      ((w'.put copy').persisted copy')

theorem applies (w : World) (changes : EditorChanges) :
    Applies w changes ((apply changes).perform w).1 ((apply changes).perform w).2 := by
  unfold Store.apply
  rw [Action.perform_bind, Action.perform_ofExcept]
  cases hdelta : changes.toDelta with
  | error e => exact .undecoded hdelta
  | ok delta =>
    dsimp only
    rw [Action.perform_bind, perform_keyOf]
    cases hkey : w.store.key w.disk changes.file with
    | error e => exact .unaddressed hkey
    | ok key =>
      dsimp only
      rw [Action.perform_bind, Action.perform_query]
      cases hproject : Workspace.normalize changes.project with
      | error e => exact .outside hproject
      | ok project =>
        dsimp only
        by_cases hother : project ≠ key.project
        · rw [if_pos hother]
          exact .foreign hkey hproject hother
        rw [if_neg hother]
        obtain rfl : project = key.project := Decidable.not_not.mp hother
        rw [Action.perform_bind_of_ok _ (Action.perform_get w)]
        cases haccepts : w.store.tracking.acceptsDeltas key.file with
        | false => exact .suspended hkey haccepts
        | true =>
          rw [if_neg (by decide), Action.perform_bind]
          have hcreate := creates w key
          cases hcreated : (getOrCreate key).perform w with
          | mk created w' =>
            rw [hcreated] at hcreate
            cases created with
            | error e => exact .failed hkey hcreate
            | ok copy =>
              dsimp only at hcreate ⊢
              cases hlive : copy.discarded with
              | true => exact .discarded hkey hcreate hlive
              | false =>
                rw [if_neg Bool.false_ne_true,
                  Action.perform_bind_of_ok _ (Action.perform_get w'), Action.perform_bind,
                  Action.perform_ofExcept]
                cases happly : copy.apply delta changes.seq w'.store.settings.encoding
                    w'.store.settings.maxPending with
                | error e => exact .rejected hdelta hkey hcreate happly
                | ok result =>
                  obtain ⟨copy', applied⟩ := result
                  dsimp only
                  rw [Action.perform_bind_of_ok _ (perform_putCopy copy' w')]
                  cases applied with
                  | nil => exact .held hdelta hkey hproject haccepts hcreate hlive happly
                  | cons a rest =>
                    have htaken := Applies.taken hdelta hkey hproject haccepts hcreate hlive happly
                      (List.cons_ne_nil a rest)
                    rw [List.isEmpty_cons, if_neg Bool.false_ne_true,
                      Action.perform_bind_of_ok _ (perform_persist copy' _)]
                    exact htaken

theorem perform_discard (key : Key) (w : World) :
    (discard key).perform w =
      (.ok ((w.store.copies.get? key).map fun copy => { copy with discarded := true }),
        w.discard key) := by
  unfold discard World.discard
  rw [Action.perform_bind_of_ok _ (Action.perform_get w)]
  cases w.store.copies.get? key with
  | none => rfl
  | some copy =>
    dsimp only
    rw [Action.perform_bind_of_ok _ (Action.perform_modifyStore _ w),
      Action.perform_bind_of_ok _ (Action.perform_get _)]
    dsimp only
    split <;> rfl

theorem perform_stop (path : String) (w : World) :
    (stop path).perform w =
      match w.store.key w.disk path with
      | .error e => (.error e, w)
      | .ok key => (.ok (), (w.track (·.stop key.file)).discard key) := by
  unfold stop
  rw [Action.perform_bind, perform_keyOf]
  cases w.store.key w.disk path with
  | error e => rfl
  | ok key =>
    dsimp only
    rw [Action.perform_bind_of_ok _ (perform_modifyTracking _ w),
      Action.perform_bind_of_ok _ (perform_discard key _)]
    rfl

theorem perform_discardFile (path : String) (w : World) :
    (discardFile path).perform w =
      match w.store.key w.disk path with
      | .error e => (.error e, w)
      | .ok key =>
        (.ok (w.store.copies.get? key).isSome, (w.track (·.stop key.file)).discard key) := by
  unfold discardFile
  rw [Action.perform_bind, perform_keyOf]
  cases w.store.key w.disk path with
  | error e => rfl
  | ok key =>
    dsimp only
    rw [Action.perform_bind_of_ok _ (perform_modifyTracking _ w),
      Action.perform_bind_of_ok _ (perform_discard key _), Action.perform_pure, Option.isSome_map]
    rfl

theorem perform_suspend (path : String) (w : World) :
    (suspend path).perform w =
      match Workspace.normalize path with
      | .error e => (.error e, w)
      | .ok file => (.ok (), w.track (·.suspend file)) := by
  unfold suspend
  rw [Action.perform_bind, Action.perform_query]
  cases Workspace.normalize path <;> rfl

theorem perform_resume (path : String) (w : World) :
    (resume path).perform w =
      match Workspace.normalize path with
      | .error e => (.error e, w)
      | .ok file => (.ok (), w.track (·.resume file)) := by
  unfold resume
  rw [Action.perform_bind, Action.perform_query]
  cases Workspace.normalize path <;> rfl

theorem perform_move (old new : String) (w : World) :
    (move old new).perform w =
      match w.store.key w.disk old, w.store.key w.disk new with
      | .error e, _ => (.error e, w)
      | _, .error e => (.error e, w)
      | .ok oldKey, .ok newKey =>
        match w.store.copies.get? oldKey with
        | none => (.ok none, w.track (·.rename oldKey.file newKey.file))
        | some copy => (.ok (some (.of { copy with key := newKey })),
            (w.track (·.rename oldKey.file newKey.file)).rehome oldKey newKey copy) := by
  unfold move
  rw [Action.perform_bind, perform_keyOf]
  cases w.store.key w.disk old with
  | error e => rfl
  | ok oldKey =>
    dsimp only
    rw [Action.perform_bind, perform_keyOf]
    cases w.store.key w.disk new with
    | error e => rfl
    | ok newKey =>
      dsimp only
      rw [Action.perform_bind_of_ok _ (perform_modifyTracking _ w),
        Action.perform_bind_of_ok _ (Action.perform_get _)]
      have htable : (w.track (·.rename oldKey.file newKey.file)).store.copies = w.store.copies := rfl
      rw [htable]
      cases w.store.copies.get? oldKey with
      | none => rfl
      | some copy =>
        dsimp only
        generalize w.track (·.rename oldKey.file newKey.file) = w₁
        rw [Action.perform_bind_of_ok _ (Action.perform_modifyStore _ w₁),
          Action.perform_bind_of_ok _ (Action.perform_get _)]
        unfold World.rehome
        dsimp only
        split <;> rfl

theorem perform_snapshot (path : String) (w : World) :
    (snapshot path).perform w =
      (match w.store.key w.disk path with
      | .error e => .error e
      | .ok key =>
        match w.store.copies.get? key with
        | some copy => .ok (.of copy)
        | none => .error (.unknownWorkingCopy key.file), w) := by
  unfold Store.snapshot
  rw [Action.perform_bind, perform_keyOf]
  cases w.store.key w.disk path with
  | error e => rfl
  | ok key =>
    dsimp only
    rw [Action.perform_bind_of_ok _ (Action.perform_get w)]
    cases w.store.copies.get? key <;> rfl

theorem perform_discardProject (path : String) (w : World) :
    (discardProject path).perform w =
      match Workspace.normalize path with
      | .error e => (.error e, w)
      | .ok project =>
        let effect := w.store.shadows.removeProject w.disk project
        (effect.2.map fun _ =>
            ((w.store.copies.filter fun key _ => key.project = project).entries.map
              fun (_, copy) => copy.key.file).mergeSort (fun a b => a ≤ b),
          { w.forgetProject project with disk := effect.1 }) := by
  unfold discardProject
  rw [Action.perform_bind, Action.perform_query]
  cases Workspace.normalize path with
  | error e => rfl
  | ok project =>
    dsimp only
    rw [Action.perform_bind_of_ok _ (Action.perform_get w),
      Action.perform_bind_of_ok _ (Action.perform_modifyStore _ w),
      Action.perform_bind_of_ok _ (perform_modifyTracking _ _), Action.perform_bind,
      perform_perform]
    dsimp only [World.track]
    cases (w.store.shadows.removeProject w.disk project).2 <;> rfl

theorem World.discard_absent (hnone : w.store.copies.get? key = none) : w.discard key = w := by
  rw [World.discard, hnone]

theorem World.discard_present {copy : WorkingCopy} (hcopy : w.store.copies.get? key = some copy)
    (hpersist : w.store.settings.persist = true) : w.discard key =
      (w.retain (· ≠ key)).undergo (w.store.shadows.remove w.disk key.project key.file) := by
  rw [World.discard, hcopy]
  exact if_pos hpersist

theorem World.discard_tracking (w : World) (key : Key) :
    (w.discard key).store.tracking = w.store.tracking := by
  unfold World.discard
  split
  · rfl
  · split
    · exact note_tracking _ _
    · rfl

theorem World.get?_discard (w : World) (key k : Key) :
    (w.discard key).store.copies.get? k = if k = key then none else w.store.copies.get? k := by
  have hretain : (w.retain (· ≠ key)).store.copies.get? k =
      if k = key then none else w.store.copies.get? k := Table.get?_erase _ _ _
  unfold World.discard
  split
  · rename_i hnone
    split
    · rename_i hk
      rw [hk, hnone]
    · rfl
  · split
    · dsimp only [World.undergo]
      rw [note_copies, hretain]
    · exact hretain

theorem World.rehome_tracking (w : World) (old new : Key) (copy : WorkingCopy) :
    (w.rehome old new copy).store.tracking = w.store.tracking := by
  unfold World.rehome
  dsimp only
  split
  · exact note_tracking _ _
  · rfl

theorem World.get?_rehome (w : World) (old new : Key) (copy : WorkingCopy) (k : Key) :
    (w.rehome old new copy).store.copies.get? k =
      if k = new then some { copy with key := new }
      else if k = old then none else w.store.copies.get? k := by
  have hput : ((w.retain (· ≠ old)).put { copy with key := new }).store.copies.get? k =
      if k = new then some { copy with key := new }
      else if k = old then none else w.store.copies.get? k := by
    refine (Table.get?_insert _ _ _ _).trans ?_
    split
    · rfl
    · exact Table.get?_erase _ _ _
  unfold World.rehome
  dsimp only
  split
  · dsimp only [World.undergo]
    rw [note_copies]
    exact hput
  · exact hput

end EditorSync.Store
