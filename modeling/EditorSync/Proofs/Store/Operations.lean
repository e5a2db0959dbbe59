import EditorSync.Proofs.Store.Durability
import EditorSync.Proofs.WorkingCopy.Transitions

namespace EditorSync.Store

open Disk (Grounds Alters)
open WorkingCopy (Key)
open EditorSync.Store.Action (Ensures)
open Procedure (bind_eq_ok_iff)

variable {r : Setup} {loose : Key → Prop} {w : World} {key : Key} {disk : Disk}
variable {path content : String} {copy : WorkingCopy}

theorem key_eq_ok_iff {s : Store} : s.key disk path = .ok key ↔
    Workspace.normalize path = .ok key.file ∧
      (∃ real, s.workspace.realPath disk key.file = .ok real) ∧
      s.workspace.projectOf disk key.file = .ok key.project := by
  simp only [Store.key, bind_eq_ok_iff]
  constructor
  · rintro ⟨file, hfile, real, hreal, project, hproject, hkey⟩
    cases hkey
    exact ⟨hfile, ⟨real, hreal⟩, hproject⟩
  · rintro ⟨hfile, ⟨real, hreal⟩, hproject⟩
    exact ⟨key.file, hfile, real, hreal, key.project, hproject, rfl⟩

theorem key_eq_ok {s : Store} (h : s.key disk path = .ok key) :
    Path.normalize? path = some key.file ∧ Path.normalize? key.file = some key.file ∧
      s.workspace.owner? key.file = some key.project := by
  obtain ⟨hfile, -, hproject⟩ := key_eq_ok_iff.mp h
  have hpath := Workspace.normalize_eq_ok_iff.mp hfile
  have hnormal := (Path.normalize?_normal hpath).1
  obtain ⟨file', hfile', howner⟩ := Workspace.owner?_of_projectOf hproject
  rw [hnormal, Option.some.injEq] at hfile'
  subst hfile'
  exact ⟨hpath, hnormal, howner⟩

theorem initialContent_eq_ok_iff {s : Store} (hpersist : s.settings.persist = true) :
    s.initialContent disk key = .ok (content, true) ↔
      s.shadows.read disk key.project key.file = .ok (some content) := by
  unfold initialContent
  rw [if_pos hpersist]
  cases s.shadows.read disk key.project key.file with
  | error e => constructor <;> intro h <;> cases h
  | ok shadow =>
    cases shadow with
    | none =>
      simp only [bind, Except.bind, pure, Except.pure]
      cases s.shadows.readReal disk key.file <;> constructor <;> intro h <;> cases h
    | some text =>
      simp only [bind, Except.bind, pure, Except.pure, Except.ok.injEq, Prod.mk.injEq, and_true,
        Option.some.injEq]

theorem ensures_keyOf (hused : ∀ file, Path.normalize? path = some file → r.used file)
    (known : Prop) :
    Ensures (fun w => r.Durable (fun _ => False) w ∧ known) (keyOf path)
      (fun key w => r.Durable (fun _ => False) w ∧
        (Path.normalize? path = some key.file ∧ r.Addresses key) ∧ known)
      (r.Durable fun _ => False) := by
  refine Action.ensures_query ?_ fun w h => h.1
  rintro w key ⟨h, hknown⟩ hkey
  obtain ⟨hpath, hnormal, howner⟩ := key_eq_ok hkey
  rw [Store.workspace, h.shadows_eq] at howner
  exact ⟨h, ⟨hpath, hused _ hpath, hnormal, howner⟩, hknown⟩

theorem ensures_persist (hserves : r.Serves) (hpersist : r.settings.persist = true)
    (T : Store → Prop) {E : World → Prop} :
    Ensures (fun w => r.Durable (· = copy.key) w ∧ r.Awake copy.key ∧ T w.store) (persist copy)
      (fun _ w => (r.Durable (· = copy.key) w ∧ r.Awake copy.key ∧
        r.shadows.read w.disk copy.key.project copy.key.file = .ok (some copy.content)) ∧ T w.store)
      E := by
  refine Action.ensures_get.bind fun v => ?_
  split
  · apply Action.ensures_attempt
    rintro w ⟨⟨h, hkey, hT⟩, rfl⟩ hwrite
    rw [h.shadows_eq] at hwrite ⊢
    obtain ⟨hdurable, hread⟩ := h.write hserves hkey.1 hwrite
    exact ⟨⟨hdurable, hkey, hread⟩, hT⟩
  · rename_i hoff
    apply Action.ensures_pure
    rintro w ⟨⟨h, -⟩, rfl⟩
    rw [h.settings_eq] at hoff
    exact absurd hpersist hoff

theorem ensures_putCopy (S : Disk → Prop) {E : World → Prop} :
    Ensures (fun w => r.Durable (· = copy.key) w ∧ r.Awake copy.key ∧ S w.disk) (putCopy copy)
      (fun _ w => r.Durable (· = copy.key) w ∧ r.Awake copy.key ∧
        w.store.copies.get? copy.key = some copy ∧ S w.disk) E := by
  refine Action.ensures_modifyStore (fun _ => rfl) ?_
  rintro w ⟨h, hkey, hS⟩
  exact ⟨h.put hkey, hkey, Table.get?_insert_self _ _ _, hS⟩

theorem ensures_putCopy_settled {E : World → Prop} :
    Ensures
      (fun w => r.Durable (· = copy.key) w ∧ r.Awake copy.key ∧
        r.shadows.read w.disk copy.key.project copy.key.file = .ok (some copy.content))
      (putCopy copy)
      (fun _ w => r.Durable (fun _ => False) w ∧ r.Awake copy.key ∧
        w.store.copies.get? copy.key = some copy) E := by
  have hput := @ensures_putCopy r copy (fun disk =>
    r.shadows.read disk copy.key.project copy.key.file = .ok (some copy.content)) E
  refine hput.post fun _ w h => ?_
  obtain ⟨hdurable, hkey, hcopy, hread⟩ := h
  exact ⟨hdurable.settle hkey hcopy hread, hkey, hcopy⟩

theorem ensures_getOrCreate (hserves : r.Serves) (hpersist : r.settings.persist = true) :
    Ensures (fun w => r.Durable (fun _ => False) w ∧ r.Awake key) (getOrCreate key)
      (fun copy w => r.Durable (fun _ => False) w ∧ r.Awake key ∧
        w.store.copies.get? key = some copy)
      (r.Durable fun _ => False) := by
  refine Action.ensures_get.bind fun v => ?_
  split
  · rename_i copy hcopy
    apply Action.ensures_pure
    rintro w ⟨⟨h, hkey⟩, rfl⟩
    exact ⟨h, hkey, hcopy⟩
  · have hcontent : Ensures (fun w => (r.Durable (fun _ => False) w ∧ r.Awake key) ∧ w = v)
        (query fun s disk => s.initialContent disk key)
        (fun x w => r.Durable (fun _ => False) w ∧ r.Awake key ∧
          (x.2 = true → r.shadows.read w.disk key.project key.file = .ok (some x.1)))
        (r.Durable fun _ => False) := by
      refine Action.ensures_query ?_ fun w h => h.1.1
      rintro w ⟨content, fromShadow⟩ ⟨⟨h, hkey⟩, -⟩ hcontent
      refine ⟨h, hkey, ?_⟩
      rintro rfl
      have hread := (initialContent_eq_ok_iff (h.settings_eq ▸ hpersist)).mp hcontent
      rwa [h.shadows_eq] at hread
    apply hcontent.bind
    rintro ⟨content, fromShadow⟩
    have hput : Ensures
        (fun w => r.Durable (· = key) w ∧ r.Awake key ∧
          r.shadows.read w.disk key.project key.file = .ok (some content))
        (do putCopy (.new key content); return WorkingCopy.new key content)
        (fun copy w => r.Durable (fun _ => False) w ∧ r.Awake key ∧
          w.store.copies.get? key = some copy)
        (r.Durable fun _ => False) := by
      have hnew := @ensures_putCopy_settled r (.new key content) (r.Durable fun _ => False)
      exact hnew.bind fun _ => Action.ensures_pure fun w h => h
    cases fromShadow with
    | true => exact hput.pre fun w h => ⟨h.1.loosen fun _ => False.elim, h.2.1, h.2.2 rfl⟩
    | false =>
      have hwritten := @ensures_persist r (.new key content) hserves hpersist (fun _ => True)
        (r.Durable fun _ => False)
      refine (hwritten.pre fun w h => ?_).bind fun _ => hput.pre fun w h => h.1
      exact ⟨h.1.loosen fun _ => False.elim, h.2.1, trivial⟩

theorem ensures_modifyTracking {P : World → Prop} {E : World → Prop} (f : Tracking → Tracking)
    (h : ∀ w, P w → P { w with store := { w.store with tracking := f w.store.tracking } }) :
    Ensures P (modifyTracking f) (fun _ => P) E :=
  Action.ensures_modifyStore (fun _ => rfl) h

theorem ensures_start (hserves : r.Serves) (hpersist : r.settings.persist = true)
    (hused : ∀ file, Path.normalize? path = some file → r.used file)
    (hspared : ∀ k c, r.rest k c → Path.normalize? path ≠ some k.file) :
    Ensures (r.Durable fun _ => False) (start path) (fun _ => r.Durable fun _ => False)
      (r.Durable fun _ => False) := by
  refine ((ensures_keyOf hused True).pre fun w h => ⟨h, trivial⟩).bind fun key => ?_
  refine (ensures_modifyTracking _ fun w h => ⟨h.1.track _, h.2⟩).bind fun _ => ?_
  have hcreate := (@ensures_getOrCreate r key hserves hpersist).pre fun w
    (h : r.Durable (fun _ => False) w ∧
      (Path.normalize? path = some key.file ∧ r.Addresses key) ∧ True) =>
      ⟨h.1, h.2.1.2, fun c hc => hspared key c hc h.2.1.1⟩
  refine hcreate.bind fun copy => ?_
  have hput (c : WorkingCopy) : Ensures
      (fun w => r.Durable (· = key) w ∧ r.Awake key ∧
        r.shadows.read w.disk key.project key.file = .ok (some c.content) ∧ c.key = key)
      (do putCopy c.resetSequence; return Snapshot.of c.resetSequence)
      (fun _ => r.Durable fun _ => False) (r.Durable fun _ => False) := by
    have hreset := @ensures_putCopy_settled r c.resetSequence (r.Durable fun _ => False)
    refine (hreset.pre ?_).bind fun _ => Action.ensures_pure fun w h => h.1
    rintro w ⟨h, hkey, hread, rfl⟩
    exact ⟨h, hkey, hread⟩
  have hkept : Ensures
      (fun w => r.Durable (fun _ => False) w ∧ r.Awake key ∧ w.store.copies.get? key = some copy)
      (do putCopy copy.resetSequence; return Snapshot.of copy.resetSequence)
      (fun _ => r.Durable fun _ => False) (r.Durable fun _ => False) := by
    refine (hput copy).pre ?_
    rintro w ⟨h, hkey, hcopy⟩
    have hread := h.kept key copy.content id (.inl ⟨copy, hcopy, rfl⟩)
    exact ⟨h.loosen fun _ => False.elim, hkey, hread, (h.keyed key copy hcopy).1⟩
  refine Action.ensures_get.bind fun v => ?_
  simp only [pure_bind]
  have hplain := hkept.pre fun w (h : (r.Durable (fun _ => False) w ∧ r.Awake key ∧
    w.store.copies.get? key = some copy) ∧ w = v) => h.1
  split
  · refine (Action.ensures_query (fun w real h _ => h.1) fun w h => h.1.1).bind fun real => ?_
    split
    · rename_i text
      split
      · exact hkept
      · have hwritten := @ensures_persist r (copy.reset text) hserves hpersist
          (fun _ => copy.key = key) (r.Durable fun _ => False)
        refine (hwritten.pre ?_).bind fun _ => (hput (copy.reset text)).pre ?_
        · rintro w ⟨h, hkey, hcopy⟩
          have heq : copy.key = key := (h.keyed key copy hcopy).1
          subst heq
          exact ⟨h.loosen fun _ => False.elim, hkey, rfl⟩
        · rintro w ⟨⟨h, hkey, hread⟩, rfl⟩
          exact ⟨h, hkey, hread, rfl⟩
    · exact hkept
  · exact hplain

theorem ensures_discard (hserves : r.Serves) :
    Ensures (fun w => r.Durable (fun _ => False) w ∧ r.Addresses key) (discard key)
      (fun _ => r.Durable fun _ => False) (r.Durable fun _ => False) := by
  refine Action.ensures_get.bind fun v => ?_
  split
  · exact Action.ensures_pure fun w h => h.1.1
  · rename_i copy hcopy
    have herase : Ensures (fun w => (r.Durable (fun _ => False) w ∧ r.Addresses key) ∧ w = v)
        (modifyStore fun s => { s with copies := s.copies.erase key })
        (fun _ w => r.Durable (fun _ => False) w ∧ r.Addresses key ∧ ∀ c, ¬r.Holds w key c)
        (r.Durable fun _ => False) := by
      refine Action.ensures_modifyStore (fun _ => rfl) ?_
      rintro w ⟨⟨h, hkey⟩, rfl⟩
      refine ⟨h.filter _, hkey, fun c hholds => ?_⟩
      rcases hholds with ⟨copy', hcopy', -⟩ | hresting
      · rw [Table.get?_erase, if_pos rfl] at hcopy'
        cases hcopy'
      · rw [(h.resting key c hresting).1] at hcopy
        cases hcopy
    refine herase.bind fun _ => Action.ensures_get.bind fun v' => ?_
    split
    · refine Ensures.bind (Action.ensures_attempt ?_) fun _ => Action.ensures_pure fun w h => h
      rintro w ⟨⟨h, hkey, hnone⟩, -⟩ -
      rw [h.shadows_eq]
      exact h.remove hserves hkey hnone
    · exact Action.ensures_pure fun w h => h.1.1

theorem ensures_forget {β : Type} (result : Option WorkingCopy → β) (hserves : r.Serves)
    (hused : ∀ file, Path.normalize? path = some file → r.used file) :
    Ensures (r.Durable fun _ => False)
      (do
        let key ← keyOf path
        modifyTracking (·.stop key.file)
        let copy ← discard key
        return result copy)
      (fun _ => r.Durable fun _ => False) (r.Durable fun _ => False) := by
  refine ((ensures_keyOf hused True).pre fun w h => ⟨h, trivial⟩).bind fun key => ?_
  refine (ensures_modifyTracking _ fun w h => ⟨h.1.track _, h.2⟩).bind fun _ => ?_
  refine ((ensures_discard hserves).pre fun w h => ⟨h.1, h.2.1.2⟩).bind fun _ => ?_
  exact Action.ensures_pure fun w h => h

theorem ensures_stop (hserves : r.Serves)
    (hused : ∀ file, Path.normalize? path = some file → r.used file) :
    Ensures (r.Durable fun _ => False) (stop path) (fun _ => r.Durable fun _ => False)
      (r.Durable fun _ => False) :=
  ensures_forget (fun _ => ()) hserves hused

theorem ensures_discardFile (hserves : r.Serves)
    (hused : ∀ file, Path.normalize? path = some file → r.used file) :
    Ensures (r.Durable fun _ => False) (discardFile path) (fun _ => r.Durable fun _ => False)
      (r.Durable fun _ => False) :=
  ensures_forget Option.isSome hserves hused

theorem ensures_retrack (change : String → Tracking → Tracking) :
    Ensures (r.Durable fun _ => False)
      (do
        let file ← query fun _ _ => Workspace.normalize path
        modifyTracking (change file))
      (fun _ => r.Durable fun _ => False) (r.Durable fun _ => False) := by
  refine (Action.ensures_query (fun _ _ h _ => h) fun _ h => h).bind fun file => ?_
  exact ensures_modifyTracking (change file) fun _ h => h.track _

theorem ensures_suspend : Ensures (r.Durable fun _ => False) (suspend path)
    (fun _ => r.Durable fun _ => False) (r.Durable fun _ => False) :=
  ensures_retrack fun file tracking => tracking.suspend file

theorem ensures_resume : Ensures (r.Durable fun _ => False) (resume path)
    (fun _ => r.Durable fun _ => False) (r.Durable fun _ => False) :=
  ensures_retrack fun file tracking => tracking.resume file

theorem ensures_move {old new : String} (hserves : r.Serves)
    (hpersist : r.settings.persist = true)
    (husedOld : ∀ file, Path.normalize? old = some file → r.used file)
    (husedNew : ∀ file, Path.normalize? new = some file → r.used file)
    (hspared : ∀ k c, r.rest k c → Path.normalize? new ≠ some k.file) :
    Ensures (r.Durable fun _ => False) (move old new) (fun _ => r.Durable fun _ => False)
      (r.Durable fun _ => False) := by
  refine ((ensures_keyOf husedOld True).pre fun w h => ⟨h, trivial⟩).bind fun oldKey => ?_
  refine (ensures_keyOf husedNew _).bind fun newKey => ?_
  refine (ensures_modifyTracking _ fun w h => ⟨h.1.track _, h.2⟩).bind fun _ => ?_
  refine Action.ensures_get.bind fun v => ?_
  split
  · exact Action.ensures_pure fun w h => h.1.1
  · rename_i copy hcopy
    dsimp only
    -- Between the change of the table and that of the disk, the shadows lag behind.
    have htable : Ensures
        (fun w => (r.Durable (fun _ => False) w ∧
          (Path.normalize? new = some newKey.file ∧ r.Addresses newKey) ∧
          (Path.normalize? old = some oldKey.file ∧ r.Addresses oldKey) ∧ True) ∧ w = v)
        (modifyStore fun s => { s with
          copies := (s.copies.erase oldKey).insert newKey { copy with key := newKey } })
        (fun _ w => ∃ before, r.Durable (fun _ => False) before ∧ r.Awake newKey ∧
          before.store.copies.get? oldKey = some copy ∧
          w = { before with store := { before.store with
            copies := (before.store.copies.erase oldKey).insert newKey
              { copy with key := newKey } } })
        (r.Durable fun _ => False) := by
      refine Action.ensures_modifyStore (fun _ => rfl) ?_
      rintro w ⟨⟨h, ⟨hpath, hkey⟩, -, -⟩, rfl⟩
      exact ⟨w, h, ⟨hkey, fun c hc => hspared newKey c hc hpath⟩, hcopy, rfl⟩
    refine htable.bind fun _ => Action.ensures_get.bind fun v' => ?_
    split
    · refine Ensures.bind (Action.ensures_attempt ?_) fun _ => Action.ensures_pure fun w h => h
      rintro w ⟨⟨before, h, hkey, hold, rfl⟩, -⟩ hrename
      rw [h.shadows_eq] at hrename ⊢
      exact h.move hserves hold hkey hrename
    · rename_i hoff
      apply Action.ensures_pure
      rintro w ⟨⟨before, h, -, -, rfl⟩, rfl⟩
      rw [h.settings_eq] at hoff
      exact absurd hpersist hoff

theorem ensures_apply {changes : EditorChanges} (hserves : r.Serves)
    (hpersist : r.settings.persist = true)
    (hused : ∀ file, Path.normalize? changes.file = some file → r.used file)
    (hspared : ∀ k c, r.rest k c → Path.normalize? changes.file ≠ some k.file) :
    Ensures (r.Durable fun _ => False) (apply changes) (fun _ => r.Durable fun _ => False)
      (r.Durable fun _ => False) := by
  refine (Action.ensures_ofExcept (fun _ _ _ h => h) fun _ h => h).bind fun delta => ?_
  refine ((ensures_keyOf hused True).pre fun w h => ⟨h, trivial⟩).bind fun key => ?_
  refine (Action.ensures_query (fun _ _ h _ => h) fun _ h => h.1).bind fun project => ?_
  split
  · exact Action.ensures_throw fun w h => h.1
  dsimp only
  refine Action.ensures_get.bind fun v => ?_
  split
  · exact Action.ensures_pure fun w h => h.1.1
  have hcreate := (@ensures_getOrCreate r key hserves hpersist).pre fun w
    (h : (r.Durable (fun _ => False) w ∧
      (Path.normalize? changes.file = some key.file ∧ r.Addresses key) ∧ True) ∧ w = v) =>
      ⟨h.1.1, h.1.2.1.2, fun c hc => hspared key c hc h.1.2.1.1⟩
  refine hcreate.bind fun copy => ?_
  split
  · exact Action.ensures_pure fun w h => h.1
  refine Action.ensures_get.bind fun v' => ?_
  have hstep : Ensures
      (fun w => (r.Durable (fun _ => False) w ∧ r.Awake key ∧
        w.store.copies.get? key = some copy) ∧ w = v')
      (MonadExcept.ofExcept (copy.apply delta changes.seq v'.store.settings.encoding
        v'.store.settings.maxPending))
      (fun x w => r.Durable (· = x.1.key) w ∧ r.Awake x.1.key ∧ (x.2.isEmpty = true →
        r.shadows.read w.disk x.1.key.project x.1.key.file = .ok (some x.1.content)))
      (r.Durable fun _ => False) := by
    refine Action.ensures_ofExcept ?_ fun w h => h.1.1
    rintro ⟨copy', applied⟩ happly w ⟨⟨h, hkey, hcopy⟩, -⟩
    obtain rfl : copy.key = key := (h.keyed key copy hcopy).1
    have hsame := WorkingCopy.apply_key _ _ happly
    refine ⟨h.loosen fun _ => False.elim, hsame ▸ hkey, fun hempty => ?_⟩
    rw [hsame, WorkingCopy.apply_content_of_isEmpty _ _ happly hempty]
    exact h.kept copy.key copy.content id (.inl ⟨copy, hcopy, rfl⟩)
  apply hstep.bind
  rintro ⟨copy', applied⟩
  refine Ensures.bind (ensures_putCopy fun disk => applied.isEmpty = true →
    r.shadows.read disk copy'.key.project copy'.key.file = .ok (some copy'.content)) fun _ => ?_
  split
  · rename_i hempty
    exact Action.ensures_pure fun w h => h.1.settle h.2.1 h.2.2.1 (h.2.2.2 hempty)
  · have hwritten := @ensures_persist r copy' hserves hpersist
      (fun s => s.copies.get? copy'.key = some copy') (r.Durable fun _ => False)
    refine (hwritten.pre fun w h => ⟨h.1, h.2.1, h.2.2.1⟩).bind fun _ => ?_
    exact Action.ensures_pure fun w h => h.1.1.settle h.1.2.1 h.2 h.1.2.2

theorem ensures_discardProject {project : String} (hserves : r.Serves)
    (hspared : ∀ k c, r.rest k c → Path.normalize? project ≠ some k.project) :
    Ensures (r.Durable fun _ => False) (discardProject project) (fun _ => r.Durable fun _ => False)
      (r.Durable fun _ => False) := by
  have hnormal : Ensures (r.Durable fun _ => False) (query fun _ _ => Workspace.normalize project)
      (fun p w => r.Durable (fun _ => False) w ∧ Path.normalize? project = some p)
      (r.Durable fun _ => False) :=
    Action.ensures_query (fun _ _ h hp => ⟨h, Workspace.normalize_eq_ok_iff.mp hp⟩) fun _ h => h
  refine hnormal.bind fun p => Action.ensures_get.bind fun v => ?_
  have hout : Ensures
      (fun w => (r.Durable (fun _ => False) w ∧ Path.normalize? project = some p) ∧ w = v)
      (modifyStore fun s => { s with copies := s.copies.filter fun key _ => key.project ≠ p })
      (fun _ w => r.Durable (fun _ => False) w ∧ Path.normalize? project = some p ∧
        ∀ k c, r.Holds w k c → k.project ≠ p)
      (r.Durable fun _ => False) := by
    refine Action.ensures_modifyStore (fun _ => rfl) ?_
    rintro w ⟨⟨h, hp⟩, -⟩
    refine ⟨h.filter fun k => k.project ≠ p, hp, fun k c hholds => ?_⟩
    rcases hholds with ⟨copy, hcopy, -⟩ | hresting
    · rw [Table.get?_filter, Option.filter_eq_some_iff] at hcopy
      simpa using hcopy.2
    · exact fun heq => hspared k c hresting (heq ▸ hp)
  refine hout.bind fun _ => ?_
  refine (ensures_modifyTracking _ fun w h => ⟨h.1.track _, h.2⟩).bind fun _ => ?_
  have hwiped (w : World) (h : r.Durable (fun _ => False) w ∧ Path.normalize? project = some p ∧
      ∀ k c, r.Holds w k c → k.project ≠ p) : r.Durable (fun _ => False)
        { w with disk := (w.store.shadows.removeProject w.disk p).1 } := by
    obtain ⟨h, hp, hnone⟩ := h
    rw [h.shadows_eq]
    exact h.removeProject hserves (Path.normalize?_normal hp).1 hnone
  exact Ensures.bind (Action.ensures_perform hwiped hwiped)
    fun _ => Action.ensures_pure fun _ h => h

end EditorSync.Store
