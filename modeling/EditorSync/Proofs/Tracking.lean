import EditorSync.Proofs.Table
import EditorSync.Tracking

namespace EditorSync.Tracking

variable (t : Tracking) (path file : String)

theorem session?_start : (t.start path).session? file =
    if file = path then some ⟨path, .started⟩ else t.session? file := Table.get?_insert ..

theorem session?_stop : (t.stop path).session? file =
    if file = path then none else t.session? file := Table.get?_erase ..

theorem session?_setState (state : State) : (t.setState path state).session? file =
    if file = path then (t.session? path).map fun session => { session with state := state }
    else t.session? file := Table.get?_modify ..

theorem session?_removeUnder (dir : String) : (t.removeUnder dir).session? file =
    if isUnder dir file then none else t.session? file := by
  unfold removeUnder session?
  rw [Table.get?_filter]
  cases t.sessions.get? file with
  | none => split <;> rfl
  | some session =>
    by_cases hunder : isUnder dir file = true
    · rw [if_pos hunder, Option.filter_some, hunder]
      rfl
    · rw [if_neg hunder, Option.filter_some, Bool.eq_false_iff.mpr hunder]
      rfl

theorem session?_rename (old new : String) : (t.rename old new).session? file =
    if file = new then
      ((t.session? old).map fun session => { session with path := new }).or (t.session? new)
    else if file = old then none else t.session? file := by
  unfold rename
  cases hold : t.session? old with
  | none =>
    dsimp only
    rw [Option.map_none, Option.none_or]
    split
    · rename_i hnew
      rw [hnew]
    · split
      · rename_i hsame
        rw [hsame, hold]
      · rfl
  | some session =>
    dsimp only
    rw [session?, Table.get?_insert, Table.get?_erase, Option.map_some, Option.some_or]
    rfl

theorem state?_start : (t.start path).state? file =
    if file = path then some .started else t.state? file := by
  rw [state?, session?_start, apply_ite (Option.map Session.state)]
  rfl

theorem state?_stop : (t.stop path).state? file = if file = path then none else t.state? file := by
  rw [state?, session?_stop, apply_ite (Option.map Session.state)]
  rfl

theorem state?_setState (state : State) : (t.setState path state).state? file =
    if file = path then (t.state? path).map fun _ => state else t.state? file := by
  rw [state?, session?_setState]
  split
  · rw [Option.map_map, state?, Option.map_map]
    rfl
  · rfl

theorem state?_suspend : (t.suspend path).state? file =
    if file = path then (t.state? path).map fun _ => .suspended else t.state? file :=
  t.state?_setState path file .suspended

theorem state?_resume : (t.resume path).state? file =
    if file = path then (t.state? path).map fun _ => .started else t.state? file :=
  t.state?_setState path file .started

theorem isSome_state?_setState (state : State) :
    ((t.setState path state).state? file).isSome = (t.state? file).isSome := by
  rw [state?_setState]
  split
  · rename_i hfile
    rw [hfile, Option.isSome_map]
  · rfl

theorem state?_removeUnder (dir : String) : (t.removeUnder dir).state? file =
    if isUnder dir file then none else t.state? file := by
  rw [state?, session?_removeUnder, apply_ite (Option.map Session.state)]
  rfl

theorem state?_rename (old new : String) : (t.rename old new).state? file =
    if file = new then (t.state? old).or (t.state? new)
    else if file = old then none else t.state? file := by
  rw [state?, session?_rename]
  split
  · rw [Option.map_or, Option.map_map]
    rfl
  · split
    · rfl
    · rfl

theorem rename_of_state?_eq_none {old : String} (new : String) (h : t.state? old = none) :
    t.rename old new = t := by
  rw [rename, Option.map_eq_none_iff.mp h]

end EditorSync.Tracking
