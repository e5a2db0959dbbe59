import EditorSync.Proofs.Disk.Walk
import EditorSync.Proofs.Table

/-! What a path leads to depends on the entries that are passed on the way. The canonical path of a
place is found through those that can be asked for by their own path (`Disk.shallow`). -/

namespace EditorSync.Disk

variable {d d' d₁ d₂ : Disk} {follow : Bool} {links : Nat} {p place segments : List String}
variable {path root name : String} {base names : List String} {e : Entry}

section Walks

def Reached (d : Disk) (place : List String) : Prop :=
  ∀ above, above ≠ [] → above <+: place → d.entry? above = some .dir

theorem reached_nil (d : Disk) : d.Reached [] := fun _ hne habove =>
  absurd (List.prefix_nil.mp habove) hne

theorem Reached.of_prefix (h : d.Reached place) (hp : p <+: place) : d.Reached p :=
  fun above hne habove => h above hne (habove.trans hp)

theorem Reached.concat (h : d.Reached place) (hdir : d.entry? (place ++ [name]) = some .dir) :
    d.Reached (place ++ [name]) := by
  intro above hne habove
  rcases List.prefix_concat_iff.mp habove with rfl | habove
  · exact hdir
  · exact h above hne habove

theorem reached_of_walk (hplace : d.Reached place)
    (hwalk : d.walk follow links place segments = .ok (.found p .dir)) : d.Reached p := by
  fun_induction d.walk follow links place segments with
  | case1 =>
    cases hwalk
    exact hplace
  | case2 => rename_i ih; exact ih hplace hwalk
  | case3 => rename_i ih; exact ih (hplace.of_prefix (List.dropLast_prefix _)) hwalk
  | case7 _ _ _ _ _ _ _ _ hentry ih => exact ih (hplace.concat hentry) hwalk
  | case12 =>
    rename_i start ih
    refine ih ?_ hwalk
    dsimp only [start]
    split
    · exact reached_nil d
    · exact hplace
  | _ => simp only [Except.ok.injEq, Target.found.injEq, reduceCtorEq, and_false] at hwalk

theorem walk_none (rest : List String) (hname : LooksUp name)
    (hentry : d.entry? (place ++ [name]) = none) :
    d.walk follow links place (name :: rest) =
      if rest = [] then .ok (.vacant (place ++ [name])) else .error .notFound := by
  rw [walk, if_neg hname.1, if_neg hname.2.1, if_neg hname.2.2]
  simp only [hentry]

theorem walk_file {content : Text.Bytes} (rest : List String) (hname : LooksUp name)
    (hentry : d.entry? (place ++ [name]) = some (.file content)) :
    d.walk follow links place (name :: rest) =
      if rest = [] then .ok (.found (place ++ [name]) (.file content))
      else .error .notDirectory := by
  rw [walk, if_neg hname.1, if_neg hname.2.1, if_neg hname.2.2]
  simp only [hentry]

theorem walk_link_last {target : String} (hname : LooksUp name)
    (hentry : d.entry? (place ++ [name]) = some (.link target)) :
    d.walk false links place [name] = .ok (.found (place ++ [name]) (.link target)) := by
  rw [walk, if_neg hname.1, if_neg hname.2.1, if_neg hname.2.2]
  simp only [hentry]
  rfl

def Alike (d₁ d₂ : Disk) (place : List String) (e : Entry) : Prop :=
  d₁.entry? place = none ∧ d₂.entry? place = none ∨
    d₁.entry? place = some e ∧ d₂.entry? place = some e

theorem walk_alike (kept : Entry → Prop) (hdir : kept .dir) (hlink : ∀ target, kept (.link target))
    (halike : ∀ place name e, d.Reached place → kept e → d.entry? (place ++ [name]) = some e →
      Alike d₁ d₂ (place ++ [name]) e)
    (hplace : d.Reached place) (he : kept e)
    (hwalk : d.walk follow links place segments = .ok (.found p e)) :
    d₁.walk follow links place segments = d₂.walk follow links place segments := by
  fun_induction d.walk follow links place segments with
  | case1 => rw [walk, walk]
  | case2 links place name rest hskip ih =>
    rw [walk_skip rest hskip, walk_skip rest hskip]
    exact ih hplace hwalk
  | case3 links place rest _ ih =>
    rw [walk_up, walk_up]
    exact ih (hplace.of_prefix (List.dropLast_prefix _)) hwalk
  | case7 links place name rest hskip hup hfits here hentry ih =>
    rcases halike place name _ hplace hdir hentry with ⟨h₁, h₂⟩ | ⟨h₁, h₂⟩
    · rw [walk_none rest ⟨hskip, hup, hfits⟩ h₁, walk_none rest ⟨hskip, hup, hfits⟩ h₂]
    · rw [walk_dir rest ⟨hskip, hup, hfits⟩ h₁, walk_dir rest ⟨hskip, hup, hfits⟩ h₂]
      exact ih (hplace.concat hentry) hwalk
  | case8 links place name hskip hup hfits here content hentry =>
    obtain ⟨rfl, rfl⟩ := Target.found.inj (Except.ok.inj hwalk)
    rcases halike place name _ hplace he hentry with ⟨h₁, h₂⟩ | ⟨h₁, h₂⟩
    · rw [walk_none [] ⟨hskip, hup, hfits⟩ h₁, walk_none [] ⟨hskip, hup, hfits⟩ h₂]
    · rw [walk_file [] ⟨hskip, hup, hfits⟩ h₁, walk_file [] ⟨hskip, hup, hfits⟩ h₂]
  | case10 links place name rest hskip hup hfits here target hentry hlast =>
    obtain ⟨rfl, hfollow⟩ := hlast
    rw [Bool.not_eq_true'] at hfollow
    subst hfollow
    rcases halike place name _ hplace (hlink target) hentry with ⟨h₁, h₂⟩ | ⟨h₁, h₂⟩
    · rw [walk_none [] ⟨hskip, hup, hfits⟩ h₁, walk_none [] ⟨hskip, hup, hfits⟩ h₂]
    · rw [walk_link_last ⟨hskip, hup, hfits⟩ h₁, walk_link_last ⟨hskip, hup, hfits⟩ h₂]
  | case12 =>
    rename_i place name rest hskip hup hfits here target hentry hfollow links start ih
    rcases halike place name _ hplace (hlink target) hentry with ⟨h₁, h₂⟩ | ⟨h₁, h₂⟩
    · rw [walk_none rest ⟨hskip, hup, hfits⟩ h₁, walk_none rest ⟨hskip, hup, hfits⟩ h₂]
    · rw [walk_link ⟨hskip, hup, hfits⟩ h₁ hfollow, walk_link ⟨hskip, hup, hfits⟩ h₂ hfollow]
      refine ih ?_ hwalk
      dsimp only [start]
      split
      · exact reached_nil d
      · exact hplace
  | _ => cases hwalk

theorem walk_keep (kept : Entry → Prop) (hdir : kept .dir) (hlink : ∀ target, kept (.link target))
    (hkeep : ∀ place name e, d.Reached place → kept e → d.entry? (place ++ [name]) = some e →
      d'.entry? (place ++ [name]) = some e)
    (hplace : d.Reached place) (he : kept e)
    (hwalk : d.walk follow links place segments = .ok (.found p e)) :
    d'.walk follow links place segments = .ok (.found p e) := by
  rw [← hwalk]
  exact walk_alike kept hdir hlink (fun place name e hplace he hentry =>
    .inr ⟨hkeep place name e hplace he hentry, hentry⟩) hplace he hwalk

theorem walk_plain (hplace : ∀ name ∈ place, Path.Plain name)
    (hsegments : ∀ name ∈ segments, '/' ∉ name.toList)
    (h : d.walk follow links place segments = .ok (.found p e)) : ∀ name ∈ p, Path.Plain name := by
  have hconcat {place : List String} {name : String} (hplace : ∀ name ∈ place, Path.Plain name)
      (hname : LooksUp name) (hslash : '/' ∉ name.toList) :
      ∀ other ∈ place ++ [name], Path.Plain other := by
    obtain ⟨hempty, hdot⟩ := not_or.mp hname.1
    rw [List.forall_mem_append, List.forall_mem_singleton]
    exact ⟨hplace, hempty, hdot, hname.2.1, hslash⟩
  fun_induction d.walk follow links place segments with
  | case1 =>
    cases h
    exact hplace
  | case2 links place name rest hskip ih =>
    exact ih hplace (List.forall_mem_cons.mp hsegments).2 h
  | case3 links place rest _ ih =>
    refine ih (fun name hname => hplace name ?_) (List.forall_mem_cons.mp hsegments).2 h
    exact (List.dropLast_sublist place).subset hname
  | case7 links place name rest hskip hup hfits here hentry ih =>
    obtain ⟨hslash, hrest⟩ := List.forall_mem_cons.mp hsegments
    exact ih (hconcat hplace ⟨hskip, hup, hfits⟩ hslash) hrest h
  | case8 links place name hskip hup hfits here content hentry =>
    obtain ⟨rfl, -⟩ := Target.found.inj (Except.ok.inj h)
    exact hconcat hplace ⟨hskip, hup, hfits⟩ (List.forall_mem_cons.mp hsegments).1
  | case10 links place name rest hskip hup hfits here target hentry hlast =>
    obtain ⟨rfl, -⟩ := Target.found.inj (Except.ok.inj h)
    exact hconcat hplace ⟨hskip, hup, hfits⟩ (List.forall_mem_cons.mp hsegments).1
  | case12 =>
    rename_i place name rest hskip hup hfits here target hentry hlast links start ih
    refine ih ?_ ?_ h
    · simp only [start]
      split
      · exact List.forall_mem_nil _
      · exact hplace
    · rw [List.forall_mem_append]
      exact ⟨fun _ => Path.not_slash_mem_of_mem_segments, (List.forall_mem_cons.mp hsegments).2⟩
  | _ => cases h

theorem entry?_of_walk (h : d.walk follow links place segments = .ok (.found p e)) :
    e = .dir ∨ d.entry? p = some e := by
  fun_induction d.walk follow links place segments with
  | case1 =>
    obtain ⟨-, rfl⟩ := Target.found.inj (Except.ok.inj h)
    exact .inl rfl
  | case2 | case3 | case7 | case12 =>
    rename_i ih
    exact ih h
  | case8 links place name hskip hup hfits here content hentry =>
    obtain ⟨rfl, rfl⟩ := Target.found.inj (Except.ok.inj h)
    exact .inr hentry
  | case10 links place name rest hskip hup hfits here target hentry hlast =>
    obtain ⟨rfl, rfl⟩ := Target.found.inj (Except.ok.inj h)
    exact .inr hentry
  | _ => cases h

end Walks

section Leads

def Leads (d : Disk) (path : String) (place : List String) (e : Entry) : Prop :=
  '\x00' ∉ path.toList ∧ d.walk true maxLinks [] (Path.segments path) = .ok (.found place e)

theorem leads_of_locate (h : d.locate true path = .ok (.found place e)) : d.Leads path place e := by
  have hsound := sound_of_locate h
  exact ⟨hsound.1, (locate_of_sound hsound).symm.trans h⟩

theorem Leads.unique {q : List String} {x : Entry} (h : d.Leads path place e)
    (h' : d.Leads path q x) : place = q ∧ e = x :=
  Target.found.inj (Except.ok.inj (h.2.symm.trans h'.2))

theorem Leads.plain (h : d.Leads path place e) : ∀ name ∈ place, Path.Plain name :=
  walk_plain (List.forall_mem_nil _) (fun _ => Path.not_slash_mem_of_mem_segments) h.2

end Leads

section Shallow

theorem entry?_shallow (d : Disk) (place : List String) : d.shallow.entry? place =
    if (Path.ofNames place).utf8ByteSize < maxPath then d.entry? place else none := by
  unfold entry?
  by_cases hnil : place = []
  · rw [if_pos hnil, if_pos hnil, hnil, if_pos (by decide)]
  · rw [if_neg hnil, if_neg hnil, shallow, Table.get?_filter]
    cases d.entries.get? place <;> simp [Option.filter]

theorem shallow_keep (h : d.shallow.entry? place = some e) : d.entry? place = some e := by
  rw [entry?_shallow] at h
  split at h
  · exact h
  · cases h

theorem alike_shallow (h : d.entry? place = some e) (h' : d'.entry? place = some e) :
    Alike d'.shallow d.shallow place e := by
  unfold Alike
  rw [entry?_shallow, entry?_shallow, h, h']
  split
  · exact .inr ⟨rfl, rfl⟩
  · exact .inl ⟨rfl, rfl⟩

theorem walk_of_shallow (h : d.shallow.walk follow links [] segments = .ok (.found p e)) :
    d.walk follow links [] segments = .ok (.found p e) :=
  walk_keep (fun _ => True) trivial (fun _ => trivial) (fun _ _ _ _ _ hentry => shallow_keep hentry)
    (reached_nil d.shallow) trivial h

theorem canonical?_eq_some_iff_walk {c : String} : d.canonical? path = some c ↔
    '\x00' ∉ path.toList ∧ ∃ place e,
      d.shallow.walk true maxLinks [] (Path.segments path) = .ok (.found place e) ∧
        c = Path.ofNames place := by
  unfold canonical?
  split
  · simp_all
  · rename_i hnul
    simp only [hnul, not_false_eq_true, true_and]
    split
    · rename_i place e hwalk
      simp [hwalk, eq_comm]
    · rename_i hother
      simp only [reduceCtorEq, false_iff, not_exists, not_and]
      intro place e hwalk
      exact absurd hwalk (hother place e)

theorem canonical?_keep (kept : Entry → Prop) (hdir : kept .dir)
    (hlink : ∀ target, kept (.link target))
    (hkeep : ∀ place name e, d.Reached place → kept e → d.entry? (place ++ [name]) = some e →
      d'.entry? (place ++ [name]) = some e) (he : kept e) (hleads : d.Leads path p e) :
    d'.canonical? path = d.canonical? path := by
  rw [canonical?, canonical?, walk_alike kept hdir hlink (fun place name e hplace he hentry =>
    alike_shallow hentry (hkeep place name e hplace he hentry)) (reached_nil d) he hleads.2]

end Shallow

section Passes

def Deep (place : List String) : Prop := maxPath ≤ (Path.ofNames place).utf8ByteSize

instance (place : List String) : Decidable (Deep place) := inferInstanceAs (Decidable (_ ≤ _))

inductive Passes (d : Disk) : List String → List String → List String → Prop
  | skip {place rest q : List String} {name : String} (hskip : name = "" ∨ name = ".")
    (hrest : d.Passes place rest q) : d.Passes place (name :: rest) q
  | up {place rest q : List String} (hrest : d.Passes place.dropLast rest q) :
    d.Passes place (".." :: rest) q
  | here {place : List String} {name : String} (rest : List String) (hname : LooksUp name) :
    d.Passes place (name :: rest) (place ++ [name])
  | down {place rest q : List String} {name : String} (hname : LooksUp name)
    (hentry : d.entry? (place ++ [name]) = some .dir) (hrest : d.Passes (place ++ [name]) rest q) :
    d.Passes place (name :: rest) q
  | along {place rest q : List String} {name target : String} (hname : LooksUp name)
    (hentry : d.entry? (place ++ [name]) = some (.link target))
    (hrest : d.Passes (if Path.isAbsolute target then [] else place)
      (Path.segments target ++ rest) q) : d.Passes place (name :: rest) q

theorem entry?_shallow_of_deep (h : Deep place) : d.shallow.entry? place = none := by
  rw [entry?_shallow, if_neg (Nat.not_lt.mpr h)]

theorem canonical?_of_deep {content : Text.Bytes} (h : d.Leads path place (.file content))
    (hdeep : Deep place) : d.canonical? path = none := by
  rw [Option.eq_none_iff_forall_ne_some]
  intro canonical hcanonical
  obtain ⟨-, q, x, hwalk, -⟩ := canonical?_eq_some_iff_walk.mp hcanonical
  obtain ⟨rfl, rfl⟩ := h.unique ⟨h.1, walk_of_shallow hwalk⟩
  rcases entry?_of_walk hwalk with hdir | hentry
  · cases hdir
  · rw [entry?_shallow_of_deep hdeep] at hentry
    cases hentry

theorem entry?_shallow_of_not_deep (h : ¬Deep place) : d.shallow.entry? place = d.entry? place := by
  rw [entry?_shallow, if_pos (Nat.lt_of_not_le h)]

theorem walk_shallow (hwalk : d.walk true links place segments = .ok (.found p e))
    (hpasses : ∀ q, d.Passes place segments q → ¬Deep q) :
    d.shallow.walk true links place segments = .ok (.found p e) := by
  generalize hfollow : true = follow at hwalk
  fun_induction d.walk follow links place segments with
  | case1 => rw [walk]; exact hwalk
  | case2 links place name rest hskip ih =>
    rw [walk_skip rest hskip]
    exact ih (fun q hq => hpasses q (.skip hskip hq)) hwalk
  | case3 links place rest _ ih =>
    rw [walk_up]
    exact ih (fun q hq => hpasses q (.up hq)) hwalk
  | case7 links place name rest hskip hup hfits here hentry ih =>
    have hname : LooksUp name := ⟨hskip, hup, hfits⟩
    have hshallow := entry?_shallow_of_not_deep (d := d) (hpasses _ (.here rest hname))
    rw [walk_dir rest hname (hshallow.trans hentry)]
    exact ih (fun q hq => hpasses q (.down hname hentry hq)) hwalk
  | case8 links place name hskip hup hfits here content hentry =>
    have hname : LooksUp name := ⟨hskip, hup, hfits⟩
    have hshallow := entry?_shallow_of_not_deep (d := d) (hpasses _ (.here [] hname))
    rw [walk_file [] hname (hshallow.trans hentry)]
    exact hwalk
  | case10 links place name rest hskip hup hfits here target hentry hlast =>
    rw [← hfollow] at hlast
    exact absurd hlast.2 (by decide)
  | case12 =>
    rename_i place name rest hskip hup hfits here target hentry hlast links start ih
    have hname : LooksUp name := ⟨hskip, hup, hfits⟩
    have hshallow := entry?_shallow_of_not_deep (d := d) (hpasses _ (.here rest hname))
    rw [walk_link hname (hshallow.trans hentry) hlast]
    exact ih (fun q hq => hpasses q (.along hname hentry hq)) hwalk
  | _ => cases hwalk

theorem not_deep_of_passes {q : List String} (hpasses : d.Passes place segments q)
    (hwalk : d.shallow.walk true links place segments = .ok (.found p e)) : ¬Deep q := by
  -- An entry that lies too deep is missing where the walk goes on.
  have hthere {place rest : List String} {name : String} {links : Nat} (hname : LooksUp name)
      (h : d.shallow.walk true links place (name :: rest) = .ok (.found p e)) :
      ¬Deep (place ++ [name]) := by
    intro hdeep
    rw [walk_none rest hname (entry?_shallow_of_deep hdeep)] at h
    split at h <;> cases h
  induction hpasses generalizing links with
  | skip hskip _ ih =>
    rw [walk_skip _ hskip] at hwalk
    exact ih hwalk
  | up _ ih =>
    rw [walk_up] at hwalk
    exact ih hwalk
  | here rest hname => exact hthere hname hwalk
  | down hname hentry _ ih =>
    have hshallow := entry?_shallow_of_not_deep (d := d) (hthere hname hwalk)
    rw [walk_dir _ hname (hshallow.trans hentry)] at hwalk
    exact ih hwalk
  | along hname hentry _ ih =>
    have hshallow := (entry?_shallow_of_not_deep (d := d) (hthere hname hwalk)).trans hentry
    cases links with
    | zero =>
      rw [walk, if_neg hname.1, if_neg hname.2.1, if_neg hname.2.2] at hwalk
      simp [hshallow] at hwalk
    | succ links =>
      rw [walk_link hname hshallow (by simp)] at hwalk
      exact ih hwalk

theorem passes_skips {skipped rest q : List String} (h : steps skipped = [])
    (hrest : d.Passes place rest q) : d.Passes place (skipped ++ rest) q := by
  induction skipped with
  | nil => exact hrest
  | cons name skipped ih =>
    by_cases hskip : name = "" ∨ name = "."
    · rw [steps_cons_skip _ hskip] at h
      exact .skip hskip (ih h)
    · rw [steps_cons _ hskip] at h
      cases h

theorem Passes.append {xs ys q : List String} (h : d.Passes place xs q)
    (hsteps : steps ys = steps xs) (more : List String) : d.Passes place (ys ++ more) q := by
  induction h generalizing ys with
  | skip hskip _ ih =>
    rw [steps_cons_skip _ hskip] at hsteps
    exact ih hsteps
  | up _ ih =>
    rw [steps_cons _ (by decide)] at hsteps
    obtain ⟨skipped, ys, rfl, hskipped, hys⟩ := steps_eq_cons hsteps
    rw [List.append_assoc]
    exact passes_skips hskipped (.up (ih hys))
  | here rest hname =>
    rw [steps_cons _ hname.1] at hsteps
    obtain ⟨skipped, ys, rfl, hskipped, -⟩ := steps_eq_cons hsteps
    rw [List.append_assoc]
    exact passes_skips hskipped (.here _ hname)
  | down hname hentry _ ih =>
    rw [steps_cons _ hname.1] at hsteps
    obtain ⟨skipped, ys, rfl, hskipped, hys⟩ := steps_eq_cons hsteps
    rw [List.append_assoc]
    exact passes_skips hskipped (.down hname hentry (ih hys))
  | along hname hentry _ ih =>
    rename_i rest q name target _
    rw [steps_cons _ hname.1] at hsteps
    obtain ⟨skipped, ys, rfl, hskipped, hys⟩ := steps_eq_cons hsteps
    have hrest : steps (Path.segments target ++ ys) = steps (Path.segments target ++ rest) := by
      rw [steps_append, steps_append, hys]
    have hgoes := ih hrest
    rw [List.append_assoc] at hgoes ⊢
    exact passes_skips hskipped (.along hname hentry hgoes)

/-- An entry that lies too deep is passed on the way of a path. -/
def Plunges (d : Disk) (path : String) : Prop :=
  ∃ q, d.Passes [] (Path.segments path) q ∧ Deep q

theorem Plunges.append {name : String} (h : d.Plunges path) (hname : Path.isAbsolute name = false) :
    d.Plunges (Path.append path name) := by
  obtain ⟨q, hpasses, hdeep⟩ := h
  obtain ⟨above, hsegments, habove⟩ := Path.segments_append path hname
  refine ⟨q, ?_, hdeep⟩
  rw [hsegments]
  exact hpasses.append habove _

theorem canonical?_eq_some_iff {c : String} : d.canonical? path = some c ↔
    ∃ place e, d.Leads path place e ∧ ¬d.Plunges path ∧ c = Path.ofNames place := by
  rw [canonical?_eq_some_iff_walk]
  constructor
  · rintro ⟨hnul, place, e, hwalk, rfl⟩
    refine ⟨place, e, ⟨hnul, walk_of_shallow hwalk⟩, ?_, rfl⟩
    rintro ⟨q, hpasses, hdeep⟩
    exact not_deep_of_passes hpasses hwalk hdeep
  · rintro ⟨place, e, ⟨hnul, hwalk⟩, hplunges, rfl⟩
    exact ⟨hnul, place, e, walk_shallow hwalk fun q hq hdeep => hplunges ⟨q, hq, hdeep⟩, rfl⟩

end Passes

section Grounds

theorem grounds_names (hsound : Sound root) (hup : ".." ∉ Path.segments root)
    (hfits : ∀ name ∈ Path.names root, ¬maxName < name.utf8ByteSize)
    (hshallow : ¬Deep (Path.names root))
    (hdirs : ∀ above, above ≠ [] → above <+: Path.names root → d.entry? above = some .dir)
    (hfree : ∀ place target, Path.names root <+: place → d.entry? place ≠ some (.link target)) :
    d.Grounds root (Path.names root) := by
  refine ⟨fun d' hsame => ?_, hfree⟩
  have hdirs' (above : List String) (hne : above ≠ []) (hinit : above <+: Path.names root) :
      d'.entry? above = some .dir := by
    rw [hsame above, hdirs above hne hinit]
    rintro ⟨hover, hdiffers⟩
    exact hdiffers (hinit.eq_of_length_le hover.length_le)
  have hdeep (above : List String) (hinit : above <+: Path.names root) : ¬Deep above :=
    fun hdeep => hshallow (Nat.le_trans hdeep (Path.utf8ByteSize_ofNames_le hinit))
  constructor
  · rw [locate_of_sound hsound, walk_dirs hup hfits, steps_segments, List.nil_append]
    intro above hne hinit
    exact hdirs' above hne hinit
  · rw [canonical?_eq_some_iff_walk]
    refine ⟨hsound.1, Path.names root, .dir, ?_, rfl⟩
    rw [walk_dirs hup hfits, steps_segments, List.nil_append]
    intro above hne hinit
    rw [List.nil_append, entry?_shallow_of_not_deep (hdeep above hinit)]
    exact hdirs' above hne hinit

theorem entry?_ne_link (h : ∀ x ∈ d.entries.entries, ∀ target, x.2 ≠ .link target)
    (place : List String) (target : String) : d.entry? place ≠ some (.link target) := by
  intro hlink
  unfold entry? at hlink
  split at hlink
  · cases hlink
  · rw [Table.get?_eq_some_iff] at hlink
    exact h _ hlink target rfl

theorem grounds_name (hnames : Path.names root = [name]) (hsound : Sound root)
    (hup : ".." ∉ Path.segments root) (hfits : ¬maxName < name.utf8ByteSize)
    (hshallow : ¬Deep [name]) (hdir : d.entry? [name] = some .dir)
    (hfree : ∀ x ∈ d.entries.entries, ∀ target, x.2 ≠ .link target) : d.Grounds root [name] := by
  rw [← hnames] at hshallow ⊢
  refine grounds_names hsound hup ?_ hshallow ?_
    fun place target _ => entry?_ne_link hfree place target
  · rw [hnames]
    exact List.forall_mem_singleton.mpr hfits
  · intro above hne hinit
    rw [hnames] at hinit
    rcases List.prefix_cons_iff.mp hinit with rfl | ⟨rest, rfl, hrest⟩
    · exact absurd rfl hne
    · rw [List.prefix_nil.mp hrest]
      exact hdir

theorem Grounds.eq_of_leads (h : d.Grounds root base) (hpath : Beneath root path names)
    (hends : names ≠ [] → Ends path) (hleads : d.Leads path place e) : place = base ++ names := by
  obtain ⟨-, hwalk⟩ := hleads
  by_cases hne : names = []
  · subst hne
    have hsteps := (steps_segments path).trans (hpath.names_eq.trans (List.append_nil _))
    obtain ⟨left, hleft⟩ := walk_past h.walk_root hsteps
    have hroot := hleft true [] (.inr rfl)
    rw [List.append_nil, walk, hwalk] at hroot
    rw [List.append_nil]
    exact (Target.found.inj (Except.ok.inj hroot)).1
  · have hlook := ((h.walk_eq_ok_iff hpath hne (hends hne)).mp hwalk).2
    exact (look_eq_found_iff.mp hlook.symm).1.symm ▸ rfl

end Grounds

end EditorSync.Disk
