import EditorSync.Proofs.Disk.Leaves
import EditorSync.Proofs.Shadows

namespace EditorSync.Disk

open Text (Bytes)

variable {d d' : Disk} {follow : Bool} {links : Nat} {p place segments : List String}
variable {path path' : String} {content : Bytes}

theorem entry?_put_of_ne {e : Entry} {q : List String} (hp : d.Leaf p) (hne : q ≠ p) :
    entry? (d.put p e) q = d.entry? q := by
  rw [entry?_put p q e hp.ne_nil, if_neg hne]

theorem ne_of_leaf {e : Entry} {q : List String} (hp : d.Leaf p) (hentry : d.entry? q = some e)
    (he : ∀ content, e ≠ .file content) : q ≠ p := by
  rintro rfl
  obtain ⟨old, hold⟩ := hp e hentry
  exact he old hold

theorem walk_put {t : Target} (content : Bytes)
    (hwalk : d.walk follow links place segments = .ok t)
    (ht : t = .vacant p ∨ ∃ old, t = .found p (.file old)) :
    d.Leaf p ∧ (d.put p (.file content)).walk true links place segments =
      .ok (.found p (.file content)) := by
  have hlast {place : List String} {name : String} (hname : LooksUp name)
      (hp : d.Leaf (place ++ [name])) (links : Nat) :
      (d.put (place ++ [name]) (.file content)).walk true links place [name] =
        .ok (.found (place ++ [name]) (.file content)) := by
    have hentry : entry? (d.put (place ++ [name]) (.file content)) (place ++ [name]) =
        some (.file content) := by
      rw [entry?_put _ _ _ hp.ne_nil, if_pos rfl]
    rw [walk_last hname fun target hlink => by cases hentry.symm.trans hlink]
    exact congrArg Except.ok (look_eq_found_iff.mpr ⟨rfl, hentry⟩)
  fun_induction d.walk follow links place segments with
  | case2 links place name rest hskip ih =>
    rw [walk_skip rest hskip]
    exact ih hwalk
  | case3 links place rest _ ih =>
    rw [walk_up]
    exact ih hwalk
  | case5 links place name hskip hup hfits here hentry =>
    obtain rfl : here = p := by
      rcases ht with rfl | ⟨old, rfl⟩
      · exact Target.vacant.inj (Except.ok.inj hwalk)
      · cases hwalk
    have hleaf : d.Leaf here := fun e he => by cases hentry.symm.trans he
    exact ⟨hleaf, hlast ⟨hskip, hup, hfits⟩ hleaf links⟩
  | case7 links place name rest hskip hup hfits here hentry ih =>
    obtain ⟨hleaf, hput⟩ := ih hwalk
    have hdir := entry?_put_of_ne (e := .file content) hleaf
      (ne_of_leaf hleaf hentry fun _ => Entry.noConfusion)
    rw [walk_dir rest ⟨hskip, hup, hfits⟩ (hdir.trans hentry)]
    exact ⟨hleaf, hput⟩
  | case8 links place name hskip hup hfits here old hentry =>
    obtain rfl : here = p := by
      rcases ht with rfl | ⟨old, rfl⟩
      · cases hwalk
      · exact (Target.found.inj (Except.ok.inj hwalk)).1
    have hleaf := leaf_of_file hentry
    exact ⟨hleaf, hlast ⟨hskip, hup, hfits⟩ hleaf links⟩
  | case12 =>
    rename_i hskip hup hfits here target hentry hpass links start ih
    obtain ⟨hleaf, hput⟩ := ih hwalk
    have hlink := entry?_put_of_ne (e := .file content) hleaf
      (ne_of_leaf hleaf hentry fun _ => Entry.noConfusion)
    rw [walk_link ⟨hskip, hup, hfits⟩ (hlink.trans hentry) (by simp)]
    exact ⟨hleaf, hput⟩
  | _ =>
    -- The walk fails here, or it ends at a directory or a link.
    rcases ht with rfl | ⟨old, rfl⟩ <;>
      simp only [Except.ok.injEq, Target.found.injEq, reduceCtorEq, and_false] at hwalk

theorem write_reads (h : d.write path content = .ok d') :
    d'.read path = .ok content ∧
      ∀ path' place, d.locate true path' = .ok (.found place (.file content)) →
        d'.locate true path' = .ok (.found place (.file content)) ∧
          d'.canonical? path' = d.canonical? path' := by
  obtain ⟨t, p, hlocate, rfl, ht⟩ := write_eq_ok h
  obtain ⟨hsound, hwalk⟩ := locate_eq_ok_iff.mp hlocate
  obtain ⟨hleaf, hput⟩ := walk_put content hwalk ht
  constructor
  · rw [read, locate_eq_ok_iff.mpr ⟨hsound, hput⟩]
    rfl
  · intro path' place hfile
    let kept (e : Entry) : Prop := ∀ old, e = .file old → old = content
    have hdir : kept .dir := fun _ => Entry.noConfusion
    have hlink (target : String) : kept (.link target) := fun _ => Entry.noConfusion
    have hcontent : kept (.file content) := fun _ h => (Entry.file.inj h).symm
    have hkeep (above : List String) (name : String) (e : Entry) (_ : d.Reached above) (he : kept e)
        (hentry : d.entry? (above ++ [name]) = some e) :
        entry? (d.put p (.file content)) (above ++ [name]) = some e := by
      by_cases hp : above ++ [name] = p
      · obtain ⟨old, rfl⟩ := hleaf e (hp ▸ hentry)
        rw [hp, entry?_put _ _ _ hleaf.ne_nil, if_pos rfl, he old rfl]
      · rw [entry?_put_of_ne hleaf hp, hentry]
    refine ⟨?_, canonical?_keep kept hdir hlink hkeep hcontent (leads_of_locate hfile)⟩
    rw [locate_eq_ok_iff] at hfile ⊢
    exact ⟨hfile.1, walk_keep kept hdir hlink hkeep (reached_nil d) hcontent hfile.2⟩

end EditorSync.Disk

namespace EditorSync.Shadows

open Procedure (bind_eq_ok_iff)

variable {s : Shadows} {disk disk' : Disk} {project file content : String}

theorem readText_write (h : s.write disk project file content = (disk', .ok ())) :
    ∃ p, s.path disk project file = .ok p ∧ disk'.readText p = .ok content := by
  have hwrites := h ▸ writes s disk project file content
  cases hwrites with
  | written hdir _ hwrite =>
    refine ⟨_, bind_eq_ok_iff.mpr ⟨_, hdir, rfl⟩, ?_⟩
    rw [readText_eq_ok_iff, readOptional_eq_some_iff]
    exact (Disk.write_reads hwrite).1

-- The disk is asked whether a path is allowed, but not what it is.
theorem path_unique {p p' : String} (h : s.path disk project file = .ok p)
    (h' : s.path disk' project file = .ok p') : p = p' := by
  simp only [path, dir, bind_eq_ok_iff, Workspace.realPath_eq_ok_iff] at h h'
  obtain ⟨_, ⟨_, ⟨normal, hnormal, rfl, -⟩, hdir⟩, hp⟩ := h
  obtain ⟨_, ⟨_, ⟨normal', hnormal', rfl, -⟩, hdir'⟩, hp'⟩ := h'
  cases hnormal.symm.trans hnormal'
  cases hdir
  cases hdir'
  exact (Except.ok.inj hp).symm.trans (Except.ok.inj hp')

theorem readReal_eq_some_iff : s.readReal disk file = .ok (some content) ↔
    ∃ normal place, Workspace.normalize file = .ok normal ∧
      disk.locate true (Path.append s.workspace.root (Workspace.relative normal)) =
        .ok (.found place (.file (Text.encode content))) ∧
      ∀ canonical,
        disk.canonical? (Path.append s.workspace.root (Workspace.relative normal)) = some canonical →
          Path.contains s.workspace.canonicalRoot canonical = true := by
  simp only [readReal, bind_eq_ok_iff, Workspace.realPath_eq_ok_iff, readOptional_eq_some_iff]
  constructor
  · rintro ⟨_, ⟨normal, hnormal, rfl, hinside⟩, hread⟩
    obtain ⟨place, hplace⟩ := Disk.locate_of_read hread
    exact ⟨normal, place, hnormal, hplace, hinside⟩
  · rintro ⟨normal, place, hnormal, hplace, hinside⟩
    refine ⟨_, ⟨normal, hnormal, rfl, hinside⟩, ?_⟩
    rw [Disk.read, hplace]
    rfl

theorem readReal_write {real : String} (h : s.readReal disk real = .ok (some content)) :
    s.readReal (s.write disk project file content).1 real = .ok (some content) := by
  obtain ⟨normal, place, hnormal, hplace, hinside⟩ := readReal_eq_some_iff.mp h
  refine readReal_eq_some_iff.mpr ⟨normal, place, hnormal, ?_⟩
  generalize Path.append s.workspace.root (Workspace.relative normal) = path at hplace hinside ⊢
  -- Neither the directories that are made nor the text that is written change where the path leads.
  have hgrown (dir : String) : (disk.makeDirs dir).1.locate true path =
        .ok (.found place (.file (Text.encode content))) ∧
      (disk.makeDirs dir).1.canonical? path = disk.canonical? path := by
    have hgrows := Disk.makeDirsWith_grows (Path.names dir).length disk dir
    exact ⟨hgrows.locate hplace, hgrows.canonical?_eq (Disk.leads_of_locate hplace)⟩
  have hwrites := writes s disk project file content
  generalize s.write disk project file content = effect at hwrites ⊢
  cases hwrites with
  | misplaced => exact ⟨hplace, hinside⟩
  | @unhoused dir _ _ _ hmake | @unwritten dir _ _ _ hmake =>
    have hkept := hgrown dir
    rw [hmake] at hkept
    exact ⟨hkept.1, hkept.2 ▸ hinside⟩
  | @written dir _ _ _ hmake hwrite =>
    have hkept := hgrown dir
    rw [hmake] at hkept
    obtain ⟨hstill, hsame⟩ := (Disk.write_reads hwrite).2 path place hkept.1
    exact ⟨hstill, (hsame.trans hkept.2) ▸ hinside⟩

end EditorSync.Shadows
