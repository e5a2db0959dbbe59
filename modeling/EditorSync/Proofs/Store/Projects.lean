import Mathlib
import EditorSync.Proofs.Store.Calls
import EditorSync.Proofs.Store.Restart
import EditorSync.Proofs.Tracking

namespace EditorSync.Store

open Shadows (Rooted)
open WorkingCopy (Key)

variable {s : Shadows} {w : World} {path location project owner file : String}

theorem after_discardProject (hproject : Path.normalize? path = some project) :
    (Call.discardProject path).after w =
      { w.forgetProject project with disk := (w.store.shadows.removeProject w.disk project).1 } := by
  dsimp only [Call.after]
  rw [perform_discardProject, Workspace.normalize_eq_ok_iff.mpr hproject]

/-- The end of a project leaves the working copies and the shadows of other projects alone. Their
sessions end where the files lie under the path of the project. -/
theorem discardProject_spares_other (h : Reachable s w)
    (hproject : Path.normalize? path = some project) (hfile : Path.normalize? location = some file)
    (howner : w.store.workspace.projectOf w.disk location = .ok owner) (hother : owner ≠ project) :
    let w' := (Call.discardProject path).after w
    (∀ key, key.file = file → w'.store.copies.get? key = w.store.copies.get? key) ∧
      w'.store.trackingState? location =
        (if Tracking.isUnder project file then none else w.store.trackingState? location) ∧
      ∀ base, s.Rooted base → w.disk.Grounds s.workspace.root base →
        s.metadataDir ∉ Path.names owner → ∀ content,
        s.read w'.disk owner file = .ok (some content) ↔
          s.read w.disk owner file = .ok (some content) := by
  have hkeyed := h.keyed
  have howner' : s.workspace.owner? file = some owner := by
    obtain ⟨file', hfile', howner'⟩ := Workspace.owner?_of_projectOf howner
    cases hfile.symm.trans hfile'
    rwa [Store.workspace, hkeyed.shadows_eq] at howner'
  rw [after_discardProject hproject]
  refine ⟨fun key hkey => ?_, ?_, fun base hrooted hgrounds hapart content => ?_⟩
  · dsimp only [World.forgetProject, World.track, World.retain]
    rw [Table.get?_filter]
    cases hcopy : w.store.copies.get? key with
    | none => rfl
    | some copy =>
      have hkeyOwner := (hkeyed.copies key copy hcopy).2.owner
      rw [hkey, howner', Option.some.injEq] at hkeyOwner
      have hkeep : key.project ≠ project := hkeyOwner ▸ hother
      rw [Option.filter_some, decide_eq_true hkeep]
      rfl
  · dsimp only [World.forgetProject, World.track, World.retain, trackingState?]
    rw [hfile]
    exact Tracking.state?_removeUnder w.store.tracking file project
  · have hnormal := (Path.normalize?_normal hfile).1
    obtain ⟨hownerNormal, hne⟩ := Workspace.owner?_normal hrooted.normal hnormal howner'
    dsimp only
    rw [hkeyed.shadows_eq]
    exact Shadows.read_removeProject hrooted hgrounds (Path.normalize?_normal hproject).1
      hownerNormal ⟨hnormal, hne⟩ hapart hother

def suspendedWorld : World := (Call.suspend "/p/a").after ((Call.start "/p/a").after
  ⟨.new sampleShadows { sampleSettings with persist := false }, sampleDisk⟩)

theorem discardProject_spares_sibling :
    let w' := (Call.discardProject "/r").after suspendedWorld
    (∀ key, key.file = "/p/a" →
        w'.store.copies.get? key = suspendedWorld.store.copies.get? key) ∧
      w'.store.trackingState? "/p/a" = some .suspended ∧
      sampleShadows.read w'.disk "/p" "/p/a" = .ok (some "x") := by
  have hreachable : Reachable sampleShadows suspendedWorld := .call (.call (.new _ _) _) _
  have hdisk : suspendedWorld.disk = sampleDisk := by cbv
  have howner : suspendedWorld.store.workspace.projectOf suspendedWorld.disk "/p/a" =
      .ok "/p" := by cbv
  have hstate : suspendedWorld.store.trackingState? "/p/a" = some .suspended := by cbv
  obtain ⟨hserves, -⟩ := sampleShadows_hosts.serves sampleSettings fun _ _ => False
  have hproject : Path.normalize? "/r" = some "/r" := by decide
  have hfile : Path.normalize? "/p/a" = some "/p/a" := by decide
  obtain ⟨hcopies, htracking, hread⟩ := discardProject_spares_other hreachable hproject hfile
    howner (by decide)
  refine ⟨hcopies, ?_, ?_⟩
  · rw [htracking, hstate]
    decide
  · apply (hread _ hserves.rooted (hdisk ▸ sampleDisk_grounds) (by decide) "x").mpr
    rw [hdisk]
    exact sampleShadows_read

def nestedDisk : Disk :=
  ⟨.ofList [(["ws"], .dir), (["ws", "p"], .dir), (["ws", "p", "q"], .dir),
    (["ws", "p", "q", "a"], .file (Text.encode "x"))]⟩

def nestedWorld : World := (Call.suspend "/p/q/a").after ((Call.start "/p/q/a").after
  ⟨.new ⟨{ Workspace.ofRoot nestedDisk "/ws" with projects := some ["/p", "/p/q"] }, ".tandem"⟩
    { sampleSettings with persist := false }, nestedDisk⟩)

theorem ended_project_resumes_nested :
    nestedWorld.store.workspace.projectOf nestedWorld.disk "/p/q/a" = .ok "/p/q" ∧
      nestedWorld.store.trackingState? "/p/q/a" = some .suspended ∧
      nestedWorld.store.tracking.acceptsDeltas "/p/q/a" = false ∧
      ((Call.discardProject "/p").after nestedWorld).store.trackingState? "/p/q/a" = none ∧
      ((Call.discardProject "/p").after nestedWorld).store.tracking.acceptsDeltas "/p/q/a" =
        true := by
  have hproject : Path.normalize? "/p" = some "/p" := by decide
  have hfile : Path.normalize? "/p/q/a" = some "/p/q/a" := by decide
  have hgone : (nestedWorld.store.tracking.removeUnder "/p").state? "/p/q/a" = none := by
    rw [Tracking.state?_removeUnder]
    exact if_pos (by decide)
  rw [after_discardProject hproject]
  refine ⟨by cbv, by cbv, by cbv, ?_, ?_⟩
  · rw [trackingState?, hfile]
    exact hgone
  · dsimp only [World.forgetProject, World.track, World.retain]
    rw [Tracking.acceptsDeltas, hgone]
    rfl

end EditorSync.Store
