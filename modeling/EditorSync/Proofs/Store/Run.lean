import EditorSync.Proofs.Store.Operations

namespace EditorSync.Store

open Disk (Grounds)
open WorkingCopy (Key)
open EditorSync.Store.Action (Ensures)

inductive Call where
  | start (path : String)
  | stop (path : String)
  | suspend (path : String)
  | resume (path : String)
  | move (old new : String)
  | apply (changes : EditorChanges)
  | discardFile (path : String)
  | discardProject (project : String)
  deriving DecidableEq, Repr

namespace Call

def after (w : World) : Call → World
  | start path => ((Store.start path).perform w).2
  | stop path => ((Store.stop path).perform w).2
  | suspend path => ((Store.suspend path).perform w).2
  | resume path => ((Store.resume path).perform w).2
  | move old new => ((Store.move old new).perform w).2
  | apply changes => ((Store.apply changes).perform w).2
  | discardFile path => ((Store.discardFile path).perform w).2
  | discardProject project => ((Store.discardProject project).perform w).2

def paths : Call → List String
  | start path | stop path | discardFile path => [path]
  | move old new => [old, new]
  | apply changes => [changes.file]
  | suspend _ | resume _ | discardProject _ => []

def Within (used : String → Prop) (c : Call) : Prop :=
  ∀ path ∈ c.paths, ∀ file, Path.normalize? path = some file → used file

def Spares (key : Key) : Call → Prop
  | start path | move _ path => Path.normalize? path ≠ some key.file
  | apply changes => Path.normalize? changes.file ≠ some key.file
  | discardProject project => Path.normalize? project ≠ some key.project
  | stop _ | suspend _ | resume _ | discardFile _ => True

end Call

/-- Calls of some kind follow one another, and somebody else changes the real files in between. -/
inductive Run (shadows : Shadows) (base : List String) (allowed : Call → Prop) (w : World) :
    World → Prop where
  | refl : Run shadows base allowed w w
  | call {w' : World} (h : Run shadows base allowed w w') (c : Call) (hc : allowed c) :
      Run shadows base allowed w (c.after w')
  | edit {w' : World} (h : Run shadows base allowed w w') (disk : Disk)
      (hspares : shadows.Spares base w'.disk disk) :
      Run shadows base allowed w { w' with disk := disk }

variable {r : Setup} {w w' : World} {key : Key} {disk : Disk} {content : String}
variable {used : String → Prop}

theorem Action.Ensures.after {α : Type} {x : Action α} {P Q : World → Prop}
    (h : Ensures P x (fun _ => Q) Q) (hP : w.Quiet → P w) :
    (x.perform w).2.Quiet → Q (x.perform w).2 := by
  intro hquiet
  have hw := h w hP hquiet
  cases hresult : x.perform w with
  | mk result w' =>
    rw [hresult] at hw
    cases result <;> exact hw

theorem Call.durable (hserves : r.Serves) (hpersist : r.settings.persist = true) (c : Call)
    (hwithin : c.Within r.used) (hspares : ∀ k content, r.rest k content → c.Spares k)
    (h : w.Quiet → r.Durable (fun _ => False) w) (hquiet : (c.after w).Quiet) :
    r.Durable (fun _ => False) (c.after w) := by
  cases c with
  | start path =>
    exact (ensures_start hserves hpersist (hwithin path List.mem_cons_self) hspares).after h hquiet
  | stop path => exact (ensures_stop hserves (hwithin path List.mem_cons_self)).after h hquiet
  | suspend path => exact ensures_suspend.after h hquiet
  | resume path => exact ensures_resume.after h hquiet
  | move old new =>
    have hnew := hwithin new (List.mem_cons_of_mem _ List.mem_cons_self)
    exact (ensures_move hserves hpersist (hwithin old List.mem_cons_self) hnew
      hspares).after h hquiet
  | apply changes =>
    exact (ensures_apply hserves hpersist (hwithin changes.file List.mem_cons_self)
      hspares).after h hquiet
  | discardFile path =>
    exact (ensures_discardFile hserves (hwithin path List.mem_cons_self)).after h hquiet
  | discardProject project => exact (ensures_discardProject hserves hspares).after h hquiet

theorem Setup.Durable.edit (hserves : r.Serves) (h : r.Durable (fun _ => False) w)
    (hspares : r.shadows.Spares r.base w.disk disk) :
    r.Durable (fun _ => False) { w with disk := disk } := by
  refine ⟨h.shadows_eq, h.settings_eq, hspares.grounds, h.keyed, h.resting, ?_⟩
  intro k c hk hholds
  obtain ⟨hproject, hfile⟩ := (h.addresses hholds).isFile hserves
  exact Shadows.read_spares hserves.rooted h.grounds hproject hfile hspares (h.kept k c hk hholds)

theorem Run.durable (hserves : r.Serves) (hpersist : r.settings.persist = true)
    {allowed : Call → Prop}
    (hallowed : ∀ c, allowed c → c.Within r.used ∧ ∀ k content, r.rest k content → c.Spares k)
    (hrun : Run r.shadows r.base allowed w w') (h : r.Durable (fun _ => False) w) :
    w'.Quiet → r.Durable (fun _ => False) w' := by
  induction hrun with
  | refl => exact fun _ => h
  | call _ c hc ih =>
    exact c.durable hserves hpersist (hallowed c hc).1 (hallowed c hc).2 ih
  | edit _ disk hspares ih => exact fun hquiet => (ih hquiet).edit hserves hspares

end EditorSync.Store
