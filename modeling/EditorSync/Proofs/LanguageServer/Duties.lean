import EditorSync.Proofs.LanguageServer.Interleaving
import EditorSync.Proofs.LanguageServer.Uri
import Mathlib.Data.Set.Defs

namespace EditorSync.LanguageServer

open Function (update)
open State (Grows)

variable {σ : Type}

/-- The files that are worked on, and where they are. No two of them have the same URI. -/
structure Site where
  files : Set String
  real : String → String
  distinct : ∀ file file' uri, file ∈ files → file' ∈ files →
    uriOf (real file) = .ok uri → uriOf (real file') = .ok uri → file = file'

def Site.ofRoot (root : String) : Site where
  files := {file | Path.normalize? file = some file}
  real file := Path.append root (Workspace.relative file)
  distinct _ _ _ hfile hfile' := file_eq_of_uriOf hfile hfile'

structure Site.Names (site : Site) (file language uri : String) : Prop where
  mem : file ∈ site.files
  language : languageOf? (site.real file) = some language
  uri : uriOf (site.real file) = .ok uri

theorem Site.Names.unique {site : Site} {file language language' uri uri' : String}
    (h : site.Names file language uri) (h' : site.Names file language' uri') :
    language = language' ∧ uri = uri' := by
  have hlanguage := h.language.symm.trans h'.language
  have huri := h.uri.symm.trans h'.uri
  exact ⟨Option.some.inj hlanguage, Except.ok.inj huri⟩

theorem Site.Names.file_eq {site : Site} {file file' language language' uri : String}
    (h : site.Names file language uri) (h' : site.Names file' language' uri) : file = file' :=
  site.distinct file file' uri h.mem h'.mem h.uri h'.uri

/-- What a call has to do about documents yet: a server that it starts, a server that it will note
its document for, a version that it has noted, and a document that it has removed. -/
inductive Duty where
  | nothing
  | start (language : String) (process : Nat)
  | hold (language : String) (process : Nat) (fresh : Bool)
  | inform (d : Document) (process : Nat) (isOpen : Bool)
  | close (d : Document)
  | leave (d : Document) (process : Nat)

namespace Duty

def Unsettles (language : String) (process : Nat) : Duty → Prop
  | start l p => l = language ∧ p = process
  | hold l p fresh => l = language ∧ p = process ∧ fresh = true
  | _ => False

def Binds (language : String) (process : Nat) : Duty → Prop
  | inform _ p _ | leave _ p => p = process
  | close d => d.language = language
  | _ => False

def Starts : Duty → Prop
  | start _ _ => True
  | _ => False

theorem Binds.not_unsettles {duty : Duty} {l l' : String} {p p' : Nat} (h : duty.Binds l p) :
    ¬duty.Unsettles l' p' := by
  cases duty <;> simp_all [Binds, Unsettles]

structure Suits (duty : String → Duty) (file : String) (next : Duty) : Prop where
  starts : next.Starts → ∀ other, other ≠ file → ¬(duty other).Starts
  unsettles : ∀ l p, next.Unsettles l p → ∀ other, other ≠ file → ¬(duty other).Binds l p
  binds : ∀ l p, next.Binds l p → ∀ other, other ≠ file → ¬(duty other).Unsettles l p

theorem suits_nothing (duty : String → Duty) (file : String) : Suits duty file .nothing :=
  ⟨False.elim, fun _ _ => False.elim, fun _ _ => False.elim⟩

section Update

variable {duty : String → Duty} {file : String} {next : Duty}

theorem pairs_of_update {R : Duty → Duty → Prop}
    (h : ∀ f other, f ≠ other → R (duty f) (duty other))
    (hfrom : ∀ other, other ≠ file → R next (duty other))
    (hto : ∀ other, other ≠ file → R (duty other) next) :
    ∀ f other, f ≠ other → R (update duty file next f) (update duty file next other) := by
  intro f other hne
  by_cases hf : f = file
  · subst hf
    rw [Function.update_self, Function.update_of_ne (Ne.symm hne)]
    exact hfrom other (Ne.symm hne)
  · rw [Function.update_of_ne hf]
    by_cases hother : other = file
    · subst hother
      rw [Function.update_self]
      exact hto f hf
    · rw [Function.update_of_ne hother]
      exact h f other hne

theorem Suits.starter (hs : Suits duty file next)
    (h : ∀ f other, f ≠ other → (duty f).Starts → ¬(duty other).Starts) :
    ∀ f other, f ≠ other → (update duty file next f).Starts → ¬(update duty file next other).Starts :=
  pairs_of_update (R := fun d d' => d.Starts → ¬d'.Starts) h
    (fun other hne hnext => hs.starts hnext other hne)
    fun other hne hother hnext => hs.starts hnext other hne hother

theorem Suits.unbound (hs : Suits duty file next) {l : String} {p : Nat}
    (h : ∀ f other, f ≠ other → (duty f).Unsettles l p → ¬(duty other).Binds l p) :
    ∀ f other, f ≠ other → (update duty file next f).Unsettles l p →
      ¬(update duty file next other).Binds l p :=
  pairs_of_update (R := fun d d' => d.Unsettles l p → ¬d'.Binds l p) h
    (fun other hne hnext => hs.unsettles l p hnext other hne)
    fun other hne hother hnext => hs.binds l p hnext other hne hother

theorem settled_of_update {l : String} {p : Nat} (hfile : ¬(duty file).Unsettles l p)
    (h : ∀ f, ¬(update duty file next f).Unsettles l p) : ∀ f, ¬(duty f).Unsettles l p := by
  intro f
  by_cases hf : f = file
  · exact hf ▸ hfile
  · have hother := h f
    rwa [Function.update_of_ne hf] at hother

end Update

def standing (process : Nat) (noted : Option Document) : Duty → Option Int
  | inform d p isOpen =>
    if p = process then if isOpen then some (d.version - 1) else none
    else noted.map fun d => (d.version : Int)
  | close d => some d.version
  | leave d p =>
    if p = process then some d.version else noted.map fun d => (d.version : Int)
  | _ => noted.map fun d => (d.version : Int)

theorem standing_inform (d : Document) (p : Nat) (isOpen : Bool) (noted : Option Document) :
    (inform d p isOpen).standing p noted = if isOpen then some ((d.version : Int) - 1) else none :=
  if_pos rfl

theorem standing_of_not_binds {duty : Duty} {l : String} {p : Nat} (h : ¬duty.Binds l p)
    (hclose : ∀ d, duty = .close d → d.language = l) (noted : Option Document) :
    duty.standing p noted = noted.map fun d => (d.version : Int) := by
  cases duty with
  | inform d q isOpen => exact if_neg h
  | leave d q => exact if_neg h
  | close d => exact absurd (hclose d rfl) h
  | nothing => rfl
  | start l q => rfl
  | hold l q fresh => rfl

end Duty

namespace State

def Uses (s : State σ) (language : String) (p : Nat) : Prop :=
  (s.client p).isAlive = true → s.serving.get? language = some p

def Upholds (s : State (Recorded σ)) (site : Site) (file : String) : Duty → Prop
  | .nothing => True
  | .start l p => s.Born l p ∧ s.serving.get? l = none
  | .hold l p _ => s.Born l p ∧ s.Uses l p
  | .inform d p isOpen =>
    site.Names file d.language d.uri ∧ s.Born d.language p ∧ s.Uses d.language p ∧
      ((s.client p).isAlive = true → s.documents.get? file = some d) ∧
      (isOpen = false → d.version = 1)
  | .close d => site.Names file d.language d.uri ∧ s.documents.get? file = none
  | .leave d p =>
    site.Names file d.language d.uri ∧ s.Born d.language p ∧ s.Uses d.language p ∧
      s.documents.get? file = none

def Blank (s : State (Recorded σ)) (duty : Duty) : Prop :=
  ∀ l p uri, duty.Unsettles l p → standing? s.host.told p uri = some none

def Stands (s : State (Recorded σ)) (site : Site) (l : String) (p : Nat) (file : String)
    (duty : Duty) : Prop :=
  ∀ uri, site.Names file l uri →
    standing? s.host.told p uri = some (duty.standing p (s.documents.get? file))

theorem active?_eq_some_iff (s : State σ) (language : String) (p : Nat) :
    s.active? language = some p ↔
      s.serving.get? language = some p ∧ (s.client p).isAlive = true := by
  rw [active?, Option.filter_eq_some_iff]

variable {s s' : State (Recorded σ)} {language : String} {p : Nat}

theorem Born.uses (h : s.Born language p) (hg : s.Grows s') (hu : s.Uses language p) :
    s'.Uses language p := by
  intro halive
  rw [hg.serving]
  exact hu ((hg.clients p h.lt).alive halive)

theorem Upholds.transfer {site : Site} {file : String} {duty : Duty}
    (h : s.Upholds site file duty)
    (hborn : ∀ l p, s.Born l p → s'.Born l p)
    (huses : ∀ l p, s.Born l p → s.Uses l p → s'.Uses l p)
    (hstart : ∀ l p, duty = .start l p → s.serving.get? l = none → s'.serving.get? l = none)
    (hnone : s.documents.get? file = none → s'.documents.get? file = none)
    (hnoted : ∀ d p isOpen, duty = .inform d p isOpen → s.Born d.language p →
      (s'.client p).isAlive = true →
      ((s.client p).isAlive = true → s.documents.get? file = some d) →
      s'.documents.get? file = some d) :
    s'.Upholds site file duty := by
  cases duty with
  | nothing => trivial
  | start l p => exact ⟨hborn l p h.1, hstart l p rfl h.2⟩
  | hold l p fresh => exact ⟨hborn l p h.1, huses l p h.1 h.2⟩
  | inform d p isOpen =>
    obtain ⟨hnames, hb, hu, hd, hone⟩ := h
    exact ⟨hnames, hborn _ p hb, huses _ p hb hu,
      fun halive => hnoted d p isOpen rfl hb halive hd, hone⟩
  | close d => exact ⟨h.1, hnone h.2⟩
  | leave d p =>
    obtain ⟨hnames, hb, hu, hd⟩ := h
    exact ⟨hnames, hborn _ p hb, huses _ p hb hu, hnone hd⟩

theorem Upholds.grow {site : Site} {file : String} {duty : Duty} (h : s.Upholds site file duty)
    (hg : s.Grows s') : s'.Upholds site file duty := by
  refine h.transfer (fun l p hb => hb.grow hg) (fun l p hb hu => hb.uses hg hu) ?_ ?_ ?_
  · intro l p _ hserving
    rw [hg.serving, hserving]
  · intro hnone
    rw [hg.documents, hnone]
  · intro d p isOpen _ hb halive hd
    rw [hg.documents]
    exact hd ((hg.clients p hb.lt).alive halive)

theorem Upholds.born {site : Site} {file : String} {duty : Duty} (h : s.Upholds site file duty)
    (hfresh : duty.Unsettles language p) : s.Born language p := by
  cases duty with
  | start l q =>
    obtain ⟨rfl, rfl⟩ := hfresh
    exact h.1
  | hold l q fresh =>
    obtain ⟨rfl, rfl, -⟩ := hfresh
    exact h.1
  | nothing => exact hfresh.elim
  | inform d q isOpen => exact hfresh.elim
  | close d => exact hfresh.elim
  | leave d q => exact hfresh.elim

end State

end EditorSync.LanguageServer
