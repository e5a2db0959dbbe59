import EditorSync.Proofs.LanguageServer.Duties

namespace EditorSync.LanguageServer

open Function (update)

variable {σ : Type}

structure Sound (site : Site) (s : State (Recorded σ)) (duty : String → Duty) : Prop where
  orderly : ∀ p uri, (standing? s.host.told p uri).isSome
  unborn : ∀ p uri, s.host.processes.length ≤ p → standing? s.host.told p uri = some none
  documents : ∀ file d, s.documents.get? file = some d → site.Names file d.language d.uri
  serving : ∀ l p, s.serving.get? l = some p → s.Born l p
  upheld : ∀ file, s.Upholds site file (duty file)
  starter : ∀ file other, file ≠ other → (duty file).Starts → ¬(duty other).Starts
  blank : ∀ file, s.Blank (duty file)
  -- of a fresh server nothing is left to be said by calls that have noted their document before
  unbound : ∀ l p file other, file ≠ other → (duty file).Unsettles l p → ¬(duty other).Binds l p
  -- the table is about the server in use, but not while a call still has to forget the old one
  current : ∀ l p, s.active? l = some p → (∀ file, ¬(duty file).Unsettles l p) →
    ∀ file, s.Stands site l p file (duty file)

namespace Sound

variable {site : Site} {s s' : State (Recorded σ)} {duty : String → Duty} {file : String}

theorem initial (site : Site) (host : σ) :
    Sound site (.new ⟨host, [], []⟩) fun _ => .nothing where
  orderly _ _ := rfl
  unborn _ _ _ := rfl
  documents _ _ h := nomatch h
  serving _ _ h := nomatch h
  upheld _ := trivial
  starter _ _ _ h := h.elim
  blank _ _ _ _ h := h.elim
  unbound _ _ _ _ _ h := h.elim
  current _ _ h := nomatch h

theorem active?_of_grows (h : Sound site s duty) (hg : s.Grows s') {l : String} {p : Nat}
    (hactive : s'.active? l = some p) : s.active? l = some p := by
  rw [State.active?_eq_some_iff, hg.serving] at hactive
  have hborn := h.serving l p hactive.1
  exact (State.active?_eq_some_iff s l p).2
    ⟨hactive.1, (hg.clients p hborn.lt).alive hactive.2⟩

theorem grow (h : Sound site s duty) (hg : s.Grows s') : Sound site s' duty where
  orderly p uri := by
    rw [hg.standing]
    exact h.orderly p uri
  unborn p uri hle := by
    rw [hg.standing]
    exact h.unborn p uri (Nat.le_trans hg.processes hle)
  documents file d hd := by
    rw [hg.documents] at hd
    exact h.documents file d hd
  serving l p hp := by
    rw [hg.serving] at hp
    exact (h.serving l p hp).grow hg
  upheld file := (h.upheld file).grow hg
  starter := h.starter
  blank file l p uri hfresh := by
    rw [hg.standing]
    exact h.blank file l p uri hfresh
  unbound := h.unbound
  current l p hactive hsettled file uri hnames := by
    rw [hg.standing, hg.documents]
    exact h.current l p (h.active?_of_grows hg hactive) hsettled file uri hnames

theorem turn (h : Sound site s duty) {next : Duty} (hsuits : Duty.Suits duty file next)
    (hup : s.Upholds site file next)
    (hblank : s.Blank next)
    (hcurrent : ∀ l p uri, s.active? l = some p → site.Names file l uri →
      next.standing p (s.documents.get? file) = (duty file).standing p (s.documents.get? file))
    (hsettled : ∀ l p, s.active? l = some p → ¬(duty file).Unsettles l p) :
    Sound site s (update duty file next) where
  orderly := h.orderly
  unborn := h.unborn
  documents := h.documents
  serving := h.serving
  upheld := (Function.forall_update_iff duty (s.Upholds site)).2 ⟨hup, fun other _ => h.upheld other⟩
  starter := hsuits.starter h.starter
  blank := (Function.forall_update_iff duty fun _ => s.Blank).2
    ⟨hblank, fun other _ => h.blank other⟩
  unbound l p := hsuits.unbound (h.unbound l p)
  current l p hactive hnext := by
    have hold := h.current l p hactive (Duty.settled_of_update (hsettled l p hactive) hnext)
    refine (Function.forall_update_iff duty (s.Stands site l p)).2 ⟨?_, ?_⟩
    · intro uri hnames
      rw [hcurrent l p uri hactive hnames]
      exact hold file uri hnames
    · exact fun other _ => hold other

theorem finish (h : Sound site s duty)
    (hcurrent : ∀ l p uri, s.active? l = some p → site.Names file l uri →
      (duty file).standing p (s.documents.get? file) =
        (s.documents.get? file).map fun d => (d.version : Int))
    (hsettled : ∀ l p, s.active? l = some p → ¬(duty file).Unsettles l p) :
    Sound site s (update duty file .nothing) :=
  h.turn (Duty.suits_nothing duty file) trivial (fun _ _ _ => False.elim)
    (fun l p uri hactive hnames => (hcurrent l p uri hactive hnames).symm) hsettled

theorem finish_dead (h : Sound site s duty) {process : Nat}
    (hbinds : ∀ l, (duty file).Binds l process)
    (hother : ∀ p, process ≠ p → (duty file).standing p (s.documents.get? file) =
      (s.documents.get? file).map fun d => (d.version : Int))
    (hdead : (s.client process).isAlive = false) : Sound site s (update duty file .nothing) := by
  refine h.finish (fun l p uri hactive _ => hother p ?_) fun l p _ => (hbinds l).not_unsettles
  rintro rfl
  rw [State.active?_eq_some_iff, hdead] at hactive
  cases hactive.2

theorem unserve (h : Sound site s duty) {language : String}
    (hinactive : s.active? language = none) : Sound site (s.unserve language) duty := by
  have hserving : ∀ l p, (s.unserve language).serving.get? l = some p →
      s.serving.get? l = some p := by
    intro l p hp
    rw [State.unserve, Table.get?_erase] at hp
    split at hp
    · cases hp
    · exact hp
  have huses : ∀ l p, s.Uses l p → (s.unserve language).Uses l p := by
    intro l p huses halive
    have hp := huses halive
    rw [State.unserve, Table.get?_erase]
    split
    · rename_i hl
      have hactive := (State.active?_eq_some_iff s l p).2 ⟨hp, halive⟩
      rw [hl, hinactive] at hactive
      cases hactive
    · exact hp
  refine ⟨h.orderly, h.unborn, h.documents, ?_, ?_, h.starter, h.blank, h.unbound, ?_⟩
  · intro l p hp
    have hborn := h.serving l p (hserving l p hp)
    exact ⟨hborn.lt, hborn.language⟩
  · intro file
    refine (h.upheld file).transfer (fun l p hb => ⟨hb.lt, hb.language⟩)
      (fun l p _ => huses l p) ?_ id fun d p isOpen _ _ halive hd => hd halive
    intro l p _ hnone
    rw [State.unserve, Table.get?_erase]
    split
    · rfl
    · exact hnone
  · intro l p hactive
    rw [State.active?_eq_some_iff] at hactive
    exact h.current l p ((State.active?_eq_some_iff s l p).2 ⟨hserving l p hactive.1, hactive.2⟩)

theorem start (h : Sound site s duty) {l : String} (hduty : duty file = .nothing)
    (hinactive : s.active? l = none) (hg : (s.unserve l).Grows s')
    (hborn : s'.Born l s.host.processes.length)
    (hstarts : ∀ other, other ≠ file → ¬(duty other).Starts)
    (hclose : ∀ other d, duty other = .close d → d.language ≠ l) :
    Sound site s' (update duty file (.start l s.host.processes.length)) := by
  have hnone : s'.serving.get? l = none := by
    rw [hg.serving, State.unserve, Table.get?_erase, if_pos rfl]
  have hsuits : Duty.Suits duty file (.start l s.host.processes.length) := by
    refine ⟨fun _ => hstarts, fun l' p hnext other _ hbinds => ?_, fun _ _ => False.elim⟩
    obtain ⟨rfl, rfl⟩ := hnext
    have hup := h.upheld other
    cases hother : duty other with
    | inform d q isOpen =>
      rw [hother] at hup hbinds
      exact absurd hup.2.1.lt (Nat.not_lt_of_le (Nat.le_of_eq hbinds.symm))
    | leave d q =>
      rw [hother] at hup hbinds
      exact absurd hup.2.1.lt (Nat.not_lt_of_le (Nat.le_of_eq hbinds.symm))
    | close d =>
      rw [hother] at hbinds
      exact hclose other d hother hbinds
    | nothing => exact (hother ▸ hbinds : Duty.Binds _ _ .nothing)
    | start l q => exact (hother ▸ hbinds : Duty.Binds _ _ (.start l q))
    | hold l q fresh => exact (hother ▸ hbinds : Duty.Binds _ _ (.hold l q fresh))
  refine ((h.unserve hinactive).grow hg).turn hsuits ⟨hborn, hnone⟩ ?_ ?_ ?_
  · intro l' p uri hnext
    obtain ⟨-, rfl⟩ := hnext
    rw [hg.standing]
    exact h.unborn _ uri (Nat.le_refl _)
  · intro l' p uri _ _
    rw [hduty]
    rfl
  · intro l' p _
    rw [hduty]
    exact id

theorem upheld_serve (h : Sound site s duty) {l : String} {process : Nat}
    (hduty : duty file = .start l process) (hnone : s.serving.get? l = none) {other : String}
    (hne : other ≠ file) : (s.serve l process).Upholds site other (duty other) := by
  refine (h.upheld other).transfer (fun l p hb => ⟨hb.lt, hb.language⟩) ?_ ?_ id
    fun d p isOpen _ _ halive hd => hd halive
  · intro l' p _ huses halive
    have hp := huses halive
    rw [State.serve, Table.get?_insert]
    split
    · rename_i hl
      rw [hl, hnone] at hp
      cases hp
    · exact hp
  · intro l' p hother _
    have hstarts := h.starter file other (Ne.symm hne)
    rw [hduty, hother] at hstarts
    exact absurd trivial (hstarts trivial)

theorem serve (h : Sound site s duty) {language : String} {process : Nat}
    (hduty : duty file = .start language process) :
    Sound site (s.serve language process) (update duty file (.hold language process true)) := by
  have hstart := h.upheld file
  rw [hduty] at hstart
  obtain ⟨hborn, hnone⟩ := hstart
  have hserving : ∀ l, (s.serve language process).serving.get? l =
      if l = language then some process else s.serving.get? l :=
    fun l => Table.get?_insert s.serving language l process
  have hsuits : Duty.Suits duty file (.hold language process true) := by
    refine ⟨False.elim, fun l p hnext other hne => ?_, fun _ _ => False.elim⟩
    refine h.unbound l p file other (Ne.symm hne) ?_
    rw [hduty]
    exact ⟨hnext.1, hnext.2.1⟩
  refine ⟨h.orderly, h.unborn, h.documents, ?_, ?_, hsuits.starter h.starter, ?_,
    fun l p => hsuits.unbound (h.unbound l p), ?_⟩
  · intro l p hp
    rw [hserving] at hp
    split at hp
    · rename_i hl
      cases hp
      exact ⟨hborn.lt, hborn.language.trans hl.symm⟩
    · have hb := h.serving l p hp
      exact ⟨hb.lt, hb.language⟩
  · refine (Function.forall_update_iff duty _).2
      ⟨⟨⟨hborn.lt, hborn.language⟩, fun _ => ?_⟩, fun other hne => h.upheld_serve hduty hnone hne⟩
    rw [hserving, if_pos rfl]
  · refine (Function.forall_update_iff duty fun _ => s.Blank).2
      ⟨fun l p uri hnext => ?_, fun other _ => h.blank other⟩
    refine h.blank file l p uri ?_
    rw [hduty]
    exact ⟨hnext.1, hnext.2.1⟩
  · intro l p hactive hnext
    rw [State.active?_eq_some_iff, hserving] at hactive
    have hl : l ≠ language := by
      rintro rfl
      have hfile := hnext file
      rw [Function.update_self] at hfile
      rw [if_pos rfl] at hactive
      exact hfile ⟨rfl, Option.some.inj hactive.1, rfl⟩
    rw [if_neg hl] at hactive
    have hsettled : ¬(duty file).Unsettles l p := by
      rw [hduty]
      exact fun hfile => hl hfile.1.symm
    have hold := h.current l p ((State.active?_eq_some_iff s l p).2 hactive)
      (Duty.settled_of_update hsettled hnext)
    refine (Function.forall_update_iff duty (s.Stands site l p)).2 ⟨?_, ?_⟩
    · intro uri hnames
      have hfile := hold file uri hnames
      rwa [hduty] at hfile
    · exact fun other _ => hold other

theorem tell (h : Sound site s duty) {d : Document} {process : Nat} {message : Json}
    {event : DocumentEvent} (hbinds : ∀ l, (duty file).Binds l process)
    (hnames : site.Names file d.language d.uri) (hborn : s.Born d.language process)
    (hactive : s.active? d.language = some process)
    (hevent : documentEvent? message = some (d.uri, event))
    (hnext : DocumentEvent.next? ((duty file).standing process (s.documents.get? file)) event =
      some ((s.documents.get? file).map fun d => (d.version : Int))) :
    Sound site (s.tell process message) (update duty file .nothing) := by
  have hsettled : ∀ f l, ¬(duty f).Unsettles l process := by
    intro f l
    by_cases hf : f = file
    · exact hf ▸ (hbinds l).not_unsettles
    · exact fun hfresh => h.unbound l process f file hf hfresh (hbinds l)
  have hold := h.current d.language process hactive (fun f => hsettled f d.language)
  have hnow : standing? (s.tell process message).host.told process d.uri =
      some ((s.documents.get? file).map fun d => (d.version : Int)) := by
    change standing? (s.host.told ++ [(process, message)]) process d.uri = _
    rw [standing?_told hevent, hold file d.uri hnames]
    exact hnext
  have hother : ∀ p uri, ¬(process = p ∧ d.uri = uri) →
      standing? (s.tell process message).host.told p uri = standing? s.host.told p uri :=
    fun p uri hne => standing?_other hevent hne
  have hsuits := Duty.suits_nothing duty file
  refine ⟨?_, ?_, h.documents, ?_, ?_, hsuits.starter h.starter, ?_,
    fun l p => hsuits.unbound (h.unbound l p), ?_⟩
  · intro p uri
    by_cases hsame : process = p ∧ d.uri = uri
    · obtain ⟨rfl, rfl⟩ := hsame
      rw [hnow]
      rfl
    · rw [hother p uri hsame]
      exact h.orderly p uri
  · intro p uri hle
    have hlt := hborn.lt
    rw [hother p uri fun hsame => Nat.lt_irrefl p (Nat.lt_of_lt_of_le (hsame.1 ▸ hlt) hle)]
    exact h.unborn p uri hle
  · intro l p hp
    have hb := h.serving l p hp
    exact ⟨hb.lt, hb.language⟩
  · refine (Function.forall_update_iff duty _).2 ⟨trivial, fun other _ => ?_⟩
    exact (h.upheld other).transfer (fun l p hb => ⟨hb.lt, hb.language⟩) (fun _ _ _ hu => hu)
      (fun _ _ _ hnone => hnone) id fun _ _ _ _ _ halive hd => hd halive
  · refine (Function.forall_update_iff duty fun _ => (s.tell process message).Blank).2
      ⟨fun _ _ _ => False.elim, fun other _ l p uri hfresh => ?_⟩
    rw [hother p uri fun hsame => hsettled other l (hsame.1 ▸ hfresh)]
    exact h.blank other l p uri hfresh
  · intro l p hp hnext
    change s.active? l = some p at hp
    have hthen := h.current l p hp ?_
    · refine (Function.forall_update_iff duty ((s.tell process message).Stands site l p)).2
        ⟨fun uri hfile => ?_, ?_⟩
      · obtain ⟨rfl, rfl⟩ := hnames.unique hfile
        rw [hactive] at hp
        cases hp
        exact hnow
      · intro other hne uri hfile
        rw [hother p uri fun hsame => hne (hfile.file_eq (hsame.2 ▸ hnames))]
        exact hthen other uri hfile
    · exact Duty.settled_of_update (hbinds l |>.not_unsettles) hnext

theorem remove (h : Sound site s duty) {d : Document} (hduty : duty file = .nothing)
    (hd : s.documents.get? file = some d)
    (hsettled : ∀ other p, other ≠ file → ¬(duty other).Unsettles d.language p) :
    Sound site { s with documents := s.documents.erase file } (update duty file (.close d)) := by
  have hget : ∀ other, (s.documents.erase file).get? other =
      if other = file then none else s.documents.get? other :=
    fun other => Table.get?_erase s.documents file other
  have hsuits : Duty.Suits duty file (.close d) := by
    refine ⟨False.elim, fun _ _ => False.elim, fun l p hl other hne => ?_⟩
    cases hl
    exact hsettled other p hne
  refine ⟨h.orderly, h.unborn, ?_, ?_, ?_, hsuits.starter h.starter, ?_,
    fun l p => hsuits.unbound (h.unbound l p), ?_⟩
  · intro other d' hd'
    dsimp only at hd'
    rw [hget] at hd'
    split at hd'
    · cases hd'
    · exact h.documents other d' hd'
  · intro l p hp
    have hb := h.serving l p hp
    exact ⟨hb.lt, hb.language⟩
  · refine (Function.forall_update_iff duty _).2 ⟨⟨h.documents file d hd, ?_⟩, fun other hne => ?_⟩
    · dsimp only
      rw [hget, if_pos rfl]
    · refine (h.upheld other).transfer (fun l p hb => ⟨hb.lt, hb.language⟩) (fun _ _ _ hu => hu)
        (fun _ _ _ hnone => hnone) ?_ ?_
      · intro hnone
        dsimp only
        rw [hget, if_neg hne, hnone]
      · intro d' p isOpen _ _ halive hd'
        dsimp only
        rw [hget, if_neg hne]
        exact hd' halive
  · exact (Function.forall_update_iff duty fun _ => s.Blank).2
      ⟨fun _ _ _ => False.elim, fun other _ => h.blank other⟩
  · intro l p hactive hnext
    have hfile : ¬(duty file).Unsettles l p := by
      rw [hduty]
      exact id
    have hold := h.current l p hactive (Duty.settled_of_update hfile hnext)
    refine (Function.forall_update_iff duty (State.Stands _ site l p)).2
      ⟨fun uri hnames => ?_, ?_⟩
    · have hthen := hold file uri hnames
      rw [hduty, hd] at hthen
      exact hthen
    · intro other hne uri hnames
      rw [hget, if_neg hne]
      exact hold other uri hnames

theorem opened_other (h : Sound site s duty) {l l' uri : String} (fresh : Bool)
    (hnames : site.Names file l' uri) (hl : l' ≠ l) :
    (s.opened l fresh).get? file = s.documents.get? file := by
  cases fresh with
  | false => rfl
  | true =>
    rw [State.opened, if_pos rfl, Table.get?_filter]
    cases hd : s.documents.get? file with
    | none => rfl
    | some d =>
      have hlanguage := ((h.documents file d hd).unique hnames).1
      simp [Option.filter, hlanguage, hl]

theorem opened_fresh (h : Sound site s duty) {l uri : String} (hnames : site.Names file l uri) :
    (s.opened l true).get? file = none := by
  rw [State.opened, if_pos rfl, Table.get?_filter]
  cases hd : s.documents.get? file with
  | none => rfl
  | some d =>
    have hlanguage := ((h.documents file d hd).unique hnames).1
    simp [Option.filter, hlanguage]

theorem of_opened {l : String} {fresh : Bool} {d : Document}
    (hd : (s.opened l fresh).get? file = some d) : s.documents.get? file = some d := by
  cases fresh with
  | false => exact hd
  | true =>
    rw [State.opened, if_pos rfl, Table.get?_filter, Option.filter_eq_some_iff] at hd
    exact hd.1

section Note

variable {l uri : String} {process : Nat} {fresh : Bool} {d : Document}

theorem upheld_note (h : Sound site s duty) (hduty : duty file = .hold l process fresh)
    (hactive : ∀ p, s.active? l = some p → p = process) {other : String} (hne : other ≠ file) :
    State.Upholds { s with documents := (s.opened l fresh).insert file d } site other
      (duty other) := by
  have hget : ((s.opened l fresh).insert file d).get? other = (s.opened l fresh).get? other := by
    rw [Table.get?_insert, if_neg hne]
  refine (h.upheld other).transfer (fun l p hb => ⟨hb.lt, hb.language⟩) (fun _ _ _ hu => hu)
    (fun _ _ _ hnone => hnone) ?_ ?_
  · intro hnone
    rw [hget, Option.eq_none_iff_forall_ne_some]
    intro d' hd'
    rw [of_opened hd'] at hnone
    cases hnone
  · intro d' p isOpen hother _ halive hd'
    have hinform := h.upheld other
    rw [hother] at hinform
    obtain ⟨hnames, -, huses, -, -⟩ := hinform
    rw [hget]
    by_cases hl : d'.language = l
    · cases fresh with
      | false => exact hd' halive
      | true =>
        -- its server would be the one that the document is noted for, which is fresh
        have hp := (State.active?_eq_some_iff s l p).2 ⟨hl ▸ huses halive, halive⟩
        have hunbound := h.unbound l process file other (Ne.symm hne)
        rw [hduty, hother] at hunbound
        exact absurd (hactive p hp) (hunbound ⟨rfl, rfl, rfl⟩)
    · rw [h.opened_other fresh hnames hl]
      exact hd' halive

theorem stands_note_known (h : ∀ f, s.Stands site l process f (duty f))
    (hduty : duty file = .hold l process false)
    (hversion : d.version = (s.documents.get? file).elim 1 (·.version + 1)) (f : String) :
    State.Stands { s with documents := s.documents.insert file d } site l process f
      (update duty file (.inform d process (s.documents.get? file).isSome) f) := by
  revert f
  refine (Function.forall_update_iff duty (State.Stands _ site l process)).2 ⟨?_, ?_⟩
  · intro uri hnames
    rw [h file uri hnames, hduty, Duty.standing_inform, hversion]
    change some ((s.documents.get? file).map fun d => (d.version : Int)) = _
    cases s.documents.get? file <;> simp
  · intro other hne uri hnames
    rw [Table.get?_insert, if_neg hne]
    exact h other uri hnames

theorem stands_note_fresh (h : Sound site s duty) (hduty : duty file = .hold l process true)
    (f : String) :
    State.Stands { s with documents := (s.opened l true).insert file d } site l process f
      (update duty file (.inform d process ((s.opened l true).get? file).isSome) f) := by
  have hfresh : (duty file).Unsettles l process := by
    rw [hduty]
    exact ⟨rfl, rfl, rfl⟩
  revert f
  refine (Function.forall_update_iff duty (State.Stands _ site l process)).2 ⟨?_, ?_⟩
  · intro uri hnames
    rw [h.blank file l process uri hfresh, h.opened_fresh hnames, Duty.standing_inform]
    rfl
  · intro other hne uri hnames
    rw [h.blank file l process uri hfresh, Table.get?_insert, if_neg hne, h.opened_fresh hnames]
    refine congrArg some (Duty.standing_of_not_binds
      (h.unbound l process file other (Ne.symm hne) hfresh) ?_ none).symm
    intro d' hother
    have hclose := h.upheld other
    rw [hother] at hclose
    exact (hclose.1.unique hnames).1

theorem note (h : Sound site s duty) (hduty : duty file = .hold l process fresh)
    (hnames : site.Names file l uri)
    (hsettled : ∀ other, other ≠ file → ¬(duty other).Unsettles l process)
    (hactive : ∀ p, s.active? l = some p → p = process)
    (hd : d = ⟨l, uri, ((s.opened l fresh).get? file).elim 1 (·.version + 1)⟩) :
    Sound site { s with documents := (s.opened l fresh).insert file d }
      (update duty file (.inform d process ((s.opened l fresh).get? file).isSome)) := by
  have hhold := h.upheld file
  rw [hduty] at hhold
  obtain ⟨hborn, huses⟩ := hhold
  have hget : ∀ other, ((s.opened l fresh).insert file d).get? other =
      if other = file then some d else (s.opened l fresh).get? other :=
    fun other => Table.get?_insert _ file other d
  have hsuits : Duty.Suits duty file
      (.inform d process ((s.opened l fresh).get? file).isSome) := by
    refine ⟨False.elim, fun _ _ => False.elim, fun l' p hp other hne hfresh => ?_⟩
    cases hp
    have hl : l' = l := ((h.upheld other).born hfresh).language.symm.trans hborn.language
    exact hsettled other hne (hl ▸ hfresh)
  refine ⟨h.orderly, h.unborn, ?_, ?_, ?_, hsuits.starter h.starter, ?_,
    fun l' p => hsuits.unbound (h.unbound l' p), ?_⟩
  · intro other d' hd'
    dsimp only at hd'
    rw [hget] at hd'
    split at hd'
    · rename_i hfile
      cases hd'
      subst hfile hd
      exact hnames
    · exact h.documents other d' (of_opened hd')
  · intro l' p hp
    have hb := h.serving l' p hp
    exact ⟨hb.lt, hb.language⟩
  · refine (Function.forall_update_iff duty _).2
      ⟨?_, fun other hne => h.upheld_note hduty hactive hne⟩
    subst hd
    refine ⟨hnames, ⟨hborn.lt, hborn.language⟩, huses, fun _ => ?_, fun hnone => ?_⟩
    · rw [hget, if_pos rfl]
    · rw [Option.isSome_eq_false_iff, Option.isNone_iff_eq_none] at hnone
      rw [hnone]
      rfl
  · exact (Function.forall_update_iff duty fun _ => s.Blank).2
      ⟨fun _ _ _ => False.elim, fun other _ => h.blank other⟩
  · intro l' p hp hnext
    change s.active? l' = some p at hp
    by_cases hl : l' = l
    · subst hl
      cases hactive p hp
      cases fresh with
      | true => exact h.stands_note_fresh hduty
      | false =>
        refine stands_note_known (h.current l' process hp fun f => ?_) hduty (by rw [hd]; rfl)
        by_cases hf : f = file
        · rw [hf, hduty]
          exact fun hfresh => Bool.noConfusion hfresh.2.2
        · exact hsettled f hf
    · have hfile : ¬(duty file).Unsettles l' p := by
        rw [hduty]
        exact fun hfresh => hl hfresh.1.symm
      have hold := h.current l' p hp (Duty.settled_of_update hfile hnext)
      refine (Function.forall_update_iff duty (State.Stands _ site l' p)).2
        ⟨fun uri' hnames' => absurd (hnames'.unique hnames).1 hl, ?_⟩
      intro other hne uri' hnames'
      rw [hget, if_neg hne, h.opened_other fresh hnames' hl]
      exact hold other uri' hnames'

end Note

end Sound
end EditorSync.LanguageServer
