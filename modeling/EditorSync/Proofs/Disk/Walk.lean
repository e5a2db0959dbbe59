import EditorSync.Disk.Basic
import EditorSync.Proofs.Path

namespace EditorSync.Disk

variable {d : Disk} {follow : Bool} {links : Nat} {place q : List String} {name : String}

def steps (segments : List String) : List String := segments.filter fun s => s ≠ "" ∧ s ≠ "."

theorem steps_append (xs ys : List String) : steps (xs ++ ys) = steps xs ++ steps ys :=
  List.filter_append ..

theorem steps_segments (path : String) : steps (Path.segments path) = Path.names path := rfl

theorem walk_skip (rest : List String) (h : name = "" ∨ name = ".") :
    d.walk follow links place (name :: rest) = d.walk follow links place rest := by
  rw [walk, if_pos h]

theorem walk_up (rest : List String) :
    d.walk follow links place (".." :: rest) = d.walk follow links place.dropLast rest := by
  rw [walk, if_neg (by decide), if_pos rfl]

theorem walk_skips {xs : List String} (rest : List String) (h : steps xs = []) :
    d.walk follow links place (xs ++ rest) = d.walk follow links place rest := by
  induction xs with
  | nil => rfl
  | cons name xs ih =>
    rw [steps, List.filter_eq_nil_iff] at h
    have hname : name = "" ∨ name = "." := by
      have hskip := h name List.mem_cons_self
      rw [decide_eq_true_eq, Decidable.not_and_iff_not_or_not] at hskip
      simpa only [Decidable.not_not] using hskip
    rw [List.cons_append, walk_skip _ hname]
    exact ih (List.filter_eq_nil_iff.mpr fun s hs => h s (List.mem_cons_of_mem _ hs))

theorem steps_cons_skip (rest : List String) (h : name = "" ∨ name = ".") :
    steps (name :: rest) = steps rest := by
  rw [steps, List.filter_cons_of_neg]
  · rfl
  · rcases h with rfl | rfl <;> decide

theorem steps_cons (rest : List String) (h : ¬(name = "" ∨ name = ".")) :
    steps (name :: rest) = name :: steps rest := by
  rw [steps, List.filter_cons_of_pos]
  · rfl
  · rw [decide_eq_true_eq]
    exact not_or.mp h

theorem steps_eq_cons {ys ns : List String} (h : steps ys = name :: ns) :
    ∃ skipped rest, ys = skipped ++ name :: rest ∧ steps skipped = [] ∧ steps rest = ns := by
  obtain ⟨skipped, rest, hys, hskipped, -, hrest⟩ := List.filter_eq_cons_iff.mp h
  exact ⟨skipped, rest, hys, List.filter_eq_nil_iff.mpr hskipped, hrest⟩

def LooksUp (name : String) : Prop :=
  ¬(name = "" ∨ name = ".") ∧ name ≠ ".." ∧ ¬maxName < name.utf8ByteSize

theorem walk_dir (rest : List String) (hname : LooksUp name)
    (hentry : d.entry? (place ++ [name]) = some .dir) :
    d.walk follow links place (name :: rest) = d.walk follow links (place ++ [name]) rest := by
  rw [walk, if_neg hname.1, if_neg hname.2.1, if_neg hname.2.2]
  simp only [hentry]

theorem walk_link {target : String} {rest : List String} (hname : LooksUp name)
    (hentry : d.entry? (place ++ [name]) = some (.link target))
    (hfollow : ¬(rest = [] ∧ (!follow) = true)) :
    d.walk follow (links + 1) place (name :: rest) =
      d.walk follow links (if Path.isAbsolute target then [] else place)
        (Path.segments target ++ rest) := by
  rw [walk, if_neg hname.1, if_neg hname.2.1, if_neg hname.2.2]
  simp only [hentry]
  rw [if_neg hfollow]

theorem walk_past {xs ys : List String} (h : d.walk true links place xs = .ok (.found q .dir))
    (hsteps : steps ys = steps xs) :
    ∃ left, ∀ follow rest, rest ≠ [] ∨ follow = true →
      d.walk follow links place (ys ++ rest) = d.walk follow left q rest := by
  induction links, place, xs using walk.induct d true generalizing ys with
  | case1 links place =>
    rw [walk, Except.ok.injEq, Target.found.injEq] at h
    refine ⟨links, fun follow rest _ => ?_⟩
    rw [walk_skips rest hsteps, h.1]
  | case2 links place name rest hskip ih =>
    rw [walk_skip rest hskip] at h
    rw [steps_cons_skip rest hskip] at hsteps
    exact ih h hsteps
  | case3 links place rest _ ih =>
    rw [walk_up] at h
    rw [steps_cons rest (by decide)] at hsteps
    obtain ⟨skipped, ys, rfl, hskipped, hys⟩ := steps_eq_cons hsteps
    obtain ⟨left, hleft⟩ := ih h hys
    refine ⟨left, fun follow more hmore => ?_⟩
    rw [List.append_assoc, walk_skips _ hskipped, List.cons_append, walk_up]
    exact hleft follow more hmore
  | case7 =>
    rename_i links place name rest hskip hup hfits here hentry ih
    rw [walk_dir rest ⟨hskip, hup, hfits⟩ hentry] at h
    rw [steps_cons rest hskip] at hsteps
    obtain ⟨skipped, ys, rfl, hskipped, hys⟩ := steps_eq_cons hsteps
    obtain ⟨left, hleft⟩ := ih h hys
    refine ⟨left, fun follow more hmore => ?_⟩
    rw [List.append_assoc, walk_skips _ hskipped, List.cons_append,
      walk_dir _ ⟨hskip, hup, hfits⟩ hentry]
    exact hleft follow more hmore
  | case12 =>
    rename_i place name rest hskip hup hfits here target hentry hfollow links start ih
    rw [walk_link ⟨hskip, hup, hfits⟩ hentry hfollow] at h
    rw [steps_cons rest hskip] at hsteps
    obtain ⟨skipped, ys, rfl, hskipped, hys⟩ := steps_eq_cons hsteps
    have htarget : steps (Path.segments target ++ ys) = steps (Path.segments target ++ rest) := by
      rw [steps_append, steps_append, hys]
    obtain ⟨left, hleft⟩ := ih h htarget
    refine ⟨left, fun follow more hmore => ?_⟩
    rw [List.append_assoc, walk_skips _ hskipped, List.cons_append,
      walk_link ⟨hskip, hup, hfits⟩ hentry ?_, ← List.append_assoc]
    · exact hleft follow more hmore
    · rintro ⟨hnil, hnofollow⟩
      rcases hmore with hmore | rfl
      · exact hmore (List.append_eq_nil_iff.mp hnil).2
      · cases hnofollow
  | _ =>
    -- In all other cases the walk ends elsewhere than in a directory.
    rw [walk] at h
    simp_all +zetaDelta
    try split at h <;> cases h

def look (d : Disk) (place : List String) : Target :=
  match d.entry? place with
  | none => .vacant place
  | some e => .found place e

structure Open (d : Disk) (place names : List String) : Prop where
  fits : ∀ name ∈ names, ¬maxName < name.utf8ByteSize
  dirs : ∀ above, above ≠ [] → above <+: names → above ≠ names →
    d.entry? (place ++ above) = some .dir

theorem open_singleton (hfits : ¬maxName < name.utf8ByteSize) : d.Open place [name] := by
  constructor
  · intro n hn
    rw [List.mem_singleton] at hn
    exact hn ▸ hfits
  · intro above hne hinit hproper
    rcases List.prefix_cons_iff.mp hinit with rfl | ⟨rest, rfl, hrest⟩
    · exact absurd rfl hne
    · rw [List.prefix_nil.mp hrest] at hproper
      exact absurd rfl hproper

theorem open_cons_iff {names : List String} (hne : names ≠ []) :
    d.Open place (name :: names) ↔ ¬maxName < name.utf8ByteSize ∧
      d.entry? (place ++ [name]) = some .dir ∧ d.Open (place ++ [name]) names := by
  constructor
  · intro h
    refine ⟨h.fits name List.mem_cons_self, ?_, ?_, ?_⟩
    · apply h.dirs [name] (by simp)
      · exact List.cons_prefix_cons.mpr ⟨rfl, List.nil_prefix⟩
      · simpa using hne.symm
    · exact fun n hn => h.fits n (List.mem_cons_of_mem _ hn)
    · intro above _ hinit hproper
      rw [List.append_assoc]
      apply h.dirs (name :: above) (by simp)
      · exact List.cons_prefix_cons.mpr ⟨rfl, hinit⟩
      · simpa using hproper
  · rintro ⟨hfits, hdir, hopen⟩
    constructor
    · intro n hn
      rcases List.mem_cons.mp hn with rfl | hn
      · exact hfits
      · exact hopen.fits n hn
    · intro above hne' hinit hproper
      rcases List.prefix_cons_iff.mp hinit with rfl | ⟨rest, rfl, hrest⟩
      · exact absurd rfl hne'
      · by_cases hempty : rest = []
        · rw [hempty]
          exact hdir
        · have hsub := hopen.dirs rest hempty hrest fun heq => hproper (heq ▸ rfl)
          rwa [List.append_assoc] at hsub

theorem Open.above {above names : List String} (h : d.Open place names) (hinit : above <+: names)
    (hproper : above ≠ names) : d.Open place above := by
  refine ⟨fun name hname => h.fits name (hinit.subset hname), fun upper hne hupper _ => ?_⟩
  refine h.dirs upper hne (hupper.trans hinit) ?_
  rintro rfl
  exact hproper (hinit.eq_of_length_le hupper.length_le)

theorem walk_last (hname : LooksUp name)
    (hfree : ∀ target, d.entry? (place ++ [name]) ≠ some (.link target)) :
    d.walk follow links place [name] = .ok (d.look (place ++ [name])) := by
  rw [walk, if_neg hname.1, if_neg hname.2.1, if_neg hname.2.2, look]
  cases hentry : d.entry? (place ++ [name]) with
  | none => simp [hentry]
  | some e =>
    cases e with
    | dir => simp [hentry, walk]
    | file content => simp [hentry]
    | link target => exact absurd hentry (hfree target)

theorem steps_ne_nil {segments : List String} (hne : segments ≠ [])
    (hlast : ∀ last, segments.getLast? = some last → ¬(last = "" ∨ last = ".")) :
    steps segments ≠ [] := by
  intro hempty
  have hmem := List.getLast_mem hne
  have hskip := List.filter_eq_nil_iff.mp hempty _ hmem
  rw [decide_eq_true_eq, ← not_or] at hskip
  exact hskip (hlast _ (List.getLast?_eq_some_getLast hne))

theorem walk_eq_ok_iff {segments : List String} {t : Target} (hup : ".." ∉ segments)
    (hlast : ∀ last, segments.getLast? = some last → ¬(last = "" ∨ last = "."))
    (hne : segments ≠ [])
    (hfree : ∀ above target, above ≠ [] → d.entry? (place ++ above) ≠ some (.link target)) :
    d.walk follow links place segments = .ok t ↔
      d.Open place (steps segments) ∧ t = d.look (place ++ steps segments) := by
  induction segments generalizing place with
  | nil => exact absurd rfl hne
  | cons name rest ih =>
    have hup' : ".." ∉ rest := fun h => hup (List.mem_cons_of_mem _ h)
    have hlast' (hrest : rest ≠ []) :
        ∀ last, rest.getLast? = some last → ¬(last = "" ∨ last = ".") := by
      intro last h
      apply hlast last
      rw [List.getLast?_cons, h, Option.getD_some]
    by_cases hskip : name = "" ∨ name = "."
    · have hrest : rest ≠ [] := by
        rintro rfl
        exact hlast name rfl hskip
      rw [walk_skip rest hskip, steps_cons_skip rest hskip]
      exact ih hup' (hlast' hrest) hrest hfree
    · have hname : name ≠ ".." := fun h => hup (h ▸ List.mem_cons_self)
      rw [steps_cons rest hskip]
      by_cases hfits : maxName < name.utf8ByteSize
      · rw [walk, if_neg hskip, if_neg hname, if_pos hfits]
        constructor
        · intro h
          cases h
        · exact fun h => absurd hfits (h.1.fits name List.mem_cons_self)
      by_cases hrest : rest = []
      · subst hrest
        rw [walk_last ⟨hskip, hname, hfits⟩ fun target => hfree [name] target (by simp),
          Except.ok.injEq]
        exact ⟨fun h => ⟨open_singleton hfits, h.symm⟩, fun h => h.2.symm⟩
      · rw [open_cons_iff (steps_ne_nil hrest (hlast' hrest))]
        by_cases hdir : d.entry? (place ++ [name]) = some .dir
        · have hfree' : ∀ above target, above ≠ [] →
              d.entry? (place ++ [name] ++ above) ≠ some (.link target) := by
            intro above target _
            rw [List.append_assoc]
            exact hfree _ target (by simp)
          rw [walk_dir rest ⟨hskip, hname, hfits⟩ hdir, ih hup' (hlast' hrest) hrest hfree']
          simp only [hfits, hdir, not_false_eq_true, true_and, List.append_assoc,
            List.singleton_append]
        · refine ⟨fun h => ?_, fun h => absurd h.1.2.1 hdir⟩
          rw [walk, if_neg hskip, if_neg hname, if_neg hfits] at h
          cases hentry : d.entry? (place ++ [name]) with
          | none =>
            simp only [hentry] at h
            rw [if_neg hrest] at h
            cases h
          | some e =>
            cases e with
            | dir => exact absurd hentry hdir
            | file content =>
              simp only [hentry] at h
              rw [if_neg hrest] at h
              cases h
            | link target => exact absurd hentry (hfree [name] target (by simp))

structure Beneath (root path : String) (names : List String) : Prop where
  names_eq : Path.names path = Path.names root ++ names
  plain : ∀ name ∈ names, Path.Plain name

def Ends (path : String) : Prop :=
  ∀ last, (Path.segments path).getLast? = some last → ¬(last = "" ∨ last = ".")

theorem Beneath.append {root path name : String} {names : List String}
    (h : Beneath root path names) (hname : Path.Plain name) :
    Beneath root (Path.append path name) (names ++ [name]) ∧ Ends (Path.append path name) := by
  have hslash := hname.2.2.2
  refine ⟨⟨?_, fun n hn => ?_⟩, fun last hlast => ?_⟩
  · rw [Path.names_append _ _ (Path.isAbsolute_of_not_mem hslash), h.names_eq,
      Path.names_of_plain hname, List.append_assoc]
  · rcases List.mem_append.mp hn with hn | hn
    · exact h.plain n hn
    · exact List.mem_singleton.mp hn ▸ hname
  · rw [Path.getLast?_segments_append, Path.segments_of_not_mem hslash, List.getLast?_singleton,
      Option.some.injEq] at hlast
    exact hlast ▸ not_or.mpr ⟨hname.1, hname.2.1⟩

def Sound (path : String) : Prop := '\x00' ∉ path.toList ∧ ¬maxPath ≤ path.utf8ByteSize

/-- The root leads to a directory whatever lies in it, which has a canonical path, and no links lie
in it. -/
structure Grounds (d : Disk) (root : String) (base : List String) : Prop where
  leads : ∀ d' : Disk, (∀ place, ¬(base <+: place ∧ place ≠ base) →
    d'.entry? place = d.entry? place) →
      d'.locate true root = .ok (.found base .dir) ∧ d'.canonical? root = some (Path.ofNames base)
  free : ∀ place target, base <+: place → d.entry? place ≠ some (.link target)

variable {root path : String} {base names : List String}

theorem locate_of_sound (h : Sound path) :
    d.locate follow path = d.walk follow maxLinks [] (Path.segments path) := by
  rw [locate, if_neg h.1, if_neg h.2]

theorem sound_of_locate {t : Target} (h : d.locate follow path = .ok t) : Sound path := by
  unfold locate at h
  split at h
  · cases h
  · split at h
    · cases h
    · exact ⟨‹_›, ‹_›⟩

theorem Sound.of_append {name : String} (h : Sound (Path.append path name))
    (hname : Path.isAbsolute name = false) : Sound path := by
  rcases Path.append_cases path name hname with ⟨rfl, -⟩ | ⟨stem, happend, hpath⟩
  · exact ⟨by simp, by decide⟩
  · rw [happend, Sound, String.toList_append, List.mem_append, not_or,
      String.utf8ByteSize_append] at h
    rcases hpath with rfl | rfl
    · rw [String.toList_append, List.mem_append, not_or, String.utf8ByteSize_append] at h
      exact ⟨h.1.1.1, fun hlong => h.2 (by omega)⟩
    · exact ⟨h.1.1, fun hlong => h.2 (by omega)⟩

theorem walk_dirs {segments : List String} (hup : ".." ∉ segments)
    (hfits : ∀ name ∈ steps segments, ¬maxName < name.utf8ByteSize)
    (hdirs : ∀ above, above ≠ [] → above <+: steps segments →
      d.entry? (place ++ above) = some .dir) :
    d.walk follow links place segments = .ok (.found (place ++ steps segments) .dir) := by
  induction segments generalizing place with
  | nil => rw [walk, steps, List.filter_nil, List.append_nil]
  | cons name rest ih =>
    obtain ⟨hname, hrest⟩ := not_or.mp (mt List.mem_cons.mpr hup)
    by_cases hskip : name = "" ∨ name = "."
    · rw [walk_skip rest hskip]
      rw [steps_cons_skip rest hskip] at hfits hdirs ⊢
      exact ih hrest hfits hdirs
    · rw [steps_cons rest hskip] at hfits hdirs ⊢
      have hlooks : LooksUp name := ⟨hskip, Ne.symm hname, hfits name List.mem_cons_self⟩
      have hhere := hdirs [name] (List.cons_ne_nil _ _)
        (List.cons_prefix_cons.mpr ⟨rfl, List.nil_prefix⟩)
      rw [walk_dir rest hlooks hhere, ih hrest (fun n hn => hfits n (List.mem_cons_of_mem _ hn)),
        List.append_assoc]
      · rfl
      · intro above _ hinit
        rw [List.append_assoc]
        exact hdirs (name :: above) (List.cons_ne_nil _ _) (List.cons_prefix_cons.mpr ⟨rfl, hinit⟩)

theorem Grounds.walk_root (h : d.Grounds root base) :
    d.walk true maxLinks [] (Path.segments root) = .ok (.found base .dir) := by
  have hroot := (h.leads d fun _ _ => rfl).1
  rwa [locate_of_sound (sound_of_locate hroot)] at hroot

theorem Grounds.walk_eq_walk (h : d.Grounds root base) (hpath : Beneath root path names)
    (hne : names ≠ []) (hends : Ends path) :
    ∃ left lower, (∀ follow, d.walk follow maxLinks [] (Path.segments path) =
        d.walk follow left base lower) ∧
      steps lower = names ∧ lower ≠ [] ∧
      ∀ last, lower.getLast? = some last → ¬(last = "" ∨ last = ".") := by
  obtain ⟨upper, lower, hsegments, hupper, hlower⟩ :=
    List.filter_eq_append_iff.mp ((steps_segments path).trans hpath.names_eq)
  have hupper' : steps upper = steps (Path.segments root) := hupper
  have hlower' : steps lower = names := hlower
  have hlowerne : lower ≠ [] := by
    rintro rfl
    exact hne hlower'.symm
  obtain ⟨left, hleft⟩ := walk_past h.walk_root hupper'
  refine ⟨left, lower, fun follow => ?_, hlower', hlowerne, fun last hlast => ?_⟩
  · rw [hsegments, hleft follow lower (.inl hlowerne)]
  · apply hends last
    rw [hsegments, List.getLast?_append, hlast, Option.some_or]

theorem Grounds.walk_eq_ok_iff (h : d.Grounds root base) (hpath : Beneath root path names)
    (hne : names ≠ []) (hends : Ends path) {t : Target} :
    d.walk follow maxLinks [] (Path.segments path) = .ok t ↔
      d.Open base names ∧ t = d.look (base ++ names) := by
  obtain ⟨left, lower, hwalk, hlower, hlowerne, hlast⟩ := h.walk_eq_walk hpath hne hends
  have hup : ".." ∉ lower := by
    intro hup
    have hmem : ".." ∈ names := by
      rw [← hlower, steps, List.mem_filter]
      exact ⟨hup, by decide⟩
    exact (hpath.plain _ hmem).2.2.1 rfl
  have hfree : ∀ above target, above ≠ [] → d.entry? (base ++ above) ≠ some (.link target) :=
    fun above target _ => h.free _ target (List.prefix_append _ _)
  rw [hwalk, Disk.walk_eq_ok_iff hup hlast hlowerne hfree, hlower]

theorem Grounds.locate_eq_ok_iff (h : d.Grounds root base) (hpath : Beneath root path names)
    (hne : names ≠ []) (hends : Ends path) {t : Target} :
    d.locate follow path = .ok t ↔
      Sound path ∧ d.Open base names ∧ t = d.look (base ++ names) := by
  by_cases hsound : Sound path
  · rw [locate_of_sound hsound, h.walk_eq_ok_iff hpath hne hends]
    simp only [hsound, true_and]
  · constructor
    · exact fun hok => absurd (sound_of_locate hok) hsound
    · exact fun hok => absurd hok.1 hsound

theorem Grounds.locate_ne_notFound {name : String} (h : d.Grounds root base)
    (hpath : Beneath root path [name]) (hends : Ends path) :
    d.locate follow path ≠ .error .notFound := by
  by_cases hsound : Sound path
  · obtain ⟨left, lower, hwalk, hlower, -, hlast⟩ := h.walk_eq_walk hpath (by simp) hends
    obtain ⟨skipped, rest, rfl, hskipped, hrest⟩ := steps_eq_cons hlower
    have hempty : rest = [] := by
      apply Decidable.byContradiction
      intro hne
      refine steps_ne_nil hne (fun last h => hlast last ?_) hrest
      rw [List.getLast?_append, List.getLast?_cons, h]
      rfl
    have hplain := hpath.plain name List.mem_cons_self
    have hskip : ¬(name = "" ∨ name = ".") := not_or.mpr ⟨hplain.1, hplain.2.1⟩
    rw [locate_of_sound hsound, hwalk, walk_skips _ hskipped, hempty]
    by_cases hfits : maxName < name.utf8ByteSize
    · rw [walk, if_neg hskip, if_neg hplain.2.2.1, if_pos hfits]
      intro heq
      cases heq
    · rw [walk_last ⟨hskip, hplain.2.2.1, hfits⟩ fun target =>
        h.free _ target (List.prefix_append _ _)]
      intro heq
      cases heq
  · rw [locate]
    intro heq
    split at heq
    · cases heq
    · split at heq
      · cases heq
      · exact hsound ⟨‹_›, ‹_›⟩

theorem look_eq_vacant_iff {p : List String} : d.look place = .vacant p ↔
    p = place ∧ d.entry? place = none := by
  unfold look
  split
  · rename_i hnone
    rw [Target.vacant.injEq]
    exact ⟨fun h => ⟨h.symm, hnone⟩, fun h => h.1.symm⟩
  · rename_i e hsome
    constructor
    · intro h
      cases h
    · intro h
      rw [hsome] at h
      cases h.2

theorem look_eq_found_iff {p : List String} {e : Entry} : d.look place = .found p e ↔
    p = place ∧ d.entry? place = some e := by
  unfold look
  split
  · rename_i hnone
    constructor
    · intro h
      cases h
    · intro h
      rw [hnone] at h
      cases h.2
  · rename_i e' hsome
    rw [Target.found.injEq, hsome, Option.some.injEq]
    exact ⟨fun h => ⟨h.1.symm, h.2⟩, fun h => ⟨h.1.symm, h.2⟩⟩

end EditorSync.Disk
