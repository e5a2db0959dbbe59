import EditorSync.Proofs.Disk.Alteration

namespace EditorSync.Disk

open Text (Bytes)

variable {d d' : Disk} {root path source target : String} {base names : List String}
variable {touched : List String → Prop} {content : Bytes}

theorem strictly_below (base : List String) (hne : names ≠ []) :
    base <+: base ++ names ∧ base ++ names ≠ base :=
  ⟨List.prefix_append _ _, fun h => hne (by simpa using h)⟩

theorem beneath_ofNames (hplain : ∀ name ∈ names, Path.Plain name) :
    Beneath root (Path.ofNames (Path.names root ++ names)) names := by
  refine ⟨?_, hplain⟩
  rw [Path.names_ofNames, Path.flatMap_names]
  intro name hname
  rcases List.mem_append.mp hname with hroot | hname
  · exact Path.names_of_mem_names hroot
  · exact Path.names_of_plain (hplain name hname)

theorem ends_ofNames (hne : names ≠ []) (hplain : ∀ name ∈ names, Path.Plain name)
    (above : List String) : Ends (Path.ofNames (above ++ names)) := by
  obtain ⟨init, name, rfl⟩ := (List.eq_nil_or_concat names).resolve_left hne
  rw [List.concat_eq_append] at hplain ⊢
  have hname := hplain name (by simp)
  intro last hlast
  rw [← List.append_assoc, Path.getLast?_segments_ofNames _ hname.2.2.2, Option.some.injEq] at hlast
  subst hlast
  exact not_or.mpr ⟨hname.1, hname.2.1⟩

theorem Grounds.makeDir (h : d.Grounds root base) (hpath : Beneath root path names)
    (hne : names ≠ []) (hends : Ends path) (hmake : d.makeDir path = .ok d') :
    Alters base touched d d' ∧ Fills (· <+: base ++ names) d d' := by
  unfold Disk.makeDir at hmake
  cases hlocate : d.locate false path with
  | error e =>
    rw [hlocate] at hmake
    cases hmake
  | ok t =>
    rw [hlocate] at hmake
    cases t with
    | found place e => cases hmake
    | vacant place =>
      cases hmake
      have hvacant := ((h.locate_eq_ok_iff hpath hne hends).mp hlocate).2.2
      obtain ⟨rfl, hnone⟩ := look_eq_vacant_iff.mp hvacant.symm
      have hbelow := strictly_below base hne
      constructor
      · exact alters_put hbelow (.inr hnone) fun target heq => by cases heq
      · exact fills_put (below_ne_nil hbelow) List.prefix_rfl

theorem Grounds.makeDir_ne_notFound {name : String} (h : d.Grounds root base)
    (hpath : Beneath root path [name]) (hends : Ends path) :
    d.makeDir path ≠ .error .notFound := by
  intro hmake
  unfold Disk.makeDir at hmake
  cases hlocate : d.locate false path with
  | error e =>
    rw [hlocate] at hmake
    cases hmake
    exact h.locate_ne_notFound hpath hends hlocate
  | ok t =>
    rw [hlocate] at hmake
    cases t <;> cases hmake

theorem parent?_eq (hpath : Beneath root path names) (hne : names ≠ []) :
    parent? path = some (Path.ofNames (Path.names root ++ names.dropLast)) := by
  unfold parent?
  rw [hpath.names_eq]
  split
  · rename_i hnil
    exact absurd (List.append_eq_nil_iff.mp hnil).2 hne
  · rw [List.dropLast_append_of_ne_nil hne]

theorem Grounds.makeDirsWith (h : d.Grounds root base) (hpath : Beneath root path names)
    (hne : names ≠ []) (hends : Ends path) (fuel : Nat) :
    Alters base touched d (makeDirsWith fuel d path).1 ∧
      Fills (· <+: base ++ names) d (makeDirsWith fuel d path).1 := by
  induction fuel generalizing path names with
  | zero =>
    unfold Disk.makeDirsWith
    split
    · rename_i d' hmake
      exact h.makeDir hpath hne hends hmake
    · split
      · exact ⟨Alters.refl d, Fills.refl d⟩
      · split
        · rename_i heq _
          cases heq
        · exact ⟨Alters.refl d, Fills.refl d⟩
  | succ fuel ih =>
    unfold Disk.makeDirsWith
    split
    · rename_i d' hmake
      exact h.makeDir hpath hne hends hmake
    · rename_i e hmake
      split
      · exact ⟨Alters.refl d, Fills.refl d⟩
      · rename_i hfault
        rw [Decidable.not_not] at hfault
        subst hfault
        have hdropne : names.dropLast ≠ [] := by
          intro hnil
          obtain ⟨name, rfl⟩ : ∃ name, names = [name] := by
            obtain ⟨init, name, rfl⟩ := (List.eq_nil_or_concat names).resolve_left hne
            rw [List.concat_eq_append, List.dropLast_concat] at hnil
            exact ⟨name, by rw [hnil]; rfl⟩
          exact h.makeDir_ne_notFound hpath hends hmake
        have hplain : ∀ name ∈ names.dropLast, Path.Plain name :=
          fun name hname => hpath.plain name (List.dropLast_subset names hname)
        obtain ⟨habove, hfills⟩ : Alters base touched d
              (Disk.makeDirsWith fuel d (Path.ofNames (Path.names root ++ names.dropLast))).1 ∧
            Fills (· <+: base ++ names.dropLast) d
              (Disk.makeDirsWith fuel d (Path.ofNames (Path.names root ++ names.dropLast))).1 :=
          ih (beneath_ofNames hplain) hdropne (ends_ofNames hdropne hplain _)
        have hfills := hfills.mono fun place (hplace : place <+: _) =>
          hplace.trans ((List.prefix_append_right_inj base).mpr (List.dropLast_prefix names))
        rw [parent?_eq hpath hne]
        dsimp only
        split
        · rename_i heq
          rw [heq] at habove hfills
          exact ⟨habove, hfills⟩
        · rename_i mid heq
          rw [heq] at habove hfills
          split
          · rename_i d' hmake'
            obtain ⟨halters, hmade⟩ : Alters base touched mid d' ∧
                Fills (· <+: base ++ names) mid d' :=
              (h.alter habove).makeDir hpath hne hends hmake'
            exact ⟨habove.trans halters, hfills.trans hmade⟩
          · exact ⟨habove, hfills⟩

theorem Open.alter (h : d.Open base names) (halters : Alters base touched d d')
    (hspared : ∀ above, above <+: names → above ≠ names → ¬touched (base ++ above)) :
    d'.Open base names :=
  ⟨h.fits, fun above hne hinit hproper =>
    halters.keeps _ _ (hspared above hinit hproper) (h.dirs above hne hinit hproper)⟩

theorem Grounds.read_eq_ok_iff (h : d.Grounds root base) (hpath : Beneath root path names)
    (hne : names ≠ []) (hends : Ends path) :
    d.read path = .ok content ↔
      Sound path ∧ d.Open base names ∧ d.entry? (base ++ names) = some (.file content) := by
  have hlocate : d.read path = .ok content ↔
      d.locate true path = .ok (.found (base ++ names) (.file content)) := by
    constructor
    · intro hread
      unfold Disk.read at hread
      cases hlocate : d.locate true path with
      | error e =>
        rw [hlocate] at hread
        cases hread
      | ok t =>
        rw [hlocate] at hread
        have hlook := ((h.locate_eq_ok_iff hpath hne hends).mp hlocate).2.2
        cases t with
        | vacant p => cases hread
        | found p e =>
          obtain ⟨rfl, -⟩ := look_eq_found_iff.mp hlook.symm
          cases e <;> cases hread
          rfl
    · intro hlocate
      rw [Disk.read, hlocate]
      rfl
  rw [hlocate, h.locate_eq_ok_iff hpath hne hends, @eq_comm Target, look_eq_found_iff]
  simp only [true_and]

theorem Grounds.read_keep (h : d.Grounds root base) (h' : d'.Grounds root base)
    (hpath : Beneath root path names) (hne : names ≠ []) (hends : Ends path)
    (hkeeps : ∀ above e, above <+: names → d.entry? (base ++ above) = some e →
      d'.entry? (base ++ above) = some e)
    (hread : d.read path = .ok content) : d'.read path = .ok content := by
  obtain ⟨hsound, hopen, hentry⟩ := (h.read_eq_ok_iff hpath hne hends).mp hread
  refine (h'.read_eq_ok_iff hpath hne hends).mpr ⟨hsound, ⟨hopen.fits, ?_⟩, ?_⟩
  · intro above habove hinit hproper
    exact hkeeps above _ hinit (hopen.dirs above habove hinit hproper)
  · exact hkeeps names _ List.prefix_rfl hentry

theorem Grounds.read_alter (h : d.Grounds root base) (hpath : Beneath root path names)
    (hne : names ≠ []) (hends : Ends path) (halters : Alters base touched d d')
    (hspared : ∀ above, above <+: names → ¬touched (base ++ above))
    (hread : d.read path = .ok content) : d'.read path = .ok content :=
  h.read_keep (h.alter halters) hpath hne hends
    (fun above e hinit he => halters.keeps _ e (hspared above hinit) he) hread

theorem Grounds.write_eq_ok (h : d.Grounds root base) (hpath : Beneath root path names)
    (hne : names ≠ []) (hends : Ends path) (hwrite : d.write path content = .ok d') :
    Sound path ∧ d.Open base names ∧ d' = d.put (base ++ names) (.file content) := by
  unfold Disk.write at hwrite
  cases hlocate : d.locate true path with
  | error e =>
    rw [hlocate] at hwrite
    cases hwrite
  | ok t =>
    rw [hlocate] at hwrite
    obtain ⟨hsound, hopen, hlook⟩ := (h.locate_eq_ok_iff hpath hne hends).mp hlocate
    refine ⟨hsound, hopen, ?_⟩
    cases t with
    | vacant p =>
      obtain ⟨rfl, -⟩ := look_eq_vacant_iff.mp hlook.symm
      cases hwrite
      rfl
    | found p e =>
      obtain ⟨rfl, -⟩ := look_eq_found_iff.mp hlook.symm
      cases e <;> cases hwrite
      rfl

theorem alters_put_file (base : List String) (hne : names ≠ []) (ht : touched (base ++ names)) :
    Alters base touched d (d.put (base ++ names) (.file content)) :=
  alters_put (strictly_below base hne) (.inl ht) fun target heq => by cases heq

theorem Grounds.write (h : d.Grounds root base) (hpath : Beneath root path names)
    (hne : names ≠ []) (hends : Ends path) (hwrite : d.write path content = .ok d')
    (htouched : touched (base ++ names)) :
    Alters base touched d d' ∧ d'.read path = .ok content := by
  obtain ⟨hsound, hopen, rfl⟩ := h.write_eq_ok hpath hne hends hwrite
  refine ⟨alters_put_file base hne htouched, ?_⟩
  have hown : Alters base (· = base ++ names) d (d.put (base ++ names) (.file content)) :=
    alters_put_file base hne rfl
  refine ((h.alter hown).read_eq_ok_iff hpath hne hends).mpr ⟨hsound, ?_, ?_⟩
  · exact hopen.alter hown fun above _ hproper heq => hproper (List.append_cancel_left heq)
  · rw [entry?_put _ _ _ (below_ne_nil (strictly_below base hne)), if_pos rfl]

theorem removeFile_eq_ok (h : d.removeFile path = .ok d') :
    ∃ place e, d.locate false path = .ok (.found place e) ∧
      d' = ⟨d.entries.erase place⟩ := by
  unfold Disk.removeFile at h
  cases hlocate : d.locate false path with
  | error fault =>
    rw [hlocate] at h
    cases h
  | ok t =>
    rw [hlocate] at h
    cases t with
    | vacant p => cases h
    | found p e =>
      refine ⟨p, e, rfl, ?_⟩
      cases e <;> cases h <;> rfl

theorem Grounds.removeFile_eq_ok (h : d.Grounds root base) (hpath : Beneath root path names)
    (hne : names ≠ []) (hends : Ends path) (hremove : d.removeFile path = .ok d') :
    d' = ⟨d.entries.erase (base ++ names)⟩ := by
  obtain ⟨place, e, hlocate, rfl⟩ := Disk.removeFile_eq_ok hremove
  have hlook := ((h.locate_eq_ok_iff hpath hne hends).mp hlocate).2.2
  rw [(look_eq_found_iff.mp hlook.symm).1]

theorem Grounds.removeDirs (h : d.Grounds root base) (hpath : Beneath root path names)
    (hne : names ≠ []) (hends : Ends path) (hremove : d.removeDirs path = .ok d')
    (htouched : ∀ p, base ++ names <+: p → touched p) :
    d.entry? (base ++ names) = some .dir ∧ Alters base touched d d' := by
  unfold Disk.removeDirs at hremove
  cases hlocate : d.locate false path with
  | error e =>
    rw [hlocate] at hremove
    cases hremove
  | ok t =>
    rw [hlocate] at hremove
    have hlook := ((h.locate_eq_ok_iff hpath hne hends).mp hlocate).2.2
    cases t with
    | vacant p => cases hremove
    | found p e =>
      obtain ⟨rfl, hentry⟩ := look_eq_found_iff.mp hlook.symm
      cases e with
      | file c => cases hremove
      | link target => exact absurd hentry (h.free _ target (List.prefix_append _ _))
      | dir =>
        cases hremove
        exact ⟨hentry, alters_removeTree (strictly_below base hne) htouched⟩

theorem rename_inv {a b : List String} {e : Entry}
    (hsource : d.locate false source = .ok (.found a e))
    (htarget : ∀ t, d.locate false target = .ok t → t = d.look b)
    (hrename : d.rename source target = .ok d') :
    d.locate false target = .ok (d.look b) ∧
      (a = b ∧ d' = d ∨ a ≠ b ∧ ¬a <+: b ∧ d.checkReplace e b (d.entry? b) = .ok () ∧
        d' = d.moveTree a b) := by
  unfold Disk.rename at hrename
  rw [hsource] at hrename
  simp only [bind, Except.bind, pure, Except.pure] at hrename
  cases hlocate : d.locate false target with
  | error e =>
    rw [hlocate] at hrename
    cases hrename
  | ok t =>
    obtain rfl := htarget t hlocate
    refine ⟨rfl, ?_⟩
    rw [hlocate] at hrename
    by_cases heq : a = b
    · refine .inl ⟨heq, ?_⟩
      unfold look at hrename
      cases hentry : d.entry? b <;> simp only [hentry, if_pos heq] at hrename <;> cases hrename <;>
        rfl
    · by_cases hinit : a <+: b
      · rw [← List.isPrefixOf_iff_prefix] at hinit
        unfold look at hrename
        cases hentry : d.entry? b <;>
          simp only [hentry, if_neg heq, if_pos hinit] at hrename <;> cases hrename
      · refine .inr ⟨heq, hinit, ?_⟩
        rw [← List.isPrefixOf_iff_prefix] at hinit
        unfold look at hrename
        cases hentry : d.entry? b with
        | none =>
          simp only [hentry, if_neg heq, if_neg hinit] at hrename
          split at hrename
          · cases hrename
          · cases hrename
            exact ⟨‹_›, rfl⟩
        | some old =>
          simp only [hentry, if_neg heq, if_neg hinit] at hrename
          split at hrename
          · cases hrename
          · cases hrename
            exact ⟨‹_›, rfl⟩

theorem Grounds.rename_cases {names' : List String} (h : d.Grounds root base)
    (hsource : Beneath root source names) (hne : names ≠ []) (hsourceEnds : Ends source)
    (htarget : Beneath root target names') (hne' : names' ≠ []) (htargetEnds : Ends target)
    (hrename : d.rename source target = .ok d') :
    d' = d ∨ d' = d.moveTree (base ++ names) (base ++ names') := by
  cases hlocate : d.locate false source with
  | error e =>
    rw [Disk.rename, hlocate] at hrename
    cases hrename
  | ok t =>
    have hlook := ((h.locate_eq_ok_iff hsource hne hsourceEnds).mp hlocate).2.2
    cases t with
    | vacant p =>
      rw [Disk.rename, hlocate] at hrename
      cases hrename
    | found p e =>
      obtain ⟨rfl, -⟩ := look_eq_found_iff.mp hlook.symm
      have hmoved := rename_inv hlocate
        (fun t ht => ((h.locate_eq_ok_iff htarget hne' htargetEnds).mp ht).2.2) hrename
      rcases hmoved.2 with ⟨-, hsame⟩ | ⟨-, -, -, hmoved⟩
      · exact .inl hsame
      · exact .inr hmoved

theorem Grounds.read_rename {names' : List String} (h : d.Grounds root base)
    (hsource : Beneath root source names) (hne : names ≠ []) (hsourceEnds : Ends source)
    (htarget : Beneath root target names') (hne' : names' ≠ []) (htargetEnds : Ends target)
    (hread : d.read source = .ok content) (hrename : d.rename source target = .ok d') :
    d'.read target = .ok content := by
  obtain ⟨hsound, hopen, hentry⟩ := (h.read_eq_ok_iff hsource hne hsourceEnds).mp hread
  have hlocate : d.locate false source = .ok (.found (base ++ names) (.file content)) :=
    (h.locate_eq_ok_iff hsource hne hsourceEnds).mpr
      ⟨hsound, hopen, (look_eq_found_iff.mpr ⟨rfl, hentry⟩).symm⟩
  obtain ⟨hfound, hmoved⟩ := rename_inv hlocate
    (fun t ht => ((h.locate_eq_ok_iff htarget hne' htargetEnds).mp ht).2.2) hrename
  obtain ⟨hsound', hopen', -⟩ := (h.locate_eq_ok_iff htarget hne' htargetEnds).mp hfound
  rcases hmoved with ⟨hsame, rfl⟩ | ⟨hdiffer, hapart, -, rfl⟩
  · refine (h.read_eq_ok_iff htarget hne' htargetEnds).mpr ⟨hsound', hopen', ?_⟩
    rw [← hsame, hentry]
  · have ha := strictly_below base hne
    have hb := strictly_below base hne'
    have halters := alters_moveTree (d := d) ha hb
    refine ((h.alter halters).read_eq_ok_iff htarget hne' htargetEnds).mpr
      ⟨hsound', ?_, entry?_moveTree_target (below_ne_nil ha) (below_ne_nil hb) hentry⟩
    refine hopen'.alter halters fun above hinit hproper htouched => ?_
    rcases htouched with hunder | hunder
    · exact hapart (hunder.trans ((List.prefix_append_right_inj base).mpr hinit))
    · have hunder' := (List.prefix_append_right_inj base).mp hunder
      exact hproper (hinit.eq_of_length_le hunder'.length_le)

end EditorSync.Disk
