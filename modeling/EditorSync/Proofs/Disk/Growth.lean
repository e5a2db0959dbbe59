import EditorSync.Proofs.Disk.Alteration

namespace EditorSync.Disk

open Text (Bytes)

variable {d d' d'' : Disk} {follow : Bool} {links : Nat} {p place segments : List String}
variable {path name : String} {own : List String → Prop} {content : Bytes}

def Grows (d d' : Disk) : Prop :=
  ∀ place, d'.entry? place = d.entry? place ∨
    d.entry? place = none ∧ d'.entry? place = some .dir

def Gains (own : List String → Prop) (content : Bytes) (d d' : Disk) : Prop :=
  ∀ place, d'.entry? place = d.entry? place ∨
    d.entry? place = none ∧ d'.entry? place = some .dir ∨
    own place ∧ d'.entry? place = some (.file content)

theorem Grows.refl (d : Disk) : d.Grows d := fun _ => .inl rfl

theorem Grows.keep {e : Entry} (h : d.Grows d') (he : d.entry? p = some e) :
    d'.entry? p = some e := by
  rcases h p with hsame | ⟨hnone, -⟩
  · exact hsame.trans he
  · rw [hnone] at he
    cases he

theorem Grows.link {target : String} (h : d.Grows d') (he : d'.entry? p = some (.link target)) :
    d.entry? p = some (.link target) := by
  rcases h p with hsame | ⟨-, hdir⟩
  · exact hsame.symm.trans he
  · rw [hdir] at he
    cases he

theorem Grows.trans (h : d.Grows d') (h' : d'.Grows d'') : d.Grows d'' := by
  intro place
  rcases h' place with hsame | ⟨hnone, hdir⟩
  · rcases h place with hsame' | ⟨hnone, hdir⟩
    · exact .inl (hsame.trans hsame')
    · exact .inr ⟨hnone, hsame.trans hdir⟩
  · rcases h place with hsame' | ⟨-, hdir'⟩
    · exact .inr ⟨hsame'.symm.trans hnone, hdir⟩
    · rw [hdir'] at hnone
      cases hnone

theorem Grows.gains (h : d.Grows d') : Gains own content d d' :=
  fun place => (h place).imp_right .inl

theorem Gains.mono {less : List String → Prop} (h : Gains less content d d')
    (hless : ∀ place, less place → own place) : Gains own content d d' :=
  fun place => (h place).imp_right fun hnew => hnew.imp_right fun ⟨hplace, hfile⟩ =>
    ⟨hless place hplace, hfile⟩

theorem entry?_of_walk_vacant (h : d.walk follow links place segments = .ok (.vacant p)) :
    d.entry? p = none := by
  fun_induction d.walk follow links place segments with
  | case5 =>
    rename_i hentry
    obtain rfl := Target.vacant.inj (Except.ok.inj h)
    exact hentry
  | case2 => rename_i ih; exact ih h
  | case3 => rename_i ih; exact ih h
  | case7 => rename_i ih; exact ih h
  | case12 => rename_i ih; exact ih h
  | _ => simp only [Except.ok.injEq, reduceCtorEq] at h

theorem Grows.walk_made (h : d.Grows d') (hdir : d'.entry? p = some .dir)
    (hwalk : d.walk follow links place segments = .ok (.vacant p)) :
    d'.walk true links place segments = .ok (.found p .dir) := by
  fun_induction d.walk follow links place segments with
  | case2 links place name rest hskip ih =>
    rw [walk_skip rest hskip]
    exact ih hwalk
  | case3 links place rest _ ih =>
    rw [walk_up]
    exact ih hwalk
  | case5 =>
    rename_i links place name hskip hup hfits here hentry
    obtain rfl := Target.vacant.inj (Except.ok.inj hwalk)
    rw [walk_dir [] ⟨hskip, hup, hfits⟩ hdir, walk]
  | case7 links place name rest hskip hup hfits here hentry ih =>
    rw [walk_dir rest ⟨hskip, hup, hfits⟩ (h.keep hentry)]
    exact ih hwalk
  | case12 =>
    rename_i hskip hup hfits here target hentry hfollow links start ih
    rw [walk_link ⟨hskip, hup, hfits⟩ (h.keep hentry) (by simp)]
    exact ih hwalk
  | _ => cases hwalk

theorem Grows.walk_unique {q : List String} (h : d.Grows d') (h' : d.Grows d'')
    (hwalk : d'.walk follow links place segments = .ok (.found p .dir))
    (hwalk' : d''.walk follow links place segments = .ok (.found q .dir)) : p = q := by
  fun_induction d'.walk follow links place segments with
  | case1 =>
    rw [walk, hwalk] at hwalk'
    exact (Target.found.inj (Except.ok.inj hwalk')).1
  | case2 links place name rest hskip ih =>
    rw [walk_skip rest hskip] at hwalk'
    exact ih hwalk hwalk'
  | case3 links place rest _ ih =>
    rw [walk_up] at hwalk'
    exact ih hwalk hwalk'
  | case7 links place name rest hskip hup hfits here hentry ih =>
    -- The entry may have been made in one of the disks only.
    cases hother : d''.entry? here with
    | none =>
      rw [walk, if_neg hskip, if_neg hup, if_neg hfits] at hwalk'
      dsimp only at hwalk'
      rw [hother] at hwalk'
      dsimp only at hwalk'
      split at hwalk' <;> cases hwalk'
    | some e =>
      have hdir : d''.entry? here = some .dir := by
        rcases h' here with hsame | ⟨-, hdir⟩
        · rcases h here with hsame' | ⟨hnone, -⟩
          · rw [hsame, ← hsame', hentry]
          · rw [hsame, hnone] at hother
            cases hother
        · exact hdir
      rw [walk_dir rest ⟨hskip, hup, hfits⟩ hdir] at hwalk'
      exact ih hwalk hwalk'
  | case12 =>
    rename_i hskip hup hfits here target hentry hfollow links start ih
    rw [walk_link ⟨hskip, hup, hfits⟩ (h'.keep (h.link hentry)) hfollow] at hwalk'
    exact ih hwalk hwalk'
  | _ => simp only [Except.ok.injEq, Target.found.injEq, reduceCtorEq, and_false] at hwalk

theorem locate_of_walk {t : Target} (h : d.locate follow path = .ok t) :
    d.walk follow maxLinks [] (Path.segments path) = .ok t := by
  rw [← locate_of_sound (sound_of_locate h)]
  exact h

theorem grows_put (h : d.entry? p = none) : d.Grows (d.put p .dir) := by
  have hne : p ≠ [] := by
    rintro rfl
    cases h
  intro place
  rw [entry?_put p place .dir hne]
  split
  · rename_i heq
    exact .inr ⟨heq ▸ h, rfl⟩
  · exact .inl rfl

theorem makeDir_eq_ok (h : d.makeDir path = .ok d') :
    d.Grows d' ∧ ∃ p, d'.locate true path = .ok (.found p .dir) := by
  unfold makeDir at h
  cases hlocate : d.locate false path with
  | error e =>
    rw [hlocate] at h
    cases h
  | ok t =>
    rw [hlocate] at h
    cases t with
    | found place e => cases h
    | vacant place =>
      cases h
      have hwalk := locate_of_walk hlocate
      have hnone := entry?_of_walk_vacant hwalk
      have hgrows := grows_put hnone
      have hne : place ≠ [] := by
        rintro rfl
        cases hnone
      have hdir : entry? (d.put place .dir) place = some .dir := by
        rw [entry?_put place place .dir hne, if_pos rfl]
      refine ⟨hgrows, place, ?_⟩
      rw [locate_of_sound (sound_of_locate hlocate)]
      exact hgrows.walk_made hdir hwalk

theorem locate_of_isDir (h : d.isDir path = true) :
    ∃ p, d.locate true path = .ok (.found p .dir) := by
  unfold isDir at h
  split at h
  · rename_i place hlocate
    exact ⟨place, hlocate⟩
  · cases h

theorem makeDirsWith_grows (fuel : Nat) (d : Disk) (path : String) :
    d.Grows (makeDirsWith fuel d path).1 := by
  fun_induction makeDirsWith fuel d path with
  | case1 fuel d path d' hmake => exact (makeDir_eq_ok hmake).1
  | case2 fuel d => exact Grows.refl d
  | case3 _ _ _ _ _ _ _ _ _ _ hmid ih =>
    rw [hmid] at ih
    exact ih
  | case4 _ _ _ _ _ _ _ _ _ hmid _ hmake ih =>
    rw [hmid] at ih
    exact ih.trans (makeDir_eq_ok hmake).1
  | case5 _ _ _ _ _ _ _ _ _ hmid _ _ ih =>
    rw [hmid] at ih
    exact ih
  | case6 fuel d => exact Grows.refl d

theorem leads_of_makeDirsWith {fuel : Nat} (h : (makeDirsWith fuel d path).2 = .ok ()) :
    ∃ p, (makeDirsWith fuel d path).1.locate true path = .ok (.found p .dir) := by
  have hthere (d : Disk) (e : Fault)
      (hresult : (if d.isDir path then .ok () else .error e : Except Fault Unit) = .ok ()) :
      ∃ p, d.locate true path = .ok (.found p .dir) := by
    split at hresult
    · exact locate_of_isDir ‹_›
    · cases hresult
  revert h
  fun_cases makeDirsWith fuel d path with
  | case1 => exact fun _ => (makeDir_eq_ok ‹makeDir d path = .ok _›).2
  | case2 => exact hthere d _
  | case3 =>
    intro h
    cases h
  | case4 => exact fun _ => (makeDir_eq_ok ‹makeDir _ path = .ok _›).2
  | case5 => exact hthere _ _
  | case6 =>
    intro h
    cases h

theorem locate_append {t : Target} (hdir : d.locate true path = .ok (.found p .dir))
    (hname : Path.Plain name) (hfree : ∀ target, d.entry? (p ++ [name]) ≠ some (.link target))
    (h : d.locate follow (Path.append path name) = .ok t) : t = d.look (p ++ [name]) := by
  obtain ⟨hempty, hdot, hup, hslash⟩ := hname
  obtain ⟨above, hsegments, habove⟩ := Path.segments_append_of_not_mem path hslash
  obtain ⟨left, hleft⟩ := walk_past (locate_of_walk hdir) (habove : steps above = _)
  have hwalk := locate_of_walk h
  rw [hsegments, hleft follow [name] (.inl (List.cons_ne_nil _ _))] at hwalk
  have hskip : ¬(name = "" ∨ name = ".") := not_or.mpr ⟨hempty, hdot⟩
  by_cases hfits : maxName < name.utf8ByteSize
  · rw [walk, if_neg hskip, if_neg hup, if_pos hfits] at hwalk
    cases hwalk
  · rw [walk_last ⟨hskip, hup, hfits⟩ hfree] at hwalk
    exact (Except.ok.inj hwalk).symm

theorem write_eq_ok (h : d.write path content = .ok d') :
    ∃ t place, d.locate true path = .ok t ∧ d' = d.put place (.file content) ∧
      (t = .vacant place ∨ ∃ old, t = .found place (.file old)) := by
  unfold write at h
  cases hlocate : d.locate true path with
  | error e =>
    rw [hlocate] at h
    cases h
  | ok t =>
    rw [hlocate] at h
    cases t with
    | vacant place =>
      cases h
      exact ⟨_, place, rfl, rfl, .inl rfl⟩
    | found place e =>
      cases e with
      | file old =>
        cases h
        exact ⟨_, place, rfl, rfl, .inr ⟨old, rfl⟩⟩
      | dir => cases h
      | link target => cases h

end EditorSync.Disk
