import EditorSync.Proofs.Disk.Effects
import EditorSync.Proofs.Disk.Growth
import EditorSync.Proofs.Disk.Resolution

namespace EditorSync.Disk

open Text (Bytes)

variable {d d' : Disk} {follow : Bool} {links : Nat} {p place segments : List String}
variable {path name : String} {own : List String → Prop} {content : Bytes} {e : Entry}

theorem locate_eq_ok_iff {t : Target} : d.locate follow path = .ok t ↔
    Sound path ∧ d.walk follow maxLinks [] (Path.segments path) = .ok t :=
  ⟨fun h => ⟨sound_of_locate h, locate_of_walk h⟩, fun h => (locate_of_sound h.1).trans h.2⟩

theorem reached_of_locate (h : d.locate follow path = .ok (.found p .dir)) : d.Reached p :=
  reached_of_walk (reached_nil d) (locate_of_walk h)

theorem Grows.locate (h : d.Grows d') (hlocate : d.locate follow path = .ok (.found p e)) :
    d'.locate follow path = .ok (.found p e) := by
  rw [locate_eq_ok_iff] at hlocate ⊢
  refine ⟨hlocate.1, ?_⟩
  exact walk_keep (fun _ => True) trivial (fun _ => trivial)
    (fun _ _ _ _ _ hentry => h.keep hentry) (reached_nil d) trivial hlocate.2

theorem Grows.canonical?_eq (h : d.Grows d') (hleads : d.Leads path p e) :
    d'.canonical? path = d.canonical? path :=
  canonical?_keep (fun _ => True) trivial (fun _ => trivial) (fun _ _ _ _ _ hentry => h.keep hentry)
    trivial hleads

theorem makeDirs_of_dir (h : ∀ follow, d.locate follow path = .ok (.found p .dir)) :
    d.makeDirs path = (d, .ok ()) := by
  have hmake : d.makeDir path = .error .occupied := by
    rw [makeDir, h false]
    rfl
  have hisDir : d.isDir path = true := by
    rw [isDir, h true]
  rw [makeDirs, makeDirsWith, hmake]
  dsimp only
  rw [if_pos (by decide), if_pos hisDir]

theorem walk_of_append {t : Target} {more : List String} (hmore : more ≠ [])
    (h : d.walk follow links place (segments ++ more) = .ok t) :
    ∃ q, d.walk true links place segments = .ok (.found q .dir) := by
  have hrest (rest : List String) : rest ++ more ≠ [] := fun hnil =>
    hmore (List.append_eq_nil_iff.mp hnil).2
  induction links, place, segments using walk.induct d true with
  | case1 links place => exact ⟨place, by rw [walk]⟩
  | case2 links place name rest hskip ih =>
    rw [List.cons_append, walk_skip _ hskip] at h
    rw [walk_skip rest hskip]
    exact ih h
  | case3 links place rest _ ih =>
    rw [List.cons_append, walk_up] at h
    rw [walk_up]
    exact ih h
  | case7 links place name rest hskip hup hfits here hentry ih =>
    rw [List.cons_append, walk_dir _ ⟨hskip, hup, hfits⟩ hentry] at h
    rw [walk_dir rest ⟨hskip, hup, hfits⟩ hentry]
    exact ih h
  | case12 =>
    rename_i place name rest hskip hup hfits here target hentry hfollow links start ih
    have hpass : ¬(rest ++ more = [] ∧ (!follow) = true) := fun hlast => hrest rest hlast.1
    rw [List.cons_append, walk_link ⟨hskip, hup, hfits⟩ hentry hpass, ← List.append_assoc] at h
    rw [walk_link ⟨hskip, hup, hfits⟩ hentry hfollow]
    exact ih h
  | _ =>
    -- In all other cases the walk stops before the last segment.
    rw [List.cons_append, walk] at h
    simp_all +zetaDelta
    try split at h <;> cases h

theorem locate_of_append {t : Target} (hname : Path.isAbsolute name = false)
    (h : d.locate follow (Path.append path name) = .ok t) :
    ∃ p, d.locate true path = .ok (.found p .dir) := by
  obtain ⟨hsound, hwalk⟩ := locate_eq_ok_iff.mp h
  obtain ⟨above, hsegments, habove⟩ := Path.segments_append path hname
  rw [hsegments] at hwalk
  obtain ⟨p, hp⟩ := walk_of_append (Path.segments_ne_nil name) hwalk
  have hsteps : steps (Path.segments path) = steps above := habove.symm
  obtain ⟨left, hleft⟩ := walk_past hp hsteps
  have hpath := hleft true [] (.inr rfl)
  rw [List.append_nil, walk] at hpath
  exact ⟨p, locate_eq_ok_iff.mpr ⟨hsound.of_append hname, hpath⟩⟩

theorem locate_append_congr (hdir : d.locate true path = .ok (.found p .dir))
    (hdir' : d'.locate true path = .ok (.found p .dir)) (hname : Path.Plain name)
    (hfree : ∀ target, d.entry? (p ++ [name]) ≠ some (.link target))
    (hsame : d'.entry? (p ++ [name]) = d.entry? (p ++ [name])) :
    d'.locate follow (Path.append path name) = d.locate follow (Path.append path name) := by
  obtain ⟨hempty, hdot, hup, hslash⟩ := hname
  obtain ⟨above, hsegments, habove⟩ := Path.segments_append_of_not_mem path hslash
  obtain ⟨left, hleft⟩ := walk_past (locate_of_walk hdir) (habove : steps above = _)
  obtain ⟨left', hleft'⟩ := walk_past (locate_of_walk hdir') (habove : steps above = _)
  have hskip : ¬(name = "" ∨ name = ".") := not_or.mpr ⟨hempty, hdot⟩
  have hnext : [name] ≠ [] := List.cons_ne_nil _ _
  have hwalk : d'.walk follow maxLinks [] (Path.segments (Path.append path name)) =
      d.walk follow maxLinks [] (Path.segments (Path.append path name)) := by
    rw [hsegments, hleft follow [name] (.inl hnext), hleft' follow [name] (.inl hnext)]
    by_cases hfits : maxName < name.utf8ByteSize
    · have hlong (d : Disk) (links : Nat) :
          d.walk follow links p [name] = .error .nameTooLong := by
        rw [walk, if_neg hskip, if_neg hup, if_pos hfits]
      rw [hlong, hlong]
    · rw [walk_last ⟨hskip, hup, hfits⟩ hfree, walk_last ⟨hskip, hup, hfits⟩ (hsame ▸ hfree), look,
        look, hsame]
  unfold Disk.locate
  rw [hwalk]

theorem read_append_congr (hdir : d.locate true path = .ok (.found p .dir))
    (hdir' : d'.locate true path = .ok (.found p .dir)) (hname : Path.Plain name)
    (hfree : ∀ target, d.entry? (p ++ [name]) ≠ some (.link target))
    (hsame : d'.entry? (p ++ [name]) = d.entry? (p ++ [name])) :
    d'.read (Path.append path name) = d.read (Path.append path name) := by
  rw [Disk.read, Disk.read, locate_append_congr hdir hdir' hname hfree hsame]

theorem locate_of_read (h : d.read path = .ok content) :
    ∃ p, d.locate true path = .ok (.found p (.file content)) := by
  unfold Disk.read at h
  cases hlocate : d.locate true path with
  | error fault =>
    rw [hlocate] at h
    cases h
  | ok t =>
    rw [hlocate] at h
    cases t with
    | vacant p => cases h
    | found p e =>
      cases e with
      | file bytes =>
        cases h
        exact ⟨p, rfl⟩
      | dir => cases h
      | link target => cases h

theorem entry?_of_read_append (hdir : d.locate true path = .ok (.found p .dir))
    (hname : Path.Plain name) (hfree : ∀ target, d.entry? (p ++ [name]) ≠ some (.link target))
    (h : d.read (Path.append path name) = .ok content) :
    d.entry? (p ++ [name]) = some (.file content) := by
  obtain ⟨q, hq⟩ := locate_of_read h
  have hlook := locate_append hdir hname hfree hq
  exact (look_eq_found_iff.mp hlook.symm).2

def Leaf (d : Disk) (place : List String) : Prop :=
  ∀ e, d.entry? place = some e → ∃ content, e = .file content

theorem Leaf.ne_nil (h : d.Leaf place) : place ≠ [] := by
  rintro rfl
  obtain ⟨content, hcontent⟩ := h .dir rfl
  cases hcontent

structure SameBut (own : List String → Prop) (d d' : Disk) : Prop where
  same : ∀ place, (∀ p, own p → ¬p <+: place) → d'.entry? place = d.entry? place
  before : ∀ p, own p → d.Leaf p
  after : ∀ p, own p → d'.Leaf p

namespace SameBut

theorem refl (d : Disk) : d.SameBut (fun _ => False) d :=
  ⟨fun _ _ => rfl, fun _ => False.elim, fun _ => False.elim⟩

theorem symm (h : d.SameBut own d') : d'.SameBut own d :=
  ⟨fun place hplace => (h.same place hplace).symm, h.after, h.before⟩

theorem not_prefix (h : d.SameBut own d') (hplace : d.Reached place) (hp : own p) :
    ¬p <+: place := by
  intro hinit
  have hleaf := h.before p hp
  obtain ⟨content, hcontent⟩ := hleaf .dir (hplace p hleaf.ne_nil hinit)
  cases hcontent

theorem entry? (h : d.SameBut own d') (hplace : d.Reached place) (hother : ¬own (place ++ [name])) :
    d'.entry? (place ++ [name]) = d.entry? (place ++ [name]) := by
  refine h.same _ fun p hp hinit => ?_
  rcases List.prefix_concat_iff.mp hinit with rfl | hinit
  · exact hother hp
  · exact h.not_prefix hplace hp hinit

theorem keep (h : d.SameBut own d') (place : List String) (name : String) (e : Entry)
    (hplace : d.Reached place) (he : ∀ content, e ≠ .file content)
    (hentry : d.entry? (place ++ [name]) = some e) : d'.entry? (place ++ [name]) = some e := by
  rw [h.entry? hplace fun hown => ?_]
  · exact hentry
  · obtain ⟨content, hcontent⟩ := h.before _ hown e hentry
    exact he content hcontent

theorem locate (h : d.SameBut own d') (hlocate : d.locate follow path = .ok (.found p .dir)) :
    d'.locate follow path = .ok (.found p .dir) := by
  rw [locate_eq_ok_iff] at hlocate ⊢
  refine ⟨hlocate.1, ?_⟩
  exact walk_keep (fun e => ∀ content, e ≠ .file content) (fun _ => nofun) (fun _ _ => nofun) h.keep
    (reached_nil d) (fun _ => nofun) hlocate.2

theorem canonical?_eq (h : d.SameBut own d') (hleads : d.Leads path p .dir) :
    d'.canonical? path = d.canonical? path := by
  have hend (content : Bytes) : Entry.dir ≠ .file content := nofun
  exact canonical?_keep (fun e => ∀ content, e ≠ .file content) hend (fun _ _ => nofun) h.keep hend
    hleads

end SameBut

theorem put_sameBut (hleaf : d.Leaf place) :
    d.SameBut (· = place) (d.put place (.file content)) := by
  have hput (p : List String) := entry?_put (d := d) place p (.file content) hleaf.ne_nil
  refine ⟨fun p hp => ?_, fun p hp => hp ▸ hleaf, fun p hp e he => ?_⟩
  · rw [hput, if_neg]
    rintro rfl
    exact hp _ rfl List.prefix_rfl
  · rw [hput, if_pos hp, Option.some.injEq] at he
    exact ⟨content, he.symm⟩

theorem erase_sameBut (hleaf : d.Leaf place) :
    d.SameBut (· = place) ⟨d.entries.erase place⟩ := by
  have hne := hleaf.ne_nil
  refine ⟨fun p hp => ?_, fun p hp => hp ▸ hleaf, fun p hp e he => ?_⟩
  · rw [entry?_erase]
    split
    · rename_i hnil
      rw [hnil]
      rfl
    · rw [if_neg]
      rintro rfl
      exact hp _ rfl List.prefix_rfl
  · subst hp
    rw [entry?_erase, if_neg hne, if_pos rfl] at he
    cases he

theorem leaf_of_file (h : d.entry? place = some (.file content)) : d.Leaf place :=
  fun _ he => ⟨content, Option.some.inj (he.symm.trans h)⟩

theorem moveTree_sameBut {a b : List String} (hb : d.Leaf b)
    (hentry : d.entry? a = some (.file content)) (hunder : ¬b <+: a) :
    d.SameBut (fun p => p = a ∨ p = b) (d.moveTree a b) := by
  have ha := leaf_of_file hentry
  have hmoved (q : List String) := entry?_moveTree (d := d) (q := q) ha.ne_nil hb.ne_nil
  refine ⟨fun q hq => ?_, ?_, ?_⟩
  · have hout : ¬a <+: q ∧ ¬b <+: q := ⟨hq a (.inl rfl), hq b (.inr rfl)⟩
    rcases hmoved q with ⟨hsame, -⟩ | ⟨p, e, -, -, hto, -⟩
    · rw [hsame, entry?_removeTree, if_neg hout.1, entry?_removeTree, if_neg hout.2]
      split
      · rename_i hnil
        rw [hnil]
        rfl
      · rfl
    · exact absurd (hto ▸ List.prefix_append _ _) hout.2
  · rintro p (rfl | rfl)
    · exact ha
    · exact hb
  · rintro p (rfl | rfl)
    · intro e he
      rcases hmoved p with ⟨hsame, -⟩ | ⟨q, x, -, -, hto, -⟩
      · rw [hsame, entry?_removeTree, if_neg ha.ne_nil, if_pos List.prefix_rfl] at he
        cases he
      · exact absurd (hto ▸ List.prefix_append _ _) hunder
    · exact leaf_of_file (entry?_moveTree_target ha.ne_nil hb.ne_nil hentry)

theorem leaf_of_checkReplace (h : d.checkReplace (.file content) place (d.entry? place) = .ok ())
    (hfree : ∀ target, d.entry? place ≠ some (.link target)) : d.Leaf place := by
  intro e he
  rw [he] at h
  cases e with
  | dir => cases h
  | file old => exact ⟨old, rfl⟩
  | link target => exact absurd he (hfree target)

theorem locate_of_rename {source target : String} (h : d.rename source target = .ok d') :
    (∃ a e, d.locate false source = .ok (.found a e)) ∧ ∃ t, d.locate false target = .ok t := by
  unfold rename at h
  cases hsource : d.locate false source with
  | error fault =>
    rw [hsource] at h
    cases h
  | ok found =>
    rw [hsource] at h
    cases found with
    | vacant p => cases h
    | found a e =>
      refine ⟨⟨a, e, rfl⟩, ?_⟩
      cases htarget : d.locate false target with
      | error fault =>
        simp only [bind, Except.bind, htarget] at h
        cases h
      | ok t => exact ⟨t, rfl⟩

theorem rename_sameBut {source target : String} {b : List String}
    (hsource : d.locate false source = .ok (.found (place ++ [name]) (.file content)))
    (hentry : d.entry? (place ++ [name]) = some (.file content)) (hplace : d.Reached place)
    (htarget : d.locate false target = .ok (d.look b))
    (hfree : ∀ target, d.entry? b ≠ some (.link target)) (hrename : d.rename source target = .ok d') :
    d' = d ∨ d.SameBut (fun p => p = place ++ [name] ∨ p = b) d' := by
  obtain ⟨-, ⟨-, hsame⟩ | ⟨hdiffer, -, hreplace, hmoved⟩⟩ :=
    rename_inv hsource (fun t ht => Except.ok.inj (ht.symm.trans htarget)) hrename
  · exact .inl hsame
  · have hleaf := leaf_of_checkReplace hreplace hfree
    rw [hmoved]
    refine .inr (moveTree_sameBut hleaf hentry fun hunder => ?_)
    rcases List.prefix_concat_iff.mp hunder with heq | hunder
    · exact hdiffer heq.symm
    · obtain ⟨content, hcontent⟩ := hleaf .dir (hplace b hleaf.ne_nil hunder)
      cases hcontent

end EditorSync.Disk
