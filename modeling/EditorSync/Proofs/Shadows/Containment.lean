import Mathlib
import EditorSync.Proofs.Disk.Readback

namespace EditorSync.Workspace

variable {w : Workspace} {disk : Disk} {base place : List String} {path normal root : String}
variable {projects : Option (List String)} {e x : Disk.Entry}

def joined (w : Workspace) (normal : String) : String := Path.append w.root (relative normal)

theorem plunges_joined (hpath : Path.normalize? path = some normal)
    (h : disk.Plunges w.root) : disk.Plunges (w.joined normal) :=
  h.append (isAbsolute_relative hpath)

theorem Built.canonicalRoot_eq (h : w.Built disk root projects) (hroot : disk.Leads root base e)
    (hplunges : ¬disk.Plunges root) : w.canonicalRoot = Path.ofNames base := by
  have hcanonical : disk.canonical? root = some (Path.ofNames base) :=
    Disk.canonical?_eq_some_iff.mpr ⟨base, e, hroot, hplunges, rfl⟩
  rw [h.normal.2.2, ofRoot, hcanonical]
  rfl

theorem Built.inside_iff (h : w.Built disk root projects) (hroot : disk.Leads root base e)
    (hpath : Path.normalize? path = some normal) (hleads : disk.Leads (w.joined normal) place x) :
    (∀ canonical, disk.canonical? (w.joined normal) = some canonical →
      Path.contains w.canonicalRoot canonical = true) ↔
        (¬disk.Plunges (w.joined normal) → base <+: place) := by
  have hcontains (hplunges : ¬disk.Plunges (w.joined normal)) :
      Path.contains w.canonicalRoot (Path.ofNames place) = true ↔ base <+: place := by
    have hshallow : ¬disk.Plunges root := by
      rw [← h.normal.2.1]
      exact mt (plunges_joined hpath) hplunges
    rw [h.canonicalRoot_eq hroot hshallow, Path.contains_ofNames hroot.plain hleads.plain]
  constructor
  · intro hinside hplunges
    have hcanonical := Disk.canonical?_eq_some_iff.mpr ⟨place, x, hleads, hplunges, rfl⟩
    exact (hcontains hplunges).mp (hinside _ hcanonical)
  · intro hinside canonical hcanonical
    obtain ⟨q, y, hq, hplunges, rfl⟩ := Disk.canonical?_eq_some_iff.mp hcanonical
    obtain ⟨rfl, rfl⟩ := hleads.unique hq
    exact (hcontains hplunges).mpr (hinside hplunges)

theorem realPath_up (w : Workspace) (disk : Disk) (h : ".." ∈ Path.segments path) :
    w.realPath disk path = .error (.pathOutsideWorkspace path) := by
  rw [realPath, normalize, Path.normalize?, if_pos h]
  rfl

theorem realPath_outside (hpath : Path.normalize? path = some normal)
    (h : ¬∀ canonical, disk.canonical? (w.joined normal) = some canonical →
      Path.contains w.canonicalRoot canonical = true) :
    w.realPath disk path = .error (.pathOutsideWorkspace path) := by
  obtain ⟨canonical, hout⟩ := not_forall.mp h
  obtain ⟨hcanonical, hout⟩ := Classical.not_imp.mp hout
  rw [joined] at hcanonical
  rw [realPath, normalize_eq_ok_iff.mpr hpath]
  simp only [bind, Except.bind, hcanonical, if_neg hout]
  rfl

end EditorSync.Workspace

namespace EditorSync.Shadows

variable {s : Shadows} {disk : Disk} {base : List String} {root : String}
variable {projects : Option (List String)} {e : Disk.Entry}

theorem readReal_of_deep {file normal text : String} {place : List String}
    (hnormal : Path.normalize? file = some normal)
    (hlocate : disk.locate true (s.workspace.joined normal) =
      .ok (.found place (.file (Text.encode text)))) (hdeep : Disk.Deep place) :
    s.readReal disk file = .ok (some text) := by
  have hnormal' := Workspace.normalize_eq_ok_iff.mpr hnormal
  refine readReal_eq_some_iff.mpr ⟨normal, place, hnormal', hlocate, fun canonical hcanonical => ?_⟩
  have hnone := Disk.canonical?_of_deep (Disk.leads_of_locate hlocate) hdeep
  cases hcanonical.symm.trans hnone

section Abyss

variable {names place rest : List String} {k n : Nat} {follow : Bool} {links : Nat}

def shaft (names : List String) (disk : Disk) : Nat → Disk
  | 0 => disk
  | n + 1 => (shaft names disk n).put (names.take (n + 1)) .dir

theorem entry?_shaft_of_ne {p : List String} (hne : names ≠ [])
    (h : ∀ k < n, p ≠ names.take (k + 1)) :
    Disk.entry? (shaft names disk n) p = disk.entry? p := by
  induction n with
  | zero => rfl
  | succ n ih =>
    rw [shaft, Disk.entry?_put _ _ _ (by simpa using hne), if_neg (h n (Nat.lt_succ_self n))]
    exact ih fun k hk => h k (Nat.lt_succ_of_lt hk)

theorem entry?_shaft (hne : names ≠ []) (h : k < n) :
    Disk.entry? (shaft names disk n) (names.take (k + 1)) = some .dir := by
  induction n with
  | zero => omega
  | succ n ih =>
    rw [shaft, Disk.entry?_put _ _ _ (by simpa using hne)]
    split
    · rfl
    · rename_i hother
      have hk : k ≠ n := fun heq => hother (by rw [heq])
      exact ih (by omega)

theorem walk_names (hnames : ∀ name ∈ names, Disk.LooksUp name)
    (hdirs : ∀ k < names.length, disk.entry? (place ++ names.take (k + 1)) = some .dir) :
    disk.walk follow links place (names ++ rest) =
      disk.walk follow links (place ++ names) rest := by
  induction names generalizing place with
  | nil => rw [List.nil_append, List.append_nil]
  | cons name names ih =>
    obtain ⟨hname, hnames⟩ := List.forall_mem_cons.mp hnames
    have hhere : disk.entry? (place ++ [name]) = some .dir := hdirs 0 (Nat.succ_pos _)
    rw [List.cons_append, Disk.walk_dir _ hname hhere, ih hnames, List.append_assoc]
    · rfl
    · intro k hk
      rw [List.append_assoc]
      exact hdirs (k + 1) (Nat.succ_lt_succ hk)

def longName (c : Char) : String := String.ofList (List.replicate 200 c)

def outer : List String := "outside" :: List.replicate 10 (longName 'a')

def inner : List String := List.replicate 12 (longName 'b') ++ [".tandem", "workingCopies"]

/-- A link in the workspace leads out of it, to directories that go on until they are too deep. -/
def abyss : Disk :=
  (shaft (outer ++ inner)
    ((Disk.empty.put ["w"] .dir).put ["w", "l"] (.link (Path.join (".." :: outer)))) 25).put
      (outer ++ inner ++ ["f"]) (.file (Text.encode "secret"))

theorem plain_longName {c : Char} (h : c ≠ '/') : Path.Plain (longName c) := by
  have hlist : (longName c).toList = List.replicate 200 c := String.toList_ofList
  have hne {short : String} (hshort : short.toList.length ≠ 200) : longName c ≠ short := by
    rintro rfl
    rw [hlist, List.length_replicate] at hshort
    exact hshort rfl
  refine ⟨hne (by decide), hne (by decide), hne (by decide), ?_⟩
  rw [hlist, List.mem_replicate]
  exact fun hslash => h hslash.2.symm

theorem plain_outer : ∀ name ∈ outer, Path.Plain name := by
  refine List.forall_mem_cons.mpr ⟨by decide, fun name hname => ?_⟩
  rw [List.eq_of_mem_replicate hname]
  exact plain_longName (by decide)

theorem plain_inner : ∀ name ∈ inner, Path.Plain name := by
  refine List.forall_mem_append.mpr ⟨fun name hname => ?_, by decide⟩
  rw [List.eq_of_mem_replicate hname]
  exact plain_longName (by decide)

theorem fits_outer : ∀ name ∈ outer, ¬Disk.maxName < name.utf8ByteSize := by decide +kernel

theorem fits_inner : ∀ name ∈ inner, ¬Disk.maxName < name.utf8ByteSize := by decide +kernel

theorem looksUp_of_plain {name : String} (h : Path.Plain name)
    (hfits : ¬Disk.maxName < name.utf8ByteSize) : Disk.LooksUp name :=
  ⟨not_or.mpr ⟨h.1, h.2.1⟩, h.2.2.1, hfits⟩

theorem entry?_abyss_dir (h : k < 25) :
    abyss.entry? ((outer ++ inner).take (k + 1)) = some .dir := by
  have hother : (outer ++ inner).take (k + 1) ≠ outer ++ inner ++ ["f"] := by
    intro heq
    have hlength := (List.take_prefix (k + 1) (outer ++ inner)).length_le
    rw [heq, List.length_append, List.length_singleton] at hlength
    omega
  rw [abyss, Disk.entry?_put _ _ _ (by simp), if_neg hother]
  exact entry?_shaft (by decide) h

theorem entry?_abyss_workspace {p : List String} (h : p.head? = some "w") : abyss.entry? p =
    Disk.entry? ((Disk.empty.put ["w"] .dir).put ["w", "l"]
      (.link (Path.join (".." :: outer)))) p := by
  have hhead : some "outside" ≠ some "w" := by decide
  have hfile : p ≠ outer ++ inner ++ ["f"] := by
    rintro rfl
    exact hhead h
  have hdirs (k : Nat) : p ≠ (outer ++ inner).take (k + 1) := by
    rintro rfl
    exact hhead h
  rw [abyss, Disk.entry?_put _ _ _ (by simp), if_neg hfile]
  exact entry?_shaft_of_ne (by decide) fun k _ => hdirs k

theorem walk_abyss : abyss.walk true 40 [] ("" :: "w" :: "l" :: (inner ++ ["f"])) =
    .ok (.found (outer ++ inner ++ ["f"]) (.file (Text.encode "secret"))) := by
  have hw : Disk.LooksUp "w" := ⟨by decide, by decide, by decide⟩
  have hl : Disk.LooksUp "l" := ⟨by decide, by decide, by decide⟩
  have hf : Disk.LooksUp "f" := ⟨by decide, by decide, by decide⟩
  have hroot : abyss.entry? ([] ++ ["w"]) = some .dir := entry?_abyss_workspace rfl
  have hlink : abyss.entry? ([] ++ ["w"] ++ ["l"]) =
      some (.link (Path.join (".." :: outer))) := entry?_abyss_workspace rfl
  have hfile : abyss.entry? (outer ++ inner ++ ["f"]) = some (.file (Text.encode "secret")) := by
    rw [abyss, Disk.entry?_put _ _ _ (by simp), if_pos rfl]
  have htarget : Path.join (".." :: outer) = ".." ++ "/" ++ Path.join outer :=
    String.intercalate_cons_cons
  have hsegments : Path.segments (Path.join (".." :: outer)) = ".." :: outer := by
    rw [htarget, Path.segments_append_slash,
      Path.segments_join (fun name hname => (plain_outer name hname).2.2.2) (by decide)]
    rfl
  have hrelative : Path.isAbsolute (Path.join (".." :: outer)) = false := by
    rw [htarget, Path.isAbsolute, String.toList_append, String.toList_append]
    rfl
  have houter (k : Nat) (hk : k < outer.length) :
      abyss.entry? ([] ++ outer.take (k + 1)) = some .dir := by
    have hdir := entry?_abyss_dir (Nat.lt_of_lt_of_le hk (by decide : outer.length ≤ 25))
    rwa [List.take_append_of_le_length hk] at hdir
  have hinner (k : Nat) (hk : k < inner.length) :
      abyss.entry? (outer ++ inner.take (k + 1)) = some .dir := by
    have hlength : outer.length = 11 := rfl
    have hbound : inner.length = 14 := rfl
    have hdir := entry?_abyss_dir (k := 11 + k) (by omega)
    rwa [← hlength, Nat.add_assoc, List.take_length_add_append] at hdir
  have hup : ([] ++ ["w"] : List String).dropLast = [] := rfl
  rw [Disk.walk_skip _ (.inl rfl), Disk.walk_dir _ hw hroot, Disk.walk_link hl hlink (by simp),
    hsegments, hrelative, if_neg Bool.false_ne_true, List.cons_append, Disk.walk_up, hup,
    walk_names (fun name hname => looksUp_of_plain (plain_outer name hname) (fits_outer name hname))
      houter,
    List.nil_append,
    walk_names (fun name hname => looksUp_of_plain (plain_inner name hname) (fits_inner name hname))
      hinner, Disk.walk_file _ hf hfile]
  rfl

theorem deep_abyss : Disk.Deep (outer ++ inner ++ ["f"]) := by
  rw [Disk.Deep, Path.utf8ByteSize_ofNames (by simp)]
  decide +kernel

theorem canonical?_abyss : abyss.canonical? "/w" = some "/w" := by
  have hw : Disk.LooksUp "w" := ⟨by decide, by decide, by decide⟩
  have hroot : abyss.shallow.entry? ([] ++ ["w"]) = some .dir :=
    (Disk.entry?_shallow_of_not_deep (by decide)).trans (entry?_abyss_workspace rfl)
  have hsegments : Path.segments "/w" = ["", "w"] := by decide
  refine Disk.canonical?_eq_some_iff_walk.mpr ⟨by decide, ["w"], .dir, ?_, by decide⟩
  rw [hsegments, Disk.walk_skip _ (.inl rfl), Disk.walk_dir _ hw hroot, Disk.walk]
  rfl

end Abyss

section Inside

/-- A text is read just from a file that lies in the workspace once all links are resolved, or if an
entry on the way to it lies too deep for its canonical path. A path that leads out of the workspace
is refused unless it comes past such an entry, and one with a parent segment always. -/
theorem readReal_inside (hbuilt : s.workspace.Built disk root projects)
    (hroot : disk.Leads root base e) (file : String) :
    (∀ text, s.readReal disk file = .ok (some text) ↔ ∃ normal place,
        Path.normalize? file = some normal ∧
        disk.locate true (s.workspace.joined normal) =
          .ok (.found place (.file (Text.encode text))) ∧
        (¬disk.Plunges (s.workspace.joined normal) → base <+: place)) ∧
      (∀ normal place x, Path.normalize? file = some normal →
        disk.Leads (s.workspace.joined normal) place x → ¬base <+: place →
        ¬disk.Plunges (s.workspace.joined normal) →
        s.readReal disk file = .error (.pathOutsideWorkspace file)) ∧
      (".." ∈ Path.segments file → ∀ now,
        s.readReal now file = .error (.pathOutsideWorkspace file)) := by
  refine ⟨fun text => ?_, fun normal place x hnormal hleads houtside hplunges => ?_,
    fun hup now => ?_⟩
  · rw [readReal_eq_some_iff]
    refine exists_congr fun normal => exists_congr fun place => ?_
    rw [Workspace.normalize_eq_ok_iff]
    refine and_congr_right fun hnormal => and_congr_right fun hlocate => ?_
    exact hbuilt.inside_iff hroot hnormal (Disk.leads_of_locate hlocate)
  · have hleaves := mt (hbuilt.inside_iff hroot hnormal hleads).mp fun hinside =>
      houtside (hinside hplunges)
    rw [readReal, Workspace.realPath_outside hnormal hleaves]
    rfl
  · rw [readReal, Workspace.realPath_up _ _ hup]
    rfl

def linkedDisk : Disk :=
  ⟨.ofList [(["r"], .link "w"), (["w"], .dir), (["w", "a"], .file (Text.encode "x")),
    (["w", "l"], .link "/r/a"), (["b"], .dir), (["w", "k"], .link "../b")]⟩

def linkedShadows : Shadows := ⟨.ofRoot linkedDisk "/r", ".tandem"⟩

theorem readReal_inside_linked : linkedShadows.workspace.Built linkedDisk "/r" none ∧
    linkedDisk.Leads "/r" ["w"] .dir ∧
    (∃ place, linkedDisk.locate true "/r/l" = .ok (.found place (.file (Text.encode "x"))) ∧
      ["w"] <+: place) ∧
    linkedShadows.readReal linkedDisk "/k" = .error (.pathOutsideWorkspace "/k") := by
  have hbuilt : linkedShadows.workspace.Built linkedDisk "/r" none := rfl
  have hplunges (path canonical : String) (h : linkedDisk.canonical? path = some canonical) :
      ¬linkedDisk.Plunges path := by
    obtain ⟨_, _, -, hplunges, -⟩ := Disk.canonical?_eq_some_iff.mp h
    exact hplunges
  have hroot : linkedDisk.Leads "/r" ["w"] .dir := ⟨by decide, by cbv⟩
  have hread : linkedShadows.readReal linkedDisk "/l" = .ok (some "x") := by cbv
  refine ⟨hbuilt, hroot, ?_, ?_⟩
  · obtain ⟨normal, place, hnormal, hlocate, hinside⟩ :=
      ((readReal_inside hbuilt hroot "/l").1 "x").mp hread
    obtain rfl : "/l" = normal := Option.some.inj hnormal
    have hjoined : linkedShadows.workspace.joined "/l" = "/r/l" := by cbv
    rw [hjoined] at hlocate hinside
    exact ⟨place, hlocate, hinside (hplunges "/r/l" "/w/a" (by cbv))⟩
  · have hjoined : linkedShadows.workspace.joined "/k" = "/r/k" := by cbv
    refine (readReal_inside hbuilt hroot "/k").2.1 "/k" ["b"] .dir (by decide) ?_ (by decide) ?_
    · rw [hjoined]
      exact ⟨by decide, by cbv⟩
    · rw [hjoined]
      exact hplunges "/r/k" "/b" (by cbv)

def abyssShadows : Shadows := ⟨.ofRoot abyss "/w", ".tandem"⟩

def abyssFile : String := Path.ofNames ("l" :: (inner ++ ["f"]))

theorem plain_abyssFile : ∀ name ∈ "l" :: (inner ++ ["f"]), Path.Plain name :=
  List.forall_mem_cons.mpr ⟨by decide, List.forall_mem_append.mpr ⟨plain_inner, by decide⟩⟩

theorem joined_abyssFile : abyssShadows.workspace.joined abyssFile = "/w" ++ abyssFile := by
  have hroot : abyssShadows.workspace.root = "/w" := rfl
  rw [Workspace.joined, hroot, abyssFile, Workspace.relative_ofNames plain_abyssFile, Path.append,
    Workspace.isAbsolute_join plain_abyssFile, if_neg Bool.false_ne_true, if_neg (by decide),
    Path.ofNames, String.append_assoc]

theorem readReal_abyss : abyssShadows.workspace.Built abyss "/w" none ∧
    abyss.canonical? "/w" = some "/w" ∧
    abyssShadows.readReal abyss abyssFile = .ok (some "secret") ∧
    ∃ place, abyss.locate true (abyssShadows.workspace.joined abyssFile) =
      .ok (.found place (.file (Text.encode "secret"))) ∧ ¬["w"] <+: place := by
  have hnormal : Path.normalize? abyssFile = some abyssFile :=
    Path.normalize?_ofNames plain_abyssFile
  have hsound : Disk.Sound ("/w" ++ abyssFile) := by
    have hbound : ¬Disk.maxPath ≤ ("/w" ++ abyssFile).utf8ByteSize := by
      rw [String.utf8ByteSize_append, abyssFile, Path.utf8ByteSize_ofNames (by simp)]
      decide +kernel
    refine ⟨fun hnul => ?_, hbound⟩
    rw [String.toList_append, List.mem_append] at hnul
    obtain ⟨name, hname, hmem⟩ := Path.exists_mem_of_mem_ofNames (by decide)
      (hnul.resolve_left (by decide))
    revert name
    decide +kernel
  have hsegments : Path.segments ("/w" ++ abyssFile) = "" :: "w" :: "l" :: (inner ++ ["f"]) := by
    rw [abyssFile, Path.ofNames, ← String.append_assoc, Path.segments_append_slash,
      Path.segments_join (fun name hname => (plain_abyssFile name hname).2.2.2) (by simp)]
    rfl
  have hlocate : abyss.locate true (abyssShadows.workspace.joined abyssFile) =
      .ok (.found (outer ++ inner ++ ["f"]) (.file (Text.encode "secret"))) := by
    rw [joined_abyssFile, Disk.locate_of_sound hsound, hsegments]
    exact walk_abyss
  refine ⟨rfl, canonical?_abyss, readReal_of_deep hnormal hlocate deep_abyss, _, hlocate, ?_⟩
  rintro ⟨more, hmore⟩
  exact absurd (List.head_eq_of_cons_eq hmore) (by decide)

end Inside

end EditorSync.Shadows
