import EditorSync.LanguageServer.Language
import EditorSync.Proofs.LanguageServer.Uri

namespace EditorSync.LanguageServer

variable {path uri : String} {c : Char} {cs extra : List Char}

def escapeInUrl (c : Char) : List Char :=
  if isPlain c || isForbidden c then [c] else (Text.encode c.toString).flatMap percentByte

def urlPath (path : String) : List Char :=
  (if Path.names path = [] then [""] else Path.names path).flatMap fun name =>
    '/' :: name.toList.flatMap escapeInUrl

def fileUrl (path : String) : String := "file://" ++ String.ofList (urlPath path)

section Characters

theorem isForbidden_iff : isForbidden c = true ↔ c ∈ ['[', ']', '^', '|'] := by
  rw [isForbidden, List.contains_iff_mem]
  rfl

theorem not_isPlain_of_isForbidden (h : isForbidden c = true) : isPlain c = false := by
  rw [isForbidden_iff] at h
  simp only [List.mem_cons, List.not_mem_nil, or_false] at h
  rcases h with rfl | rfl | rfl | rfl <;> decide

theorem isHex_upperHex : ∀ n < 16, isHex (upperHex n) = true := by decide

theorem isPart_cons (h : c ≠ '%') :
    isPart extra (c :: cs) = ((isPlain c || extra.contains c) && isPart extra cs) := by
  rw [isPart]
  rintro a b rest rfl
  exact absurd rfl h

theorem isPart_percentBytes (bytes : Text.Bytes) (extra cs : List Char) :
    isPart extra (bytes.flatMap percentByte ++ cs) = isPart extra cs := by
  induction bytes with
  | nil => rfl
  | cons b bytes ih =>
    have hlt : b.toNat < 256 := b.toNat_lt_size
    rw [List.flatMap_cons, List.append_assoc, percentByte, List.cons_append, List.cons_append,
      List.cons_append, List.nil_append, isPart, isHex_upperHex _ (by omega),
      isHex_upperHex _ (by omega), ih, Bool.true_and, Bool.true_and]

theorem isPart_escapeInUrl (c : Char) (cs : List Char) :
    isPart ['/'] (escapeInUrl c ++ cs) = (!isForbidden c && isPart ['/'] cs) := by
  unfold escapeInUrl
  by_cases hforbidden : isForbidden c = true
  · have hplain := not_isPlain_of_isForbidden hforbidden
    rw [hforbidden, Bool.or_true, if_pos rfl, List.singleton_append]
    rw [isForbidden_iff] at hforbidden
    simp only [List.mem_cons, List.not_mem_nil, or_false] at hforbidden
    rcases hforbidden with rfl | rfl | rfl | rfl <;> rw [isPart_cons (by decide), hplain] <;> rfl
  · rw [Bool.not_eq_true] at hforbidden
    rw [hforbidden, Bool.or_false, Bool.not_false, Bool.true_and]
    split
    · rename_i hplain
      have hpercent : c ≠ '%' := by
        rintro rfl
        exact absurd hplain (by decide)
      rw [List.singleton_append, isPart_cons hpercent, hplain, Bool.true_or, Bool.true_and]
    · exact isPart_percentBytes _ _ _

theorem escapeInUrl_of_allowed (h : isForbidden c = false) : escapeInUrl c = escapeInUri c := by
  rw [escapeInUrl, escapeInUri, h, Bool.or_false]

theorem not_mem_escapeInUrl (hplain : isPlain c = false) (hforbidden : isForbidden c = false)
    (hpercent : c ≠ '%') (hhex : ∀ n < 16, upperHex n ≠ c) (d : Char) : c ∉ escapeInUrl d := by
  intro hmem
  unfold escapeInUrl at hmem
  split at hmem
  · rename_i hkept
    cases List.mem_singleton.1 hmem
    simp [hplain, hforbidden] at hkept
  · obtain ⟨b, -, hb⟩ := List.mem_flatMap.1 hmem
    have hlt : b.toNat < 256 := b.toNat_lt_size
    simp only [percentByte, List.mem_cons, List.not_mem_nil, or_false] at hb
    rcases hb with hb | hb | hb
    · exact hpercent hb
    · exact hhex _ (by omega) hb.symm
    · exact hhex _ (by omega) hb.symm

end Characters

section Urls

theorem isPart_flatMap (cs rest : List Char) : isPart ['/'] (cs.flatMap escapeInUrl ++ rest) =
    (cs.all (fun c => !isForbidden c) && isPart ['/'] rest) := by
  induction cs with
  | nil => rfl
  | cons c cs ih =>
    rw [List.flatMap_cons, List.append_assoc, isPart_escapeInUrl, ih, List.all_cons, Bool.and_assoc]

theorem isPart_names (names : List String) :
    isPart ['/'] (names.flatMap fun name => '/' :: name.toList.flatMap escapeInUrl) =
      names.all fun name => name.toList.all fun c => !isForbidden c := by
  have hslash (cs : List Char) : isPart ['/'] ('/' :: cs) = isPart ['/'] cs := by
    rw [isPart_cons (by decide)]
    rfl
  induction names with
  | nil => rfl
  | cons name names ih =>
    rw [List.flatMap_cons, List.cons_append, hslash, isPart_flatMap, ih, List.all_cons]

theorem isPart_urlPath (path : String) : isPart ['/'] (urlPath path) =
    (Path.names path).all fun name => name.toList.all fun c => !isForbidden c := by
  rw [urlPath, isPart_names]
  split
  · rename_i hnil
    rw [hnil]
    rfl
  · rfl

theorem not_mem_urlPath (hslash : c ≠ '/') (hplain : isPlain c = false)
    (hforbidden : isForbidden c = false) (hpercent : c ≠ '%') (hhex : ∀ n < 16, upperHex n ≠ c) :
    c ∉ urlPath path := by
  intro hmem
  obtain ⟨name, -, hname⟩ := List.mem_flatMap.1 hmem
  rcases List.mem_cons.1 hname with rfl | hname
  · exact hslash rfl
  · obtain ⟨d, -, hd⟩ := List.mem_flatMap.1 hname
    exact not_mem_escapeInUrl hplain hforbidden hpercent hhex d hd

theorem urlPath_eq_cons (path : String) : ∃ rest, urlPath path = '/' :: rest := by
  unfold urlPath
  split
  · exact ⟨[], rfl⟩
  · rename_i hne
    obtain ⟨name, names, hnames⟩ := List.exists_cons_of_ne_nil hne
    exact ⟨_, by rw [hnames, List.flatMap_cons, List.cons_append]⟩

theorem isUri_eq {text : String} {scheme body : List Char}
    (htext : text.toList = scheme ++ ':' :: '/' :: '/' :: body) (hscheme : ':' ∉ scheme)
    (hquestion : '?' ∉ body) (hhash : '#' ∉ body) :
    isUri text = (isScheme scheme && isPart ['[', ']'] (body.span (· ≠ '/')).1 &&
      isPart ['/'] (body.span (· ≠ '/')).2) := by
  have htake : text.toList.takeWhile (· ≠ ':') = scheme := by
    rw [htext, Text.takeWhile_ne_append hscheme rfl]
  have hdrop : text.toList.drop scheme.length = ':' :: '/' :: '/' :: body := by
    rw [htext, List.drop_left]
  have habsent {d : Char} (hcolon : d ≠ ':') (hslash : d ≠ '/') (hbody : d ∉ body) :
      d ∉ ':' :: '/' :: '/' :: body := by
    simp only [List.mem_cons, hcolon, hslash, hbody, or_self, not_false_eq_true]
  have hfront : (':' :: '/' :: '/' :: body).takeWhile (fun c => c ≠ '?' && c ≠ '#') =
      ':' :: '/' :: '/' :: body := by
    rw [← List.append_nil (':' :: _), List.takeWhile_append_of_pos, List.takeWhile_nil]
    intro c hc
    rw [Bool.and_eq_true, decide_eq_true_eq, decide_eq_true_eq]
    exact ⟨fun heq => habsent (by decide) (by decide) hquestion (heq ▸ hc),
      fun heq => habsent (by decide) (by decide) hhash (heq ▸ hc)⟩
  unfold isUri
  simp only [htake, hdrop, hfront, List.drop_length, List.takeWhile_nil, List.length_nil,
    Nat.add_zero, List.drop_nil]
  simp [isPart]

theorem isUri_fileUrl (path : String) : isUri (fileUrl path) = isPart ['/'] (urlPath path) := by
  have hchars : (fileUrl path).toList =
      ['f', 'i', 'l', 'e'] ++ ':' :: '/' :: '/' :: urlPath path := by
    rw [fileUrl, String.toList_append, String.toList_ofList, String.toList_ofList]
    rfl
  obtain ⟨rest, hrest⟩ := urlPath_eq_cons path
  have hspan : (urlPath path).span (· ≠ '/') = ([], urlPath path) := by
    rw [hrest]
    rfl
  rw [isUri_eq hchars (by decide), hspan]
  · rfl
  · exact not_mem_urlPath (by decide) (by decide) (by decide) (by decide) (by decide)
  · exact not_mem_urlPath (by decide) (by decide) (by decide) (by decide) (by decide)

end Urls

section Paths

theorem mem_intercalate {d : Char} (h : c ≠ d) (pieces : List (List Char)) :
    c ∈ [d].intercalate pieces ↔ ∃ piece ∈ pieces, c ∈ piece := by
  induction pieces with
  | nil => simp
  | cons piece pieces ih =>
    by_cases hnil : pieces = []
    · simp [hnil]
    · rw [List.intercalate_cons_of_ne_nil hnil, List.mem_append, List.mem_append, ih,
        List.exists_mem_cons_iff, List.mem_singleton]
      simp [h]

theorem mem_path_iff (h : c ≠ '/') : c ∈ path.toList ↔ ∃ s ∈ Path.segments path, c ∈ s.toList := by
  have hpieces := mem_intercalate h (path.toList.splitOn '/')
  rw [List.intercalate_splitOn] at hpieces
  rw [hpieces]
  simp [Path.segments]

theorem allowed_iff : (∀ c ∈ path.toList, isForbidden c = false) ↔
    ∀ name ∈ Path.names path, ∀ c ∈ name.toList, isForbidden c = false := by
  constructor
  · intro h name hname c hc
    by_cases hslash : c = '/'
    · rw [hslash]
      decide
    · exact h c ((mem_path_iff hslash).mpr ⟨name, (List.mem_filter.mp hname).1, hc⟩)
  · intro h c hc
    by_cases hslash : c = '/'
    · rw [hslash]
      decide
    · obtain ⟨s, hs, hcs⟩ := (mem_path_iff hslash).mp hc
      by_cases hname : s ≠ "" ∧ s ≠ "."
      · exact h s (List.mem_filter.mpr ⟨hs, decide_eq_true hname⟩) c hcs
      · rw [not_and_or, not_not, not_not] at hname
        rcases hname with rfl | rfl
        · cases hcs
        · rw [List.mem_singleton.mp hcs]
          decide

theorem urlPath_of_allowed (h : ∀ c ∈ path.toList, isForbidden c = false) : urlPath path =
    (if Path.names path = [] then [""] else Path.names path).flatMap fun name =>
      '/' :: segment name := by
  have hname : ∀ name ∈ Path.names path,
      name.toList.flatMap escapeInUrl = segment name := fun name hname =>
    List.flatMap_congr fun c hc => escapeInUrl_of_allowed (allowed_iff.mp h name hname c hc)
  unfold urlPath
  split
  · rfl
  · exact List.flatMap_congr fun name hmem => congrArg _ (hname name hmem)

theorem isUri_fileUrl_iff :
    isUri (fileUrl path) = true ↔ ∀ c ∈ path.toList, isForbidden c = false := by
  rw [isUri_fileUrl, isPart_urlPath, allowed_iff]
  simp only [List.all_eq_true, Bool.not_eq_true']

theorem fileUrl_of_allowed (h : ∀ c ∈ path.toList, isForbidden c = false) : fileUrl path =
    if Path.names path = [] then "file:///"
    else "file://" ++ String.ofList ((Path.names path).flatMap fun name => '/' :: segment name) := by
  rw [fileUrl, urlPath_of_allowed h]
  split
  · rfl
  · rfl

theorem uriOf_eq (habsolute : Path.isAbsolute path = true) : uriOf path =
    if isUri (fileUrl path) then .ok (fileUrl path) else .error (.invalid path) := by
  have hforbidden : ((Path.names path).any fun name => name.toList.any isForbidden) =
      !isUri (fileUrl path) := by
    rw [isUri_fileUrl, isPart_urlPath]
    simp [List.not_all_eq_any_not]
  unfold uriOf
  rw [habsolute, names_of_components habsolute]
  dsimp only
  rw [hforbidden]
  by_cases hallowed : isUri (fileUrl path) = true
  · rw [hallowed, if_pos rfl, fileUrl_of_allowed (isUri_fileUrl_iff.mp hallowed),
      apply_ite Except.ok]
    rfl
  · rw [Bool.not_eq_true] at hallowed
    rw [hallowed]
    rfl

end Paths

section Files

def Direct (path : String) : Prop := ∀ s ∈ (Path.segments path).tail, s ≠ "" ∧ s ≠ "."

instance (path : String) : Decidable (Direct path) := inferInstanceAs (Decidable (∀ _ ∈ _, _))

theorem Direct.segments_eq (h : Direct path) (habsolute : Path.isAbsolute path = true) :
    Path.segments path = "" :: Path.names path := by
  obtain ⟨rest, hrest⟩ : ∃ rest, Path.segments path = "" :: rest := by
    unfold Path.isAbsolute at habsolute
    cases hchars : path.toList with
    | nil =>
      rw [hchars] at habsolute
      cases habsolute
    | cons c cs =>
      rw [hchars] at habsolute
      obtain rfl : c = '/' := Option.some.inj (beq_iff_eq.mp habsolute)
      rw [Path.segments, hchars, List.splitOn_cons_eq_if_modifyHead]
      exact ⟨_, rfl⟩
  rw [Direct, hrest, List.tail_cons] at h
  rw [Path.names, hrest, List.filter_cons_of_neg (by simp), List.filter_eq_self.mpr]
  intro s hs
  exact decide_eq_true (h s hs)

theorem segments_injective : Function.Injective Path.segments := by
  intro path path' h
  have hpieces : path.toList.splitOn '/' = path'.toList.splitOn '/' :=
    List.map_injective_iff.mpr (fun _ _ => String.ofList_injective) h
  have hchars := congrArg ['/'].intercalate hpieces
  rwa [List.intercalate_splitOn, List.intercalate_splitOn, String.toList_inj] at hchars

theorem Direct.eq_of_names {path' : String} (h : Direct path) (h' : Direct path')
    (habsolute : Path.isAbsolute path = true) (habsolute' : Path.isAbsolute path' = true)
    (hnames : Path.names path = Path.names path') : path = path' := by
  apply segments_injective
  rw [h.segments_eq habsolute, h'.segments_eq habsolute', hnames]

theorem uriOf_eq_ok_iff :
    uriOf path = .ok uri ↔ Path.isAbsolute path = true ∧ uri = fileUrl path ∧ isUri uri = true := by
  by_cases habsolute : Path.isAbsolute path = true
  · rw [uriOf_eq habsolute]
    split
    · rename_i huri
      rw [Except.ok.injEq]
      constructor
      · rintro rfl
        exact ⟨habsolute, rfl, huri⟩
      · rintro ⟨-, rfl, -⟩
        rfl
    · rename_i huri
      constructor
      · intro h
        cases h
      · rintro ⟨-, rfl, h⟩
        exact absurd h huri
  · rw [uriOf, if_pos (by simpa using habsolute)]
    constructor
    · intro h
      cases h
    · rintro ⟨h, -⟩
      exact absurd h habsolute

theorem exists_uriOf_iff : (∃ uri, uriOf path = .ok uri) ↔
    Path.isAbsolute path = true ∧ ∀ c ∈ path.toList, isForbidden c = false := by
  simp only [uriOf_eq_ok_iff, ← isUri_fileUrl_iff]
  constructor
  · rintro ⟨uri, habsolute, rfl, huri⟩
    exact ⟨habsolute, huri⟩
  · rintro ⟨habsolute, huri⟩
    exact ⟨fileUrl path, habsolute, rfl, huri⟩

/-- The URI of an absolute path is its URL, and there is one unless the path has a character that a
URL leaves alone and that a URI may not have. Only paths with the same names have the same URI, which
means that paths without empty segments and dots, and files of a workspace, have URIs of their own. -/
theorem uriOf_tells_apart (path uri : String) :
    (uriOf path = .ok uri ↔
        Path.isAbsolute path = true ∧ uri = fileUrl path ∧ isUri uri = true) ∧
      ((∃ uri, uriOf path = .ok uri) ↔
        Path.isAbsolute path = true ∧ ∀ c ∈ path.toList, isForbidden c = false) ∧
      (∀ path', uriOf path = .ok uri → uriOf path' = .ok uri →
        Path.names path = Path.names path' ∧ (Direct path → Direct path' → path = path')) ∧
      ∀ root file file', Path.normalize? file = some file → Path.normalize? file' = some file' →
        uriOf (Path.append root (Workspace.relative file)) = .ok uri →
        uriOf (Path.append root (Workspace.relative file')) = .ok uri → file = file' := by
  refine ⟨uriOf_eq_ok_iff, exists_uriOf_iff, ?_, ?_⟩
  · intro path' h h'
    have hnames := names_eq_of_uriOf h h'
    have habsolute := (uriOf_eq_ok_iff.mp h).1
    have habsolute' := (uriOf_eq_ok_iff.mp h').1
    exact ⟨hnames, fun hdirect hdirect' =>
      hdirect.eq_of_names hdirect' habsolute habsolute' hnames⟩
  · intro root file file' hfile hfile' h h'
    exact file_eq_of_uriOf hfile hfile' h h'

theorem uriOf_tells_apart_percent : ∃ uri uri', uriOf "/p/a b.rs" = .ok uri ∧
    uriOf "/p/a%20b.rs" = .ok uri' ∧ uri ≠ uri' := by
  have hexists (path : String) (habsolute : Path.isAbsolute path = true)
      (huri : isUri (fileUrl path) = true) : uriOf path = .ok (fileUrl path) :=
    (uriOf_tells_apart path (fileUrl path)).1.mpr ⟨habsolute, rfl, huri⟩
  have hspace := hexists "/p/a b.rs" (by decide) (by decide)
  have hpercent := hexists "/p/a%20b.rs" (by decide) (by decide)
  refine ⟨_, _, hspace, hpercent, fun hsame => ?_⟩
  rw [← hsame] at hpercent
  obtain ⟨-, -, hapart, -⟩ := uriOf_tells_apart "/p/a b.rs" (fileUrl "/p/a b.rs")
  have heq := (hapart _ hspace hpercent).2 (by decide) (by decide)
  exact absurd heq (by decide)

theorem uriOf_brackets : Path.isAbsolute "/p/[b].rs" = true ∧ Direct "/p/[b].rs" ∧
    languageOf? "/p/[b].rs" = some "rust" ∧
    uriOf "/p/[b].rs" = .error (.invalid "/p/[b].rs") := by
  decide

end Files

end EditorSync.LanguageServer
