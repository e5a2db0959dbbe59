import EditorSync.LanguageServer.Uri
import EditorSync.Proofs.Path
import EditorSync.Proofs.Text
import EditorSync.Proofs.Workspace

namespace EditorSync.LanguageServer

open Text (Bytes)

def hexValue (c : Char) : Nat := if c.isDigit then c.toNat - '0'.toNat else c.toNat - 'A'.toNat + 10

def unescape : List Char → Bytes
  | '%' :: a :: b :: cs => .ofNat (hexValue a * 16 + hexValue b) :: unescape cs
  | c :: cs => Text.encode c.toString ++ unescape cs
  | [] => []

theorem hexValue_upperHex : ∀ n < 16, hexValue (upperHex n) = n := by decide

theorem unescape_percentByte (b : UInt8) (cs : List Char) :
    unescape (percentByte b ++ cs) = b :: unescape cs := by
  have hlt : b.toNat < 256 := b.toNat_lt_size
  have hdigits : b.toNat / 16 * 16 + b.toNat % 16 = b.toNat := Nat.div_add_mod' b.toNat 16
  rw [percentByte, List.cons_append, List.cons_append, List.cons_append, List.nil_append, unescape,
    hexValue_upperHex _ (by omega), hexValue_upperHex _ (by omega), hdigits, UInt8.ofNat_toNat]

theorem unescape_percentBytes (bytes : Bytes) (cs : List Char) :
    unescape (bytes.flatMap percentByte ++ cs) = bytes ++ unescape cs := by
  induction bytes with
  | nil => rfl
  | cons b bytes ih =>
    rw [List.flatMap_cons, List.append_assoc, unescape_percentByte, ih, List.cons_append]

theorem unescape_escapeInUri (c : Char) (cs : List Char) :
    unescape (escapeInUri c ++ cs) = Text.encode c.toString ++ unescape cs := by
  unfold escapeInUri
  split
  · rename_i hplain
    have hpercent : c ≠ '%' := by
      rintro rfl
      exact absurd hplain (by decide)
    rw [List.cons_append, List.nil_append, unescape.eq_2 c cs]
    exact fun _ _ _ hc => absurd hc hpercent
  · exact unescape_percentBytes _ cs

theorem encode_cons (c : Char) (cs : List Char) :
    Text.encode (String.ofList (c :: cs)) = Text.encode c.toString ++ Text.encode (.ofList cs) := by
  have hcons : String.ofList (c :: cs) = c.toString ++ String.ofList cs := by
    rw [← String.toList_inj, String.toList_append, String.toList_ofList, String.toList_ofList]
    simp
  rw [hcons, Text.encode_append]

theorem unescape_segment (name : String) : unescape (segment name) = Text.encode name := by
  have hchars : ∀ cs : List Char,
      unescape (cs.flatMap escapeInUri) = Text.encode (String.ofList cs) := by
    intro cs
    induction cs with
    | nil => rfl
    | cons c cs ih => rw [List.flatMap_cons, unescape_escapeInUri, ih, encode_cons]
  rw [segment, hchars, String.ofList_toList]

theorem segment_injective : Function.Injective segment := by
  intro name name' h
  have hencode : Text.encode name = Text.encode name' := by
    rw [← unescape_segment, ← unescape_segment, h]
  have hdecode := Text.decode?_encode name
  rw [hencode, Text.decode?_encode] at hdecode
  exact (Option.some.inj hdecode).symm

theorem not_slash_mem_segment (name : String) : '/' ∉ segment name := by
  have hhex : ∀ n < 16, upperHex n ≠ '/' := by decide
  intro hmem
  obtain ⟨c, -, hc⟩ := List.mem_flatMap.1 hmem
  unfold escapeInUri at hc
  split at hc
  · rename_i hplain
    cases List.mem_singleton.1 hc
    exact absurd hplain (by decide)
  · obtain ⟨b, -, hb⟩ := List.mem_flatMap.1 hc
    have hlt : b.toNat < 256 := b.toNat_lt_size
    simp only [percentByte, List.mem_cons, List.not_mem_nil, or_false] at hb
    obtain hb | hb | hb := hb
    · cases hb
    · exact hhex _ (by omega) hb.symm
    · exact hhex _ (by omega) hb.symm

theorem eq_of_append_slash {a b r r' : List Char} (ha : '/' ∉ a) (hb : '/' ∉ b)
    (hr : r.head?.all (· = '/')) (hr' : r'.head?.all (· = '/')) (h : a ++ r = b ++ r') :
    a = b ∧ r = r' := by
  have hab : a = b := by
    rw [← Text.takeWhile_ne_append ha hr, h, Text.takeWhile_ne_append hb hr']
  subst hab
  exact ⟨rfl, List.append_cancel_left h⟩

theorem eq_of_segments_eq {names names' : List String}
    (h : names.flatMap (fun name => '/' :: segment name) =
      names'.flatMap (fun name => '/' :: segment name)) : names = names' := by
  have hslash : ∀ names : List String,
      (names.flatMap fun name => '/' :: segment name).head?.all (· = '/') := by
    intro names
    cases names <;> simp
  induction names generalizing names' with
  | nil =>
    cases names' with
    | nil => rfl
    | cons name' names' => cases h
  | cons name names ih =>
    cases names' with
    | nil => cases h
    | cons name' names' =>
      rw [List.flatMap_cons, List.flatMap_cons, List.cons_append, List.cons_append] at h
      obtain ⟨hname, hnames⟩ := eq_of_append_slash (not_slash_mem_segment name)
        (not_slash_mem_segment name') (hslash names) (hslash names') (List.cons.inj h).2
      rw [segment_injective hname, ih hnames]

theorem text_ofName (name : String) : Component.text (Path.Component.ofName name) = some name := by
  unfold Path.Component.ofName
  split
  · rename_i h
    rw [h]
    rfl
  · rfl

theorem names_of_components {path : String} (h : Path.isAbsolute path = true) :
    (Path.components path).filterMap Component.text = Path.names path := by
  have htext : Component.text ∘ Path.Component.ofName = some := funext text_ofName
  rw [Path.components, if_pos h, List.filterMap_cons_none rfl, List.filterMap_map, htext,
    List.filterMap_some]

theorem toList_of_uriOf {path uri : String} (h : uriOf path = .ok uri) :
    uri.toList = "file://".toList ++
      (if Path.names path = [] then [""] else Path.names path).flatMap
        fun name => '/' :: segment name := by
  unfold uriOf at h
  split at h
  · cases h
  · rename_i habsolute
    rw [Bool.not_eq_true, Bool.not_eq_false'] at habsolute
    rw [names_of_components habsolute] at h
    dsimp only at h
    split at h
    · cases h
    · split at h
      · rename_i hnames
        cases h
        rw [if_pos hnames]
        rfl
      · rename_i hnames
        cases h
        rw [if_neg hnames, String.toList_append]
        exact congrArg _ String.toList_ofList

theorem names_eq_of_uriOf {path path' uri : String} (h : uriOf path = .ok uri)
    (h' : uriOf path' = .ok uri) : Path.names path = Path.names path' := by
  have hempty : ∀ path : String, "" ∉ Path.names path := by
    intro path hmem
    have hfilter := (List.mem_filter.1 hmem).2
    simp at hfilter
  have hsegments := (toList_of_uriOf h).symm.trans (toList_of_uriOf h')
  have hnames := eq_of_segments_eq (List.append_cancel_left hsegments)
  split at hnames <;> split at hnames
  · rename_i hnil hnil'
    rw [hnil, hnil']
  · exact absurd (hnames ▸ List.mem_singleton_self "") (hempty path')
  · exact absurd (hnames ▸ List.mem_singleton_self "") (hempty path)
  · exact hnames

theorem file_eq_of_uriOf {root file file' uri : String} (hfile : Path.normalize? file = some file)
    (hfile' : Path.normalize? file' = some file')
    (h : uriOf (Path.append root (Workspace.relative file)) = .ok uri)
    (h' : uriOf (Path.append root (Workspace.relative file')) = .ok uri) : file = file' := by
  have hbelow : ∀ file, Path.normalize? file = some file →
      Path.names (Path.append root (Workspace.relative file)) =
        Path.names root ++ Path.names file := by
    intro file hfile
    obtain ⟨-, hof, hplain⟩ := Path.normalize?_normal hfile
    rw [hof, Workspace.relative_ofNames hplain,
      Path.names_append _ _ (Workspace.isAbsolute_join hplain), Path.names_join,
      Path.names_ofNames]
  have hnames := names_eq_of_uriOf h h'
  rw [hbelow file hfile, hbelow file' hfile', List.append_cancel_left_eq] at hnames
  rw [(Path.normalize?_normal hfile).2.1, hnames, ← (Path.normalize?_normal hfile').2.1]

end EditorSync.LanguageServer
