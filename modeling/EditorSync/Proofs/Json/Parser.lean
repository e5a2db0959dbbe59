import EditorSync.Json.Parser
import EditorSync.Json.Printer
import EditorSync.Proofs.Text

namespace EditorSync.Json

variable {cs rest : List Char} {n : Nat}

def pieceOf (c : Char) : Piece :=
  if c.toNat < 32 ∧ c ≠ '\n' ∧ c ≠ '\r' ∧ c ≠ '\t' ∧ c.toNat ≠ 8 ∧ c.toNat ≠ 12 then .unit c.toNat
  else .char c

theorem hexValue?_hexDigit : ∀ d < 16, hexValue? (hexDigit d) = some d := by
  decide

theorem unit?_hexDigit {c : Char} (h : c.toNat < 32) :
    unit? '0' '0' (hexDigit (c.toNat / 16)) (hexDigit (c.toNat % 16)) = some c.toNat := by
  have hzero : hexValue? '0' = some 0 := by decide
  rw [unit?, hzero, hexValue?_hexDigit _ (by omega), hexValue?_hexDigit _ (by omega)]
  have hvalue : ((0 * 16 + 0) * 16 + c.toNat / 16) * 16 + c.toNat % 16 = c.toNat := by omega
  exact congrArg some hvalue

theorem readPieces_escaped {e c : Char} (hu : e ≠ 'u') (h : escaped? e = some c)
    (rest : List Char) : readPieces ('\\' :: e :: rest) =
      (readPieces rest).map fun (pieces, rest) => (.char c :: pieces, rest) := by
  rw [readPieces.eq_4 _ _ fun _ _ _ _ _ heq _ => hu heq, h]
  cases readPieces rest <;> rfl

theorem readPieces_plain {c : Char} (hquote : c ≠ '"') (hslash : c ≠ '\\') (h : ¬c.toNat < 32)
    (rest : List Char) : readPieces (c :: rest) =
      (readPieces rest).map fun (pieces, rest) => (.char c :: pieces, rest) := by
  rw [readPieces.eq_5 c rest hquote (fun _ _ _ _ _ heq _ => hslash heq)
    (fun _ _ heq _ => hslash heq), if_neg (not_or.mpr ⟨h, hslash⟩)]
  cases readPieces rest <;> rfl

theorem readPieces_escape (c : Char) (rest : List Char) :
    readPieces (escape c ++ rest) =
      (readPieces rest).map fun (pieces, rest) => (pieceOf c :: pieces, rest) := by
  have hnamed (e : Char) (hu : e ≠ 'u') (he : escaped? e = some c)
      (hpiece : pieceOf c = .char c) : readPieces ('\\' :: e :: rest) =
        (readPieces rest).map fun (pieces, rest) => (pieceOf c :: pieces, rest) := by
    rw [hpiece, readPieces_escaped hu he]
  unfold escape
  split
  next h =>
    subst h
    exact hnamed '"' (by decide) rfl rfl
  split
  next h =>
    subst h
    exact hnamed '\\' (by decide) rfl rfl
  split
  next h =>
    subst h
    exact hnamed 'n' (by decide) rfl rfl
  split
  next h =>
    subst h
    exact hnamed 'r' (by decide) rfl rfl
  split
  next h =>
    subst h
    exact hnamed 't' (by decide) rfl rfl
  split
  next h =>
    obtain rfl : c = '\x08' := Char.toNat_inj.mp h
    exact hnamed 'b' (by decide) rfl rfl
  split
  next h =>
    obtain rfl : c = '\x0c' := Char.toNat_inj.mp h
    exact hnamed 'f' (by decide) rfl rfl
  next hquote hslash hnewline hreturn htab hback hfeed =>
    split
    next h =>
      have hpiece : pieceOf c = .unit c.toNat :=
        if_pos ⟨h, hnewline, hreturn, htab, hback, hfeed⟩
      change readPieces ('\\' :: 'u' :: '0' :: '0' :: hexDigit _ :: hexDigit _ :: rest) = _
      rw [hpiece, readPieces.eq_3, unit?_hexDigit h]
      cases readPieces rest <;> rfl
    next h =>
      have hpiece : pieceOf c = .char c := if_neg fun hc => h hc.1
      rw [hpiece]
      exact readPieces_plain hquote hslash h rest

theorem joinPieces_pieceOf (c : Char) (pieces : List Piece) :
    joinPieces (pieceOf c :: pieces) = (joinPieces pieces).map (c :: ·) := by
  unfold pieceOf
  split
  next h =>
    have hchar : Char.ofNat c.toNat = c := Char.ofNat_toNat c
    rw [joinPieces.eq_def]
    simp only [if_neg (show ¬(0xD800 ≤ c.toNat ∧ c.toNat < 0xDC00) by omega),
      if_neg (show ¬(0xDC00 ≤ c.toNat ∧ c.toNat < 0xE000) by omega), hchar]
  next => rw [joinPieces]

theorem readPieces_flatMap (cs rest : List Char) :
    readPieces (cs.flatMap escape ++ '"' :: rest) = some (cs.map pieceOf, rest) := by
  induction cs with
  | nil => rfl
  | cons c cs ih =>
    rw [List.flatMap_cons, List.append_assoc, readPieces_escape, ih]
    rfl

theorem joinPieces_map (cs : List Char) : joinPieces (cs.map pieceOf) = some cs := by
  induction cs with
  | nil => rfl
  | cons c cs ih =>
    rw [List.map_cons, joinPieces_pieceOf, ih]
    rfl

theorem quote_append (s : String) (rest : List Char) :
    quote s ++ rest = '"' :: (s.toList.flatMap escape ++ '"' :: rest) := by
  rw [quote, List.cons_append, List.append_assoc]
  rfl

theorem readString_quote (s : String) (rest : List Char) :
    readString (s.toList.flatMap escape ++ '"' :: rest) = some (some s, rest) := by
  have hread := readPieces_flatMap s.toList rest
  rw [readString, hread]
  simp only [Option.bind_eq_bind, Option.bind_some, joinPieces_map, Option.map_some,
    String.ofList_toList]
  rfl

theorem digitValue_digits (n : Nat) :
    ((Nat.toDigits 10 n).map digitValue).foldl (fun n d => n * 10 + d) 0 = n := by
  have hdigits := Nat.ofDigitChars_ten_toDigits (n := n)
  rw [Nat.ofDigitChars_eq_foldl] at hdigits
  rw [List.foldl_map]
  simpa only [digitValue, Nat.mul_comm] using hdigits

theorem head?_digits (h : 0 < n) : ((Nat.toDigits 10 n).map digitValue).head? ≠ some 0 := by
  induction n using Nat.strongRecOn with
  | ind n ih =>
    by_cases hsmall : n < 10
    · rw [Nat.toDigits_of_lt_base hsmall]
      have hvalue : digitValue n.digitChar = n := Nat.toNat_digitChar_sub_48_of_lt_ten hsmall
      simp only [List.map_cons, List.head?_cons, hvalue, ne_eq, Option.some.injEq]
      omega
    · have hne : (Nat.toDigits 10 (n / 10)).map digitValue ≠ [] := by
        simp [Nat.toDigits_ne_nil]
      have hhead := ih (n / 10) (by omega) (by omega)
      obtain ⟨d, ds, hds⟩ := List.exists_cons_of_ne_nil hne
      rw [hds] at hhead
      rw [Nat.toDigits_of_base_le (by decide) (by omega), List.map_append, hds]
      exact hhead

theorem le_foldl_digits (n : Nat) (ds : List Nat) :
    n ≤ ds.foldl (fun n d => n * 10 + d) n := by
  induction ds generalizing n with
  | nil => exact Nat.le_refl n
  | cons d ds ih => exact Nat.le_trans (by omega) (ih (n * 10 + d))

theorem absorb_eq {ds : List Nat} (h : ds.foldl (fun n d => n * 10 + d) n ≤ Number.wordMax) :
    Number.absorb n ds = (ds.foldl (fun n d => n * 10 + d) n, []) := by
  induction ds generalizing n with
  | nil => rfl
  | cons d ds ih =>
    have hle := le_foldl_digits (n * 10 + d) ds
    rw [List.foldl_cons] at h
    rw [Number.absorb, if_neg (by omega), ih h]
    rfl

def Apart (cs : List Char) : Prop :=
  ∀ c, cs.head? = some c → c.isDigit = false ∧ c ≠ '.' ∧ c ≠ 'e' ∧ c ≠ 'E'

theorem digits_append (hcs : ∀ c ∈ cs, c.isDigit = true) (hrest : Apart rest) :
    digits (cs ++ rest) = (cs.map digitValue, rest) := by
  have htake : rest.takeWhile Char.isDigit = [] := by
    cases rest with
    | nil => rfl
    | cons c rest => rw [List.takeWhile_cons_of_neg (by simp [(hrest c rfl).1])]
  have hdrop : rest.dropWhile Char.isDigit = rest := by
    cases rest with
    | nil => rfl
    | cons c rest => rw [List.dropWhile_cons_of_neg (by simp [(hrest c rfl).1])]
  rw [digits, List.takeWhile_append_of_pos hcs, List.dropWhile_append_of_pos hcs, htake, hdrop,
    List.append_nil]

theorem readFraction_of_apart (h : Apart rest) : readFraction rest = some (none, rest) := by
  cases rest with
  | nil => rfl
  | cons c rest => exact readFraction.eq_2 _ fun rest' heq => (h c rfl).2.1 (List.cons.inj heq).1

theorem readExponent_of_apart (h : Apart rest) : readExponent rest = some (none, rest) := by
  cases rest with
  | nil => rfl
  | cons c rest =>
    have hc : (c = 'e' || c = 'E') = false := by simp [(h c rfl).2.2]
    simp only [readExponent, hc]
    rfl

theorem readNumber_digits (negative : Bool) (n : Nat) (h : Apart rest) :
    readNumber negative (Nat.toDigits 10 n ++ rest) =
      some (match Number.ofDigits negative ((Nat.toDigits 10 n).map digitValue) none none with
        | some n => num n
        | none => unreadable, rest) := by
  have hdigits := digits_append (fun c hc =>
    Nat.isDigit_of_mem_toDigits (b := 10) (n := n) (by decide) (by decide) hc) h
  have hshape : ¬((Nat.toDigits 10 n).map digitValue = [] ∨
      (((Nat.toDigits 10 n).map digitValue).head? = some 0 ∧
        ((Nat.toDigits 10 n).map digitValue).length ≠ 1)) := by
    rintro (hnil | ⟨hhead, hlength⟩)
    · simp [Nat.toDigits_ne_nil] at hnil
    · rcases Nat.eq_zero_or_pos n with rfl | hpos
      · exact hlength rfl
      · exact head?_digits hpos hhead
  rw [readNumber]
  simp only [hdigits, if_neg hshape, readFraction_of_apart h, Option.bind_eq_bind,
    Option.bind_some, readExponent_of_apart h]
  rfl

theorem ofDigits_toDigits (h : n ≤ Number.wordMax) :
    Number.ofDigits false ((Nat.toDigits 10 n).map digitValue) none none = some (.int n) := by
  have habsorb := absorb_eq (n := 0) ((digitValue_digits n).symm ▸ h)
  rw [digitValue_digits] at habsorb
  simp only [Number.ofDigits, habsorb]
  rfl

theorem ofDigits_toDigits_negative (hpos : 0 < n) (h : n ≤ 0x8000000000000000) :
    Number.ofDigits true ((Nat.toDigits 10 n).map digitValue) none none =
      some (.int (-(n : Int))) := by
  have hword : n ≤ Number.wordMax := Nat.le_trans h (by decide)
  have habsorb := absorb_eq (n := 0) ((digitValue_digits n).symm ▸ hword)
  rw [digitValue_digits] at habsorb
  simp only [Number.ofDigits, habsorb]
  rw [if_neg (by simp), if_neg (by simp), if_neg (by omega)]

theorem skipSpace_cons {c : Char} (h : isSpace c = false) (cs : List Char) :
    skipSpace (c :: cs) = c :: cs := by
  rw [skipSpace, List.dropWhile_cons_of_neg (by simp [h])]

theorem not_space_of_isDigit {c : Char} (h : c.isDigit = true) : isSpace c = false := by
  rw [Bool.eq_false_iff]
  intro hspace
  simp only [isSpace, Bool.or_eq_true, decide_eq_true_eq] at hspace
  rcases hspace with ((rfl | rfl) | rfl) | rfl <;> exact absurd h (by decide)

theorem readValue_isDigit {c : Char} (h : c.isDigit = true) (fuel : Nat) (cs : List Char) :
    readValue (fuel + 1) (c :: cs) = readNumber false (c :: cs) := by
  rw [readValue, skipSpace_cons (not_space_of_isDigit h)]
  split
  case h_8 => rfl
  all_goals
    rename_i heq
    obtain ⟨rfl, -⟩ := List.cons.inj heq
    exact absurd h (by decide)

inductive Exact : Json → Prop
  | null : Exact null
  | bool (b : Bool) : Exact (bool b)
  | int {n : Int} (hlow : -0x8000000000000000 ≤ n) (hhigh : n ≤ 0xFFFFFFFFFFFFFFFF) :
    Exact (num (.int n))
  | str (s : String) : Exact (str s)
  | arr {elements : List Json} (h : ∀ j ∈ elements, Exact j) : Exact (arr elements)
  | obj {members : List (String × Json)} (h : ∀ m ∈ members, Exact m.2) : Exact (obj members)

def Returns (j : Json) : Prop :=
  ∀ fuel rest, Apart rest → (chars j).length ≤ fuel →
    readValue fuel (chars j ++ rest) = some (j, rest)

theorem chars_ofNat (n : Nat) : chars (num (.int (Int.ofNat n))) = Nat.toDigits 10 n :=
  Text.toList_toString n

theorem chars_negSucc (n : Nat) :
    chars (num (.int (Int.negSucc n))) = '-' :: Nat.toDigits 10 (n + 1) := by
  change ("-" ++ toString (n + 1)).toList = _
  rw [String.toList_append, Text.toList_toString]
  rfl

theorem toDigits_eq_cons (n : Nat) :
    ∃ c cs, Nat.toDigits 10 n = c :: cs ∧ c.isDigit = true := by
  obtain ⟨c, cs, hcs⟩ := List.exists_cons_of_ne_nil (Nat.toDigits_ne_nil (n := n) (b := 10))
  have hmem : c ∈ Nat.toDigits 10 n := hcs ▸ List.mem_cons_self
  exact ⟨c, cs, hcs, Nat.isDigit_of_mem_toDigits (by decide) (by decide) hmem⟩

theorem returns_int {i : Int} (hlow : -0x8000000000000000 ≤ i) (hhigh : i ≤ 0xFFFFFFFFFFFFFFFF) :
    Returns (num (.int i)) := by
  intro fuel rest hrest hfuel
  cases i with
  | ofNat n =>
    have hword : n ≤ Number.wordMax := Int.ofNat_le.mp hhigh
    have hread := readNumber_digits false n hrest
    obtain ⟨c, cs, hcs, hdigit⟩ := toDigits_eq_cons n
    rw [chars_ofNat, hcs, List.length_cons] at hfuel
    obtain ⟨fuel, rfl⟩ := Nat.exists_eq_add_one_of_ne_zero (show fuel ≠ 0 by omega)
    rw [ofDigits_toDigits hword, hcs] at hread
    rw [chars_ofNat, hcs]
    exact (readValue_isDigit hdigit fuel (cs ++ rest)).trans hread
  | negSucc n =>
    have hread := readNumber_digits true (n + 1) hrest
    rw [ofDigits_toDigits_negative (Nat.succ_pos n) (by omega)] at hread
    rw [chars_negSucc, List.length_cons] at hfuel
    obtain ⟨fuel, rfl⟩ := Nat.exists_eq_add_one_of_ne_zero (show fuel ≠ 0 by omega)
    rw [chars_negSucc]
    exact hread

theorem returns_str (s : String) : Returns (str s) := by
  intro fuel rest hrest hfuel
  rw [chars, quote, List.length_cons] at hfuel
  obtain ⟨fuel, rfl⟩ := Nat.exists_eq_add_one_of_ne_zero (show fuel ≠ 0 by omega)
  rw [chars, quote_append, readValue, skipSpace_cons (by decide)]
  simp only [readString_quote]
  rfl

theorem apart_cons {c : Char} (h : c = ',' ∨ c = ']' ∨ c = '\x7d') (cs : List Char) :
    Apart (c :: cs) := by
  intro d hd
  obtain rfl : c = d := Option.some.inj hd
  rcases h with rfl | rfl | rfl <;> decide

theorem apart_elementChars (js : List Json) (rest : List Char) :
    Apart (elementChars js ++ rest) := by
  cases js with
  | nil => exact apart_cons (.inr (.inl rfl)) rest
  | cons j js => exact apart_cons (.inl rfl) _

theorem apart_memberChars (members : List (String × Json)) (rest : List Char) :
    Apart (memberChars members ++ rest) := by
  cases members with
  | nil => exact apart_cons (.inr (.inr rfl)) rest
  | cons m members => exact apart_cons (.inl rfl) _

theorem readElements_elementChars {j : Json} {js : List Json}
    (hreturns : ∀ i ∈ j :: js, Returns i) (fuel : Nat)
    (hfuel : (chars j ++ elementChars js).length ≤ fuel) (rest : List Char) :
    readElements fuel (chars j ++ elementChars js ++ rest) = some (j :: js, rest) := by
  have hspace : isSpace ',' = false := rfl
  induction js generalizing j fuel with
  | nil =>
    rw [List.length_append, elementChars, List.length_singleton] at hfuel
    obtain ⟨fuel, rfl⟩ := Nat.exists_eq_add_one_of_ne_zero (show fuel ≠ 0 by omega)
    have hj := hreturns j List.mem_cons_self fuel (elementChars [] ++ rest)
      (apart_elementChars [] rest) (by omega)
    rw [readElements, List.append_assoc, hj]
    rfl
  | cons i js ih =>
    rw [List.length_append, elementChars, List.length_cons] at hfuel
    obtain ⟨fuel, rfl⟩ := Nat.exists_eq_add_one_of_ne_zero (show fuel ≠ 0 by omega)
    have hj := hreturns j List.mem_cons_self fuel (elementChars (i :: js) ++ rest)
      (apart_elementChars (i :: js) rest) (by omega)
    have hjs := ih (fun k hk => hreturns k (List.mem_cons_of_mem _ hk)) fuel (by omega)
    rw [readElements, List.append_assoc, hj, elementChars, List.cons_append]
    simp only [Option.bind_eq_bind, Option.bind_some, skipSpace_cons hspace, hjs]
    rfl

theorem readMembers_memberChars {name : String} {j : Json} {members : List (String × Json)}
    (hreturns : ∀ m ∈ (name, j) :: members, Returns m.2) (fuel : Nat)
    (hfuel : (chars j ++ memberChars members).length < fuel) (rest : List Char) :
    readMembers fuel (quote name ++ ':' :: (chars j ++ memberChars members) ++ rest) =
      some (((name, j) :: members).map fun m => (some m.1, m.2), rest) := by
  have hcolon : isSpace ':' = false := rfl
  have hcomma : isSpace ',' = false := rfl
  induction members generalizing name j fuel with
  | nil =>
    have hj : Returns j := hreturns (name, j) List.mem_cons_self
    rw [List.length_append, memberChars, List.length_singleton] at hfuel
    obtain ⟨fuel, rfl⟩ := Nat.exists_eq_add_one_of_ne_zero (show fuel ≠ 0 by omega)
    have hread := hj fuel (memberChars [] ++ rest) (apart_memberChars [] rest) (by omega)
    rw [readMembers, List.append_assoc, quote_append, skipSpace_cons (by decide)]
    simp only [Option.bind_eq_bind, Option.bind_some, readString_quote, List.cons_append,
      skipSpace_cons hcolon, List.append_assoc, hread]
    rfl
  | cons m members ih =>
    obtain ⟨name', i⟩ := m
    have hj : Returns j := hreturns (name, j) List.mem_cons_self
    rw [List.length_append, memberChars, List.length_cons, List.length_append,
      List.length_cons] at hfuel
    obtain ⟨fuel, rfl⟩ := Nat.exists_eq_add_one_of_ne_zero (show fuel ≠ 0 by omega)
    have hread := hj fuel (memberChars ((name', i) :: members) ++ rest)
      (apart_memberChars ((name', i) :: members) rest) (by omega)
    have hms := ih (fun k hk => hreturns k (List.mem_cons_of_mem _ hk)) fuel (by omega)
    rw [readMembers, List.append_assoc, quote_append, skipSpace_cons (by decide)]
    simp only [Option.bind_eq_bind, Option.bind_some, readString_quote, List.cons_append,
      skipSpace_cons hcolon, List.append_assoc, hread]
    rw [memberChars, List.cons_append, skipSpace_cons hcomma]
    simp only [hms]
    rfl

theorem Exact.chars_eq_cons {j : Json} (h : Exact j) :
    ∃ c cs, chars j = c :: cs ∧ isSpace c = false ∧ c ≠ ']' := by
  cases h with
  | null => exact ⟨'n', _, rfl, rfl, by decide⟩
  | bool b =>
    cases b with
    | false => exact ⟨'f', _, rfl, rfl, by decide⟩
    | true => exact ⟨'t', _, rfl, rfl, by decide⟩
  | @int n _ _ =>
    cases n with
    | ofNat n =>
      obtain ⟨c, cs, hcs, hdigit⟩ := toDigits_eq_cons n
      refine ⟨c, cs, (chars_ofNat n).trans hcs, not_space_of_isDigit hdigit, ?_⟩
      rintro rfl
      exact absurd hdigit (by decide)
    | negSucc n => exact ⟨'-', _, chars_negSucc n, rfl, by decide⟩
  | str s => exact ⟨'"', _, rfl, rfl, by decide⟩
  | @arr elements _ =>
    cases elements with
    | nil => exact ⟨'[', _, rfl, rfl, by decide⟩
    | cons j js => exact ⟨'[', _, rfl, rfl, by decide⟩
  | @obj members _ =>
    cases members with
    | nil => exact ⟨'\x7b', _, rfl, rfl, by decide⟩
    | cons m ms => exact ⟨'\x7b', _, rfl, rfl, by decide⟩

theorem ofMembers_map (members : List (String × Json)) :
    ofMembers (members.map fun m => (some m.1, m.2)) = obj members := by
  have hmap : (members.map fun m => (some m.1, m.2)).mapM
      (fun (m : Option String × Json) => m.1.map (·, m.2)) = some members := by
    induction members with
    | nil => rfl
    | cons m members ih =>
      rw [List.map_cons, List.mapM_cons, ih]
      rfl
  rw [ofMembers, hmap]

theorem returns_arr {elements : List Json} (hexact : ∀ j ∈ elements, Exact j)
    (hreturns : ∀ j ∈ elements, Returns j) : Returns (arr elements) := by
  intro fuel rest _ hfuel
  have hspace : isSpace '[' = false := rfl
  cases elements with
  | nil =>
    rw [chars, List.length_cons] at hfuel
    obtain ⟨fuel, rfl⟩ := Nat.exists_eq_add_one_of_ne_zero (show fuel ≠ 0 by omega)
    rfl
  | cons j js =>
    rw [chars, List.length_cons] at hfuel
    obtain ⟨fuel, rfl⟩ := Nat.exists_eq_add_one_of_ne_zero (show fuel ≠ 0 by omega)
    obtain ⟨c, cs, hcs, hc, hne⟩ := (hexact j List.mem_cons_self).chars_eq_cons
    have hread := readElements_elementChars hreturns fuel (by omega) rest
    rw [chars, List.cons_append, readValue, skipSpace_cons hspace]
    rw [hcs, List.cons_append, List.cons_append] at hread ⊢
    simp only [skipSpace_cons hc]
    split
    next heq => exact absurd (List.cons.inj heq).1 hne
    next =>
      rw [hread]
      rfl

theorem returns_obj {members : List (String × Json)} (hreturns : ∀ m ∈ members, Returns m.2) :
    Returns (obj members) := by
  intro fuel rest _ hfuel
  have hspace : isSpace '\x7b' = false := rfl
  have hquote : isSpace '"' = false := rfl
  cases members with
  | nil =>
    rw [chars, List.length_cons] at hfuel
    obtain ⟨fuel, rfl⟩ := Nat.exists_eq_add_one_of_ne_zero (show fuel ≠ 0 by omega)
    rfl
  | cons m members =>
    obtain ⟨name, j⟩ := m
    rw [chars, List.length_cons, List.length_append, List.length_cons] at hfuel
    obtain ⟨fuel, rfl⟩ := Nat.exists_eq_add_one_of_ne_zero (show fuel ≠ 0 by omega)
    have hread := readMembers_memberChars hreturns fuel (by omega) rest
    rw [chars, List.cons_append, readValue, skipSpace_cons hspace]
    rw [List.append_assoc, quote_append] at hread ⊢
    simp only [skipSpace_cons hquote]
    change ((readMembers fuel _).bind fun r => some (ofMembers r.1, r.2)) = _
    rw [hread]
    exact congrArg (fun j => some (j, rest)) (ofMembers_map _)

theorem Exact.returns {j : Json} (h : Exact j) : Returns j := by
  induction h with
  | null =>
    intro fuel rest _ hfuel
    obtain ⟨fuel, rfl⟩ := Nat.exists_eq_add_one_of_ne_zero (Nat.ne_zero_of_lt hfuel)
    rfl
  | bool b =>
    intro fuel rest _ hfuel
    cases b <;>
    · obtain ⟨fuel, rfl⟩ := Nat.exists_eq_add_one_of_ne_zero (Nat.ne_zero_of_lt hfuel)
      rfl
  | int hlow hhigh => exact returns_int hlow hhigh
  | str s => exact returns_str s
  | arr h ih => exact returns_arr h ih
  | obj _ ih => exact returns_obj ih

theorem parse?_compact {j : Json} (h : Exact j) : parse? (compact j) = some j := by
  have hread := h.returns (2 * (chars j).length + 1) [] (fun _ hc => nomatch hc) (by omega)
  rw [List.append_nil] at hread
  rw [parse?, compact, String.toList_ofList, String.length_ofList, hread]
  rfl

end EditorSync.Json
