import Wireform.Proofs.Json.Decidable
import Wireform.Proofs.Json.Numbers

/-!
# Compact text reads back

Every value is read from its compact text, if no more arrays and objects nest in it than may be
read. Names of members may be repeated; reading keeps all of them. What is read differs from the
value in its doubles at most.

* `Json.depth`: how deep arrays and objects nest.
* `Json.readString_escaped`: strings.
* `Json.reread?`: the value as which the text of a value is read.
* `Json.readValue?_chars`: all values.
* `Json.Exact`: the value itself is read, so all its numbers read back.
* `Json.readsBack_iff`: a value reads back if it is read exactly and no name is repeated in it.
-/

namespace Wireform.Json

/-! ### Strings -/

theorem hexDigitValue?_hexDigit {n : Nat} (hn : n < 16) :
    Text.hexDigitValue? (hexDigit n) = some n := by
  have hall : ∀ k : Fin 16, Text.hexDigitValue? (hexDigit k.val) = some k.val := by decide
  exact hall ⟨n, hn⟩

/-- The four digits of a control character. -/
theorem readHex4_control {n : Nat} (hn : n < 256) (rest : List Char) :
    readHex4 ('0' :: '0' :: hexDigit (n / 16) :: hexDigit (n % 16) :: rest) = .ok (n, rest) := by
  have hbytes :
      hasFourBytes ('0' :: '0' :: hexDigit (n / 16) :: hexDigit (n % 16) :: rest) = true := by
    have hhigh := (hexDigit (n / 16)).utf8Size_pos
    have hlow := (hexDigit (n % 16)).utf8Size_pos
    have hzero : '0'.utf8Size = 1 := rfl
    simp only [hasFourBytes, List.take_succ_cons, List.take_zero, List.foldl_cons,
      List.foldl_nil, hzero, decide_eq_true_eq]
    omega
  have hdigits : ['0', '0', hexDigit (n / 16), hexDigit (n % 16)].mapM Text.hexDigitValue? =
      some [0, 0, n / 16, n % 16] := by
    have hzero : Text.hexDigitValue? '0' = some 0 := rfl
    rw [List.mapM_cons, List.mapM_cons, List.mapM_cons, List.mapM_cons, hzero,
      hexDigitValue?_hexDigit (by omega), hexDigitValue?_hexDigit (by omega)]
    rfl
  simp only [readHex4, hbytes, if_true, hdigits, List.foldl_cons, List.foldl_nil]
  congr 2
  omega

theorem readEscape_control {c : Char} (hc : c.toNat < 32) (rest : List Char) :
    readEscape ('u' :: '0' :: '0' :: hexDigit (c.toNat / 16) :: hexDigit (c.toNat % 16) :: rest) =
      .ok (c, rest) := by
  have hleading : Text.isLeading c.toNat = false := by
    rw [Text.isLeading, Bool.and_eq_false_iff, decide_eq_false_iff_not]
    exact Or.inl (by omega)
  have htrailing : Text.isTrailing c.toNat = false := by
    rw [Text.isTrailing, Bool.and_eq_false_iff, decide_eq_false_iff_not]
    exact Or.inl (by omega)
  have hhex := readHex4_control (show c.toNat < 256 by omega) rest
  simp only [readEscape, hhex, bind, Except.bind, htrailing, hleading, Char.ofNat_toNat]
  rfl

/-- One character of a string. -/
theorem readStringBody_escaped (bound : Nat) (c : Char) (rest : List Char) :
    readStringBody (bound + 1) (escapedChar c ++ rest) = (do
      let (body, rest) ← readStringBody bound rest
      return (c :: body, rest)) := by
  unfold escapedChar
  split
  iterate 7 · rfl
  next hquote hbackslash _ _ _ _ _ =>
  split
  · next hc =>
    simp only [List.cons_append, List.nil_append, readStringBody, readEscape_control hc]
    rfl
  · next hc =>
    change readStringBody (bound + 1) (c :: rest) = _
    rw [readStringBody, if_neg hc]
    · exact hquote
    · exact hbackslash

/-- The text of a string up to the quote that closes it. -/
theorem readStringBody_chars (s rest : List Char) {bound : Nat} (hbound : s.length < bound) :
    readStringBody bound (s.flatMap escapedChar ++ '"' :: rest) = .ok (s, rest) := by
  induction s generalizing bound with
  | nil =>
    obtain ⟨bound, rfl⟩ := Nat.exists_eq_succ_of_ne_zero (Nat.ne_of_gt hbound)
    rfl
  | cons c s ih =>
    obtain ⟨bound, rfl⟩ := Nat.exists_eq_succ_of_ne_zero (Nat.ne_of_gt (Nat.zero_lt_of_lt hbound))
    rw [List.flatMap_cons, List.append_assoc, readStringBody_escaped,
      ih (Nat.lt_of_succ_lt_succ hbound)]
    rfl

theorem length_le_escaped (s : List Char) : s.length ≤ (s.flatMap escapedChar).length := by
  induction s with
  | nil => exact Nat.le_refl _
  | cons c s ih =>
    have hpos : 0 < (escapedChar c).length := by
      unfold escapedChar
      split
      iterate 7 · decide
      split <;> exact Nat.zero_lt_succ _
    rw [List.flatMap_cons, List.length_append, List.length_cons]
    omega

/-- **A string is read back.** -/
theorem readString_escaped (text : String) (rest : List Char) :
    readString (text.toList.flatMap escapedChar ++ '"' :: rest) = .ok (text, rest) := by
  have hbound : text.toList.length < (text.toList.flatMap escapedChar ++ '"' :: rest).length := by
    have := length_le_escaped text.toList
    rw [List.length_append, List.length_cons]
    omega
  rw [readString, readStringBody_chars _ _ hbound]
  exact congrArg (fun text => Except.ok (text, rest)) String.ofList_toList

/-! ### Values -/

mutual

/-- How deep arrays and objects nest. -/
def depth : Json → Nat
  | .array items => depthOfItems items + 1
  | .object members => depthOfMembers members + 1
  | _ => 0

/-- How deep they nest in some values. -/
def depthOfItems : List Json → Nat
  | [] => 0
  | item :: rest => max item.depth (depthOfItems rest)

/-- How deep they nest in the values of some members. -/
def depthOfMembers : List (String × Json) → Nat
  | [] => 0
  | (_, value) :: rest => max value.depth (depthOfMembers rest)

end

/-- A text that begins with neither white space nor a closing bracket. -/
def Starts (text : List Char) : Prop := ∃ c rest, text = c :: rest ∧ isSpace c = false ∧ c ≠ ']'

/-- The digits before the point begin with one. -/
theorem starts_of_readWhole? {s : List Char} {found : List Char × List Char}
    (h : readWhole? s = some found) :
    ∃ c rest, s = c :: rest ∧ c.isDigit = true := by
  cases s with
  | nil => cases h
  | cons c rest =>
    refine ⟨c, rest, rfl, ?_⟩
    by_contra hdigit
    have htake : takeDigits ([] ++ c :: rest) = ([], c :: rest) :=
      takeDigits_append (fun _ hmem => absurd hmem List.not_mem_nil) fun other hother =>
        Option.some.inj hother ▸ Bool.eq_false_iff.2 hdigit
    rw [readWhole?, ← List.nil_append (c :: rest), htake] at h
    cases h

/-- A number begins with a digit or a sign. -/
theorem starts_number (n : Number) :
    ∃ c rest, n.chars = c :: rest ∧ (c = '-' ∨ c.isDigit = true) := by
  obtain ⟨negative, text, whole, fraction, exponent, hchars, htext⟩ := exists_spells n
  obtain ⟨_, _, hwhole, -⟩ := htext [] nofun
  rw [List.append_nil] at hwhole
  obtain ⟨c, rest, rfl, hc⟩ := starts_of_readWhole? hwhole
  rw [hchars]
  cases negative with
  | true => exact ⟨'-', _, rfl, Or.inl rfl⟩
  | false => exact ⟨c, rest, rfl, Or.inr hc⟩

theorem starts_chars (value : Json) : Starts value.chars := by
  cases value with
  | null => exact ⟨_, _, rfl, rfl, by decide⟩
  | bool b => cases b <;> exact ⟨_, _, rfl, rfl, by decide⟩
  | number n =>
    obtain ⟨c, rest, hcons, hc⟩ := starts_number n
    refine ⟨c, rest, hcons, ?_⟩
    rcases hc with rfl | hdigit
    · exact ⟨rfl, by decide⟩
    · refine ⟨Bool.eq_false_iff.2 fun hspace => ?_, ?_⟩
      · simp only [isSpace, Bool.or_eq_true, decide_eq_true_eq] at hspace
        rcases hspace with ((rfl | rfl) | rfl) | rfl <;> exact absurd hdigit (by decide)
      · rintro rfl
        exact absurd hdigit (by decide)
  | string | array | object => exact ⟨_, _, rfl, rfl, by decide⟩

theorem skipSpaces_of_starts {text : List Char} (h : Starts text) (rest : List Char) :
    skipSpaces (text ++ rest) = text ++ rest := by
  obtain ⟨c, more, rfl, hspace, -⟩ := h
  exact List.dropWhile_cons_of_neg (Bool.eq_false_iff.1 hspace)

/-- What begins like a number is read as one. -/
theorem readWith?_number (item : Option ValueReader) (n : Number) {rest : List Char}
    (hrest : Closes rest) :
    readWith? item (n.chars ++ rest) = n.reread?.map fun m => (.number m, rest) := by
  have hread := readNumber?_chars n hrest
  obtain ⟨c, more, hcons, hc⟩ := starts_number n
  rw [hcons] at hread ⊢
  have hother : ∀ other, other ≠ '-' → other.isDigit = false → c ≠ other := by
    rintro other hsign hdigit rfl
    rcases hc with heq | hc
    · exact hsign heq
    · rw [hdigit] at hc
      cases hc
  unfold readWith?
  split
  iterate 6
    next heq => exact absurd (List.cons.inj heq).1 (hother _ (by decide) (by decide))
  rw [hread, Option.map_map]
  rfl

theorem readWith?_string (item : Option ValueReader) (text : String) (rest : List Char) :
    readWith? item (stringChars text ++ rest) = some (.string text, rest) := by
  have hform : stringChars text ++ rest =
      '"' :: (text.toList.flatMap escapedChar ++ '"' :: rest) := by
    rw [stringChars, List.cons_append, List.cons_append, List.append_assoc]
    rfl
  rw [hform]
  simp only [readWith?, readString_escaped]

/-- An array with items. -/
theorem readWith?_array {item : ValueReader} {text rest : List Char} (h : Starts text) :
    readWith? (some item) ('[' :: (text ++ rest)) =
      (readItems? item (text ++ rest).length (text ++ rest)).map
        fun (items, rest) => (.array items, rest) := by
  have hskip := skipSpaces_of_starts h rest
  obtain ⟨c, more, rfl, -, hc⟩ := h
  simp only [readWith?, Option.bind_eq_bind, Option.bind_some, hskip]
  split
  · next heq => exact absurd (List.cons.inj heq).1 hc
  · cases readItems? item (c :: more ++ rest).length (c :: more ++ rest) <;> rfl

/-- An object with members. -/
theorem readWith?_object (item : ValueReader) (text : List Char) :
    readWith? (some item) ('\x7b' :: '"' :: text) =
      (readMembers? item ('"' :: text).length ('"' :: text)).map
        fun (members, rest) => (.object members, rest) := by
  have hskip : skipSpaces ('"' :: text) = '"' :: text := rfl
  simp only [readWith?, Option.bind_eq_bind, Option.bind_some, hskip]
  cases readMembers? item ('"' :: text).length ('"' :: text) <;> rfl

/-- A member and what follows it. -/
theorem readMembers?_member (item : ValueReader) (bound : Nat) (name : String) {text : List Char}
    (hskip : skipSpaces text = text) :
    readMembers? item (bound + 1) (stringChars name ++ ':' :: text) =
      (item text).bind fun (value, after) =>
      match skipSpaces after with
      | ',' :: rest => do
        let (members, rest) ← readMembers? item bound rest
        return ((name, value) :: members, rest)
      | '\x7d' :: rest => some ([(name, value)], rest)
      | _ => none := by
  have hform : stringChars name ++ ':' :: text =
      '"' :: (name.toList.flatMap escapedChar ++ '"' :: ':' :: text) := by
    rw [stringChars, List.cons_append, List.cons_append, List.append_assoc]
    rfl
  have hquote : ∀ more, skipSpaces ('"' :: more) = '"' :: more := fun _ => rfl
  have hcolon : skipSpaces (':' :: text) = ':' :: text := rfl
  rw [hform, readMembers?, hquote]
  simp only [readString_escaped, Except.toOption, Option.bind_eq_bind,
    Option.bind_some, hcolon, hskip]
  rfl

theorem starts_items (item : Json) (more : List Json) : Starts (itemsChars (item :: more)) := by
  obtain ⟨c, rest, hcons, hc⟩ := starts_chars item
  cases more with
  | nil => exact ⟨c, rest, hcons, hc⟩
  | cons next more => exact ⟨c, _, by rw [itemsChars, hcons]; rfl, hc⟩

theorem length_le_items (items : List Json) : items.length ≤ (itemsChars items).length := by
  induction items with
  | nil => exact Nat.le_refl _
  | cons item more ih =>
    obtain ⟨c, rest, hcons, -⟩ := starts_chars item
    cases more with
    | nil =>
      rw [itemsChars, hcons]
      exact Nat.succ_le_succ (Nat.zero_le _)
    | cons next more =>
      simp only [itemsChars, List.length_append, List.length_cons] at ih ⊢
      omega

theorem length_le_members (members : List (String × Json)) :
    members.length ≤ (membersChars members).length := by
  induction members with
  | nil => exact Nat.le_refl _
  | cons member more ih =>
    obtain ⟨name, value⟩ := member
    cases more with
    | nil =>
      simp only [membersChars, List.length_append, List.length_cons, List.length_nil]
      omega
    | cons next more =>
      simp only [membersChars, List.length_append, List.length_cons] at ih ⊢
      omega

theorem closes_cons {c : Char} (hc : c = ',' ∨ c = ']' ∨ c = '\x7d') (rest : List Char) :
    Closes (c :: rest) :=
  fun _ hother => Option.some.inj hother ▸ hc

mutual

/-- The value as which the text of a value is read; none if a number in it is too great for a
double. -/
def reread? : Json → Option Json
  | .null => some .null
  | .bool b => some (.bool b)
  | .number n => n.reread?.map .number
  | .string text => some (.string text)
  | .array items => (rereadItems? items).map .array
  | .object members => (rereadMembers? members).map .object

/-- For some values. -/
def rereadItems? : List Json → Option (List Json)
  | [] => some []
  | item :: rest => do
    let item ← item.reread?
    return item :: (← rereadItems? rest)

/-- For the values of some members. -/
def rereadMembers? : List (String × Json) → Option (List (String × Json))
  | [] => some []
  | (name, value) :: rest => do
    let value ← value.reread?
    return (name, value) :: (← rereadMembers? rest)

end

mutual

/-- **A value is read to its end** from its compact text, unless it nests too deep. -/
theorem readValue?_chars : ∀ (value : Json) (levels : Nat) {rest : List Char}, Closes rest →
    readValue? levels (value.chars ++ rest) =
      if value.depth ≤ levels then value.reread?.map (·, rest) else none
  | .null, levels, rest, _ => by cases levels <;> rfl
  | .bool b, levels, rest, _ => by cases b <;> cases levels <;> rfl
  | .number n, levels, rest, hrest => by
    have hdepth : (number n).depth ≤ levels := Nat.zero_le levels
    rw [if_pos hdepth, reread?, Option.map_map]
    cases levels <;> exact readWith?_number _ n hrest
  | .string text, levels, rest, _ => by
    have hdepth : (string text).depth ≤ levels := Nat.zero_le levels
    rw [if_pos hdepth]
    cases levels <;> exact readWith?_string _ text rest
  | .array items, 0, rest, _ => by
    have hdepth : ¬(array items).depth ≤ 0 := Nat.not_succ_le_zero _
    rw [if_neg hdepth]
    rfl
  | .array [], levels + 1, rest, _ => (if_pos (Nat.le_add_left 1 levels)).symm
  | .array (item :: more), levels + 1, rest, _ => by
    have hform : (Json.array (item :: more)).chars ++ rest =
        '[' :: (itemsChars (item :: more) ++ ']' :: rest) := by
      rw [chars, List.cons_append, List.cons_append, List.append_assoc]
      rfl
    have hbound : (item :: more).length ≤ (itemsChars (item :: more) ++ ']' :: rest).length :=
      Nat.le_trans (length_le_items _) (by rw [List.length_append]; exact Nat.le_add_right _ _)
    rw [hform, readValue?, readWith?_array (starts_items item more),
      readItems?_chars (item :: more) levels rest (List.cons_ne_nil _ _) hbound, depth, reread?]
    simp only [Nat.add_le_add_iff_right]
    split
    · rw [Option.map_map, Option.map_map]
      rfl
    · rfl
  | .object members, 0, rest, _ => by
    have hdepth : ¬(object members).depth ≤ 0 := Nat.not_succ_le_zero _
    rw [if_neg hdepth]
    rfl
  | .object [], levels + 1, rest, _ => (if_pos (Nat.le_add_left 1 levels)).symm
  | .object ((name, value) :: more), levels + 1, rest, _ => by
    have hform : (Json.object ((name, value) :: more)).chars ++ rest =
        '\x7b' :: (membersChars ((name, value) :: more) ++ '\x7d' :: rest) := by
      rw [chars, List.cons_append, List.cons_append, List.append_assoc]
      rfl
    have hbound : ((name, value) :: more).length ≤
        (membersChars ((name, value) :: more) ++ '\x7d' :: rest).length :=
      Nat.le_trans (length_le_members _) (by rw [List.length_append]; exact Nat.le_add_right _ _)
    have hmembers :=
      readMembers?_chars ((name, value) :: more) levels rest (List.cons_ne_nil _ _) hbound
    obtain ⟨text, htext⟩ : ∃ text, membersChars ((name, value) :: more) ++ '\x7d' :: rest =
      '"' :: text := by
      cases more <;> exact ⟨_, rfl⟩
    rw [htext] at hmembers
    rw [hform, htext, readValue?, readWith?_object, hmembers, depth, reread?]
    simp only [Nat.add_le_add_iff_right]
    split
    · rw [Option.map_map, Option.map_map]
      rfl
    · rfl

/-- The items of an array. -/
theorem readItems?_chars :
    ∀ (items : List Json) (levels : Nat) (rest : List Char) {bound : Nat}, items ≠ [] →
    items.length ≤ bound → readItems? (readValue? levels) bound (itemsChars items ++ ']' :: rest) =
      if depthOfItems items ≤ levels then (rereadItems? items).map (·, rest) else none
  | [], _, _, _, hne, _ => absurd rfl hne
  | _ :: _, _, _, 0, _, hbound => absurd hbound (Nat.not_succ_le_zero _)
  | [item], levels, rest, bound + 1, _, hbound => by
    have hitem := readValue?_chars item levels (closes_cons (Or.inr (Or.inl rfl)) rest)
    rw [itemsChars, readItems?, skipSpaces_of_starts (starts_chars item), hitem,
      rereadItems?, depthOfItems, depthOfItems, Nat.max_zero]
    split
    · cases item.reread? <;> rfl
    · rfl
  | item :: next :: more, levels, rest, bound + 1, _, hbound => by
    have hitem := readValue?_chars item levels
      (closes_cons (Or.inl rfl) (itemsChars (next :: more) ++ ']' :: rest))
    have hmore := readItems?_chars (next :: more) levels rest (List.cons_ne_nil _ _)
      (Nat.le_of_succ_le_succ hbound)
    rw [itemsChars, List.append_assoc, List.cons_append, readItems?,
      skipSpaces_of_starts (starts_chars item), hitem, rereadItems?, depthOfItems]
    simp only [Nat.max_le]
    by_cases hfirst : item.depth ≤ levels
    · simp only [hfirst, if_true, true_and]
      cases item.reread? with
      | none => split <;> rfl
      | some value =>
        change (do
          let (values, rest) ← readItems? (readValue? levels) bound
            (itemsChars (next :: more) ++ ']' :: rest)
          return (value :: values, rest)) = _
        rw [hmore]
        split
        · cases rereadItems? (next :: more) <;> rfl
        · rfl
    · simp only [hfirst, if_false, false_and]
      rfl

/-- The members of an object. -/
theorem readMembers?_chars :
    ∀ (members : List (String × Json)) (levels : Nat) (rest : List Char) {bound : Nat},
    members ≠ [] → members.length ≤ bound →
    readMembers? (readValue? levels) bound (membersChars members ++ '\x7d' :: rest) =
      if depthOfMembers members ≤ levels then (rereadMembers? members).map (·, rest) else none
  | [], _, _, _, hne, _ => absurd rfl hne
  | _ :: _, _, _, 0, _, hbound => absurd hbound (Nat.not_succ_le_zero _)
  | [(name, value)], levels, rest, bound + 1, _, hbound => by
    have hvalue := readValue?_chars value levels (closes_cons (Or.inr (Or.inr rfl)) rest)
    rw [membersChars, List.append_assoc, List.cons_append,
      readMembers?_member _ bound name (skipSpaces_of_starts (starts_chars value) _),
      hvalue, rereadMembers?, depthOfMembers, depthOfMembers, Nat.max_zero]
    split
    · cases value.reread? <;> rfl
    · rfl
  | (name, value) :: next :: more, levels, rest, bound + 1, _, hbound => by
    have hvalue := readValue?_chars value levels
      (closes_cons (Or.inl rfl) (membersChars (next :: more) ++ '\x7d' :: rest))
    have hmore := readMembers?_chars (next :: more) levels rest (List.cons_ne_nil _ _)
      (Nat.le_of_succ_le_succ hbound)
    rw [membersChars, List.append_assoc, List.append_assoc, List.cons_append, List.cons_append,
      readMembers?_member _ bound name (skipSpaces_of_starts (starts_chars value) _),
      hvalue, rereadMembers?, depthOfMembers]
    simp only [Nat.max_le]
    by_cases hfirst : value.depth ≤ levels
    · simp only [hfirst, if_true, true_and]
      cases value.reread? with
      | none => split <;> rfl
      | some found =>
        change (do
          let (members, rest) ← readMembers? (readValue? levels) bound
            (membersChars (next :: more) ++ '\x7d' :: rest)
          return ((name, found) :: members, rest)) = _
        rw [hmore]
        split
        · cases rereadMembers? (next :: more) <;> rfl
        · rfl
    · simp only [hfirst, if_false, false_and]
      rfl

end

/-- **A document is read to its end** from its compact text, unless it nests too deep. -/
theorem readDocument?_chars (value : Json) : readDocument? value.chars =
    if value.depth ≤ maxDepth then value.reread?.map (·, []) else none := by
  have hskip := skipSpaces_of_starts (starts_chars value) []
  have hread := readValue?_chars value maxDepth (show Closes [] from nofun)
  rw [List.append_nil] at hskip hread
  rw [readDocument?, hskip, hread]

/-- The text of a value is read as that value, so its numbers read back. -/
def Exact (value : Json) : Prop := value.reread? = some value

theorem rereadItems?_eq_self {items : List Json} :
    rereadItems? items = some items ↔ ∀ item ∈ items, item.Exact := by
  induction items with
  | nil => exact iff_of_true rfl nofun
  | cons item rest ih =>
    rw [List.forall_mem_cons, ← ih, rereadItems?, Exact]
    cases item.reread? <;> cases rereadItems? rest <;> simp

theorem rereadMembers?_eq_self {members : List (String × Json)} :
    rereadMembers? members = some members ↔ ∀ member ∈ members, member.2.Exact := by
  induction members with
  | nil => exact iff_of_true rfl nofun
  | cons member rest ih =>
    obtain ⟨name, value⟩ := member
    rw [List.forall_mem_cons, ← ih, rereadMembers?, Exact]
    cases value.reread? <;> cases rereadMembers? rest <;> simp

theorem exact_array {items : List Json} : (array items).Exact ↔ ∀ item ∈ items, item.Exact := by
  rw [Exact, reread?, ← rereadItems?_eq_self]
  simp

theorem exact_object {members : List (String × Json)} :
    (object members).Exact ↔ ∀ member ∈ members, member.2.Exact := by
  rw [Exact, reread?, ← rereadMembers?_eq_self]
  simp

/-! ### Repeated names -/

/-- Members whose values have no repeated names keep their values. -/
theorem collapseMembers_eq_self {members : List (String × Json)}
    (h : ∀ name value, (name, value) ∈ members → value.collapse = value) :
    collapseMembers members = members := by
  induction members with
  | nil => rfl
  | cons member rest ih =>
    obtain ⟨name, value⟩ := member
    rw [collapseMembers, h name value List.mem_cons_self,
      ih fun name value hmem => h name value (List.mem_cons_of_mem _ hmem)]

mutual

/-- What has collapsed does not collapse further. -/
theorem collapse_collapse : ∀ value : Json, value.collapse.collapse = value.collapse
  | .null | .bool _ | .number _ | .string _ => rfl
  | .array items => congrArg Json.array (collapseItems_collapseItems items)
  | .object members => by
    have hvalues : ∀ name value, (name, value) ∈ Assoc.collapse (collapseMembers members) →
        value.collapse = value :=
      fun _ _ hmem => collapse_of_mem members
        ((Assoc.mem_putAll hmem).resolve_left List.not_mem_nil)
    have hnodup := Assoc.nodup_keys_collapse (collapseMembers members)
    rw [collapse, collapse, collapseMembers_eq_self hvalues, Assoc.collapse_of_nodup hnodup]

/-- In some values. -/
theorem collapseItems_collapseItems :
    ∀ items : List Json, collapseItems (collapseItems items) = collapseItems items
  | [] => rfl
  | item :: rest => by
    rw [collapseItems, collapseItems, collapse_collapse item, collapseItems_collapseItems rest]

/-- In the values of members. -/
theorem collapse_of_mem : ∀ (members : List (String × Json)) {name : String} {value : Json},
    (name, value) ∈ collapseMembers members → value.collapse = value
  | [], _, _, hmem => absurd hmem List.not_mem_nil
  | (_, first) :: rest, _, _, hmem => by
    rcases List.mem_cons.1 hmem with heq | hrest
    · obtain ⟨-, rfl⟩ := Prod.mk.inj heq
      exact collapse_collapse first
    · exact collapse_of_mem rest hrest

end

/-- An object in which no name is repeated, at any depth. -/
theorem of_collapse_object {members : Assoc Json}
    (h : (Json.object members).collapse = .object members) :
    members.keys.Nodup ∧ ∀ member ∈ members, member.2.collapse = member.2 := by
  have hmembers := object.inj h
  rw [← hmembers]
  exact ⟨Assoc.nodup_keys_collapse _,
    fun _ hmem => collapse_of_mem members ((Assoc.mem_putAll hmem).resolve_left List.not_mem_nil)⟩

mutual

/-- What is read has the names of the value, so none is repeated in it if none is in the value. -/
theorem collapse_of_reread : ∀ {value read : Json}, value.collapse = value →
    value.reread? = some read → read.collapse = read
  | .null, _, _, hread | .bool _, _, _, hread | .string _, _, _, hread => by
    obtain rfl := Option.some.inj hread
    rfl
  | .number _, _, _, hread => by
    obtain ⟨_, -, rfl⟩ := Option.map_eq_some_iff.1 hread
    rfl
  | .array _, _, h, hread => by
    obtain ⟨_, hitems, rfl⟩ := Option.map_eq_some_iff.1 hread
    exact congrArg Json.array (collapseItems_of_reread (array.inj h) hitems)
  | .object _, _, h, hread => by
    obtain ⟨_, hmembers, rfl⟩ := Option.map_eq_some_iff.1 hread
    obtain ⟨hnodup, hvalues⟩ := of_collapse_object h
    obtain ⟨hkeys, hself⟩ := collapseMembers_of_reread hvalues hmembers
    rw [collapse, hself, Assoc.collapse_of_nodup (hkeys ▸ hnodup)]

/-- For some values. -/
theorem collapseItems_of_reread : ∀ {items read : List Json}, collapseItems items = items →
    rereadItems? items = some read → collapseItems read = read
  | [], _, _, hread => by
    obtain rfl := Option.some.inj hread
    rfl
  | _ :: _, _, h, hread => by
    obtain ⟨_, hitem, hread⟩ := Option.bind_eq_some_iff.1 hread
    obtain ⟨_, hrest, hread⟩ := Option.bind_eq_some_iff.1 hread
    obtain rfl := Option.some.inj hread
    obtain ⟨hfirst, hmore⟩ := List.cons.inj h
    rw [collapseItems, collapse_of_reread hfirst hitem, collapseItems_of_reread hmore hrest]

/-- For the values of members. -/
theorem collapseMembers_of_reread : ∀ {members read : List (String × Json)},
    (∀ member ∈ members, member.2.collapse = member.2) → rereadMembers? members = some read →
      Assoc.keys read = Assoc.keys members ∧ collapseMembers read = read
  | [], _, _, hread => by
    obtain rfl := Option.some.inj hread
    exact ⟨rfl, rfl⟩
  | (name, value) :: _, _, h, hread => by
    obtain ⟨_, hvalue, hread⟩ := Option.bind_eq_some_iff.1 hread
    obtain ⟨_, hrest, hread⟩ := Option.bind_eq_some_iff.1 hread
    obtain rfl := Option.some.inj hread
    obtain ⟨hkeys, hself⟩ :=
      collapseMembers_of_reread (fun _ hmem => h _ (List.mem_cons_of_mem _ hmem)) hrest
    refine ⟨congrArg (name :: ·) hkeys, ?_⟩
    rw [collapseMembers, collapse_of_reread (h (name, value) List.mem_cons_self) hvalue, hself]

end

/-- What is parsed is what is read, with repeated names collapsed. -/
theorem parse?_text (value : Json) : parse? value.text =
    if value.depth ≤ maxDepth then value.reread?.map collapse else none := by
  rw [parse?, parseRaw?, text, String.toList_ofList, readDocument?_chars]
  by_cases hdepth : value.depth ≤ maxDepth
  · rw [if_pos hdepth, if_pos hdepth]
    cases value.reread? <;> rfl
  · rw [if_neg hdepth, if_neg hdepth]
    rfl

/-- The text of a value is parsed as that value. -/
def ReadsBack (value : Json) : Prop := parse? value.text = some value

instance (value : Json) : Decidable value.ReadsBack :=
  inferInstanceAs (Decidable (parse? value.text = some value))

/-- **A value reads back** if it does not nest too deep, its numbers read back and it
has no repeated names. -/
theorem readsBack_iff {value : Json} :
    value.ReadsBack ↔ value.depth ≤ maxDepth ∧ value.Exact ∧ value.collapse = value := by
  rw [ReadsBack, parse?_text]
  constructor
  · intro h
    split at h
    · next hdepth =>
      obtain ⟨read, hread, heq⟩ := Option.map_eq_some_iff.1 h
      have hself : value.collapse = value := heq ▸ collapse_collapse read
      obtain rfl : read = value := (collapse_of_reread hself hread).symm.trans heq
      exact ⟨hdepth, hread, hself⟩
    · cases h
  · rintro ⟨hdepth, hread, hself⟩
    rw [if_pos hdepth, show value.reread? = some value from hread, Option.map_some, hself]

end Wireform.Json
