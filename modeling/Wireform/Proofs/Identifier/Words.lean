import Wireform.Proofs.Identifier.Numbers
import Wireform.Proofs.Identifier.Script
import Wireform.Proofs.Identifier.Settled
import Wireform.Proofs.Json.RoundTrip

/-!
# Names, constants and operators in texts

A name goes as far as its characters do, a number as far as the next mark that may follow an
argument, a string as far as its closing quote. Which of them a text is shows at its beginning, but
for the words that are written for numbers that are not finite.

* `name_unique`, `number_unique`, `string_unique`, `operator_unique`: where each of them ends.
* `leadOf`: what a text begins with.
-/

namespace Wireform

open Lexeme (startsWord continuesWord)

/-! ### Names -/

theorem EndsSegment.not_word {rest : List Char} (h : EndsSegment rest) :
    ∀ c ∈ rest.head?, continuesWord c = false := by
  intro c hc
  have hall : ('.' :: closers).all (fun c => !continuesWord c) = true := by decide
  simpa using List.all_eq_true.1 hall c (h c hc)

theorem continuesWord_of_isName {name : String} (h : isName name = true) :
    ∀ c ∈ name.toList, continuesWord c = true := by
  unfold isName at h
  intro c hc
  split at h
  · cases h
  · next first more hname =>
    rw [hname] at hc
    rw [Bool.and_eq_true, List.all_eq_true] at h
    rcases List.mem_cons.1 hc with rfl | hc
    · obtain ⟨hstart, -⟩ := h
      rw [startsWord, Bool.or_eq_true] at hstart
      rw [continuesWord, Char.isAlphanum, Bool.or_eq_true, Bool.or_eq_true]
      exact hstart.imp Or.inl id
    · exact h.2 c hc

theorem exists_of_isName {name : String} (h : isName name = true) :
    ∃ c more, name.toList = c :: more ∧ startsWord c = true := by
  unfold isName at h
  split at h
  · cases h
  · next first more hname =>
    rw [Bool.and_eq_true] at h
    exact ⟨first, more, hname, h.1⟩

/-- **A name** goes as far as the next character of another kind. -/
theorem name_unique {name name' : String} {rest rest' : List Char} (hname : isName name = true)
    (hname' : isName name' = true) (hrest : ∀ c ∈ rest.head?, continuesWord c = false)
    (hrest' : ∀ c ∈ rest'.head?, continuesWord c = false)
    (h : name.toList ++ rest = name'.toList ++ rest') :
    name = name' ∧ rest = rest' := by
  obtain ⟨hsame, hrests⟩ :=
    run_unique continuesWord (continuesWord_of_isName hname) (continuesWord_of_isName hname')
    hrest hrest' h
  exact ⟨String.toList_inj.1 hsame, hrests⟩

/-! ### Constants -/

theorem isInner_of_isDigit {c : Char} (h : c.isDigit = true) : isInner c = true := by
  refine decide_eq_true fun hc => ?_
  have hall : closers.all (fun c => !c.isDigit) = true := by decide
  have hnot := List.all_eq_true.1 hall c hc
  rw [h] at hnot
  cases hnot

theorem isInner_number {x : Binary64} {text : List Char} (h : NumberText x text) :
    ∀ c ∈ text, isInner c = true := by
  have hsigned : ∀ (negative : Bool) (body : List Char), (∀ c ∈ body, isInner c = true) →
      ∀ c ∈ signed negative body, isInner c = true := by
    intro negative body hbody c hc
    rcases List.mem_append.1 hc with hc | hc
    · cases negative with
      | true =>
        obtain rfl := List.mem_singleton.1 hc
        decide
      | false => cases hc
    · exact hbody c hc
  cases h with
  | nan => exact List.all_eq_true.1 rfl
  | infinite negative => exact hsigned negative _ (List.all_eq_true.1 rfl)
  | digits negative hwhole hne hfraction =>
    refine hsigned negative _ fun c hc => ?_
    rcases List.mem_append.1 hc with hc | hc
    · exact isInner_of_isDigit (hwhole c hc)
    · split at hc
      · cases hc
      · rcases List.mem_cons.1 hc with rfl | hc
        · decide
        · exact isInner_of_isDigit (hfraction c hc)

/-- **A number is told by its text.** -/
theorem number_unique {x y : Binary64} {rest rest' : List Char} (hrest : EndsPart rest)
    (hrest' : EndsPart rest')
    (h : (Constant.number x).chars ++ rest = (Constant.number y).chars ++ rest') :
    x.settled = y.settled ∧ rest = rest' := by
  obtain ⟨htext, hsame⟩ :=
    inner_unique (isInner_number (numberText x)) (isInner_number (numberText y)) hrest hrest' h
  exact ⟨settled_of_chars htext, hsame⟩

/-- **A string is told by its text**, whatever follows. -/
theorem string_unique {s t : String} {rest rest' : List Char}
    (h : (Constant.string s).chars ++ rest = (Constant.string t).chars ++ rest') :
    s = t ∧ rest = rest' := by
  have hbody : ∀ (s : String) (rest : List Char),
      (Constant.string s).chars ++ rest =
        '"' :: (s.toList.flatMap Json.escapedChar ++ '"' :: rest) := by
    intro s rest
    simp only [Constant.chars, Json.stringChars, List.cons_append, List.append_assoc,
      List.nil_append]
  rw [hbody, hbody, List.cons.injEq] at h
  have hread := Json.readString_escaped s rest
  rw [h.2, Json.readString_escaped t rest'] at hread
  obtain ⟨rfl, rfl⟩ := Prod.mk.inj (Except.ok.inj hread)
  exact ⟨rfl, rfl⟩

/-! ### What a text begins with -/

/-- What a text begins with. -/
inductive Lead where
  | string | group | number | name
deriving DecidableEq

/-- Whether a text begins with a number. The words for numbers that are not finite may be names as
well, but then arguments or another segment follow. -/
def startsNumber (s : List Char) : Bool :=
  s.head?.any Char.isDigit || s.head? = some '-' &&
    s.tail.head?.any (fun c => c.isDigit || c = 'i') ||
    isNumberWord (String.ofList (s.takeWhile continuesWord)) &&
      (s.dropWhile continuesWord).head?.all fun c => c ≠ '<' && c ≠ '.'

/-- What a text begins with. -/
def leadOf (s : List Char) : Lead :=
  if s.head? = some '"' then .string
  else if s.head? = some '(' then .group
  else if startsNumber s then .number
  else .name

theorem not_isDigit_of_startsWord {c : Char} (h : startsWord c = true) : c.isDigit = false := by
  have hletter : (c.isUpper || c.isLower || decide (c = '_')) = true := h
  rw [Bool.or_eq_true, Bool.or_eq_true, decide_eq_true_iff] at hletter
  rw [Bool.eq_false_iff]
  intro hdigit
  have hdigit : (decide (c.val ≥ 48) && decide (c.val ≤ 57)) = true := hdigit
  rw [Bool.and_eq_true, decide_eq_true_iff, decide_eq_true_iff] at hdigit
  have hnine : c.val.toNat ≤ 57 := hdigit.2
  -- the letters and the line stand behind the digits
  rcases hletter with (hupper | hlower) | rfl
  · have hfirst : 65 ≤ c.val.toNat := (of_decide_eq_true hupper).1
    omega
  · have hfirst : 97 ≤ c.val.toNat := of_decide_eq_true (Bool.and_eq_true_iff.1 hlower).1
    omega
  · exact absurd hnine (by decide)

/-- A text that begins with a name. -/
theorem leadOf_word {name : String} {more : List Char} (hname : isName name = true)
    (hmore : ∀ c ∈ more.head?, continuesWord c = false) :
    leadOf (name.toList ++ more) =
      if isNumberWord name && more.head?.all (fun c => c ≠ '<' && c ≠ '.') then .number
        else .name := by
  have htake : (name.toList ++ more).takeWhile continuesWord = name.toList := by
    rw [List.takeWhile_append_of_pos (continuesWord_of_isName hname)]
    cases more with
    | nil => rw [List.takeWhile_nil, List.append_nil]
    | cons c more =>
      rw [List.takeWhile_cons_of_neg (Bool.eq_false_iff.1 (hmore c rfl)), List.append_nil]
  have hdrop : (name.toList ++ more).dropWhile continuesWord = more := by
    rw [List.dropWhile_append_of_pos (continuesWord_of_isName hname)]
    cases more with
    | nil => rfl
    | cons c more => rw [List.dropWhile_cons_of_neg (Bool.eq_false_iff.1 (hmore c rfl))]
  obtain ⟨c, rest, hcons, hstart⟩ := exists_of_isName hname
  have hhead : (name.toList ++ more).head? = some c := by rw [hcons]; rfl
  have hc : c ≠ '"' ∧ c ≠ '(' ∧ c ≠ '-' := by
    refine ⟨?_, ?_, ?_⟩ <;> rintro rfl <;> cases hstart
  have hdigit := not_isDigit_of_startsWord hstart
  rw [leadOf, startsNumber, htake, hdrop, hhead, String.ofList_toList]
  simp [hc, hdigit]

theorem leadOf_of_head? {s : List Char} {c : Char} (hhead : s.head? = some c) (hquote : c ≠ '"')
    (hgroup : c ≠ '(') :
    leadOf s = if startsNumber s then .number else .name := by
  rw [leadOf, hhead, if_neg fun heq => hquote (Option.some.inj heq),
    if_neg fun heq => hgroup (Option.some.inj heq)]

theorem leadOf_digit {s : List Char} {c : Char} (hhead : s.head? = some c) (hc : c.isDigit = true) :
    leadOf s = .number := by
  have hquote : c ≠ '"' := by rintro rfl; cases hc
  have hgroup : c ≠ '(' := by rintro rfl; cases hc
  rw [leadOf_of_head? hhead hquote hgroup, startsNumber, hhead]
  simp [hc]

theorem leadOf_minus {s : List Char} {c : Char} (hc : c.isDigit = true ∨ c = 'i') :
    leadOf ('-' :: c :: s) = .number := by
  have hstart : startsNumber ('-' :: c :: s) = true := by
    rcases hc with hc | hc <;> simp [startsNumber, hc]
  rw [leadOf_of_head? rfl (by decide) (by decide), if_pos hstart]

/-- **A number** begins like one. -/
theorem leadOf_number {x : Binary64} {text rest : List Char} (h : NumberText x text)
    (hrest : EndsPart rest) :
    leadOf (text ++ rest) = .number := by
  have hword := hrest.segment.not_word
  have hplain := hrest.not_segment
  cases h with
  | nan =>
    have hlead := @leadOf_word "NaN" rest rfl hword
    rw [hplain] at hlead
    exact hlead
  | infinite negative =>
    cases negative with
    | true => exact leadOf_minus (Or.inr rfl)
    | false =>
      have hlead := @leadOf_word "inf" rest rfl hword
      rw [hplain] at hlead
      exact hlead
  | digits negative hwhole hne =>
    obtain ⟨c, more, rfl⟩ := List.exists_cons_of_ne_nil hne
    have hc := hwhole c List.mem_cons_self
    cases negative with
    | true => exact leadOf_minus (Or.inl hc)
    | false => exact leadOf_digit rfl hc

/-! ### Operators -/

/-- The names of all operators. -/
def operatorNames : List String :=
  ["*", "asterisk", "/", "slash", "+", "plus", "-", "minus", "%", "percent", "floor", "round",
    "ceil", "min", "max", "sizeof"]

theorem mem_operatorNames {name : String} (h : (Operator.ofName? name).isSome = true) :
    name ∈ operatorNames := by
  unfold Operator.ofName? at h
  split at h
  iterate 16 · simp [operatorNames]
  cases h

/-- A character that goes on with a bare name or an operator. -/
def isPlain (c : Char) : Bool := isInner c && c ≠ '<' && c ≠ '.'

theorem isPlain_of_continuesWord {c : Char} (h : continuesWord c = true) : isPlain c = true := by
  have hall : ('<' :: '.' :: closers).all (fun c => !continuesWord c) = true := by decide
  have hnot : c ∉ '<' :: '.' :: closers := by
    intro hc
    have hother := List.all_eq_true.1 hall c hc
    rw [h] at hother
    cases hother
  rw [List.mem_cons, List.mem_cons, not_or, not_or] at hnot
  simp [isPlain, isInner, hnot]

theorem isPlain_of_isName {name : String} (h : isName name = true) :
    ∀ c ∈ name.toList, isPlain c = true :=
  fun c hc => isPlain_of_continuesWord (continuesWord_of_isName h c hc)

theorem isPlain_operator {name : String} (hname : name ∈ operatorNames) :
    ∀ c ∈ name.toList, isPlain c = true := by
  have hall : ∀ name ∈ operatorNames, name.toList.all isPlain = true := by decide +kernel
  exact List.all_eq_true.1 (hall name hname)

theorem isInner_of_isPlain {c : Char} (h : isPlain c = true) : isInner c = true := by
  rw [isPlain, Bool.and_eq_true, Bool.and_eq_true] at h
  exact h.1.1

theorem isInner_operator {name : String} (hname : name ∈ operatorNames) :
    ∀ c ∈ name.toList, isInner c = true :=
  fun c hc => isInner_of_isPlain (isPlain_operator hname c hc)

theorem head?_operator : ∀ name ∈ operatorNames,
    name.toList.head?.any (fun c => isInner c && c ≠ '?' && c ≠ '[') = true := by
  decide +kernel

theorem operator_cases : ∀ name ∈ operatorNames,
    isName name = true ∧ isNumberWord name = false ∨ name ∈ ["*", "/", "+", "-", "%"] :=
  by decide +kernel

theorem leadOf_operator {name : String} (hname : name ∈ operatorNames) {rest : List Char}
    (hrest : EndsPart rest) :
    leadOf (name.toList ++ rest) = .name := by
  rcases operator_cases name hname with ⟨hword, hnumber⟩ | hsymbol
  · rw [leadOf_word hword hrest.segment.not_word, hnumber]
    rfl
  · simp only [List.mem_cons, List.not_mem_nil, or_false] at hsymbol
    rcases hsymbol with rfl | rfl | rfl | rfl | rfl
    · rfl
    · rfl
    · rfl
    · -- no digit follows the sign
      have hall : closers.all (fun c => !(c.isDigit || c = 'i')) = true := by decide
      cases rest with
      | nil => rfl
      | cons c rest =>
        have hc : (c.isDigit || c = 'i') = false := by
          simpa using List.all_eq_true.1 hall c (hrest c rfl)
        have hstart : startsNumber ('-' :: c :: rest) = false := by
          have htaken : ('-' :: c :: rest).takeWhile continuesWord = [] := rfl
          rw [startsNumber, htaken]
          simp only [List.head?_cons, List.tail_cons, Option.any_some, hc]
          rfl
        exact (leadOf_of_head? rfl (by decide) (by decide)).trans
          (if_neg (Bool.eq_false_iff.1 hstart))
    · rfl

/-- The name of an operator is told by itself. -/
theorem operator_unique {name name' : String} (hname : name ∈ operatorNames)
    (hname' : name' ∈ operatorNames) {rest rest' : List Char} (hrest : EndsPart rest)
    (hrest' : EndsPart rest') (h : name.toList ++ rest = name'.toList ++ rest') :
    name = name' ∧ rest = rest' := by
  obtain ⟨hsame, hrests⟩ :=
    inner_unique (isInner_operator hname) (isInner_operator hname') hrest hrest' h
  exact ⟨String.toList_inj.1 hsame, hrests⟩

end Wireform
