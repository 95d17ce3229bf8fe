import Mathlib.Data.List.TakeDrop
import Wireform.Identifier.Lexeme

/-!
# Texts with a blank between them

No lexeme goes on behind a blank outside of a string, so a lexeme that ends a text is the same if a
blank and another text follow. The lexemes of two texts with a blank between them are therefore
those of the one and then those of the other.

* `first_append`: the first lexeme of a text.
* `lex_append`: **all lexemes of two texts.**
-/

namespace Wireform

variable {s t : List Char}

/-- A run of characters that ends with a text ends at a blank too. -/
theorem span_append_blank {p : Char → Bool} (hp : p ' ' = false) (s t : List Char) :
    (s ++ ' ' :: t).span p = ((s.span p).1, (s.span p).2 ++ ' ' :: t) := by
  simp only [List.span_eq_takeWhile_dropWhile]
  induction s with
  | nil => simp [hp]
  | cons c rest ih =>
    by_cases hc : p c = true
    · simp only [List.cons_append, List.takeWhile_cons, List.dropWhile_cons, hc, if_true]
      rw [Prod.mk.injEq] at ih ⊢
      exact ⟨congrArg _ ih.1, ih.2⟩
    · simp [hc]

theorem takeDigits_append_blank (s t : List Char) :
    takeDigits (s ++ ' ' :: t) = ((takeDigits s).1, (takeDigits s).2 ++ ' ' :: t) :=
  span_append_blank (by decide) s t

namespace Decimal

theorem takeFraction_append_blank (s t : List Char) :
    takeFraction (s ++ ' ' :: t) = ((takeFraction s).1, (takeFraction s).2 ++ ' ' :: t) := by
  cases s with
  | nil => rfl
  | cons c rest =>
    by_cases hc : c = '.'
    · subst hc
      simp only [List.cons_append, takeFraction, takeDigits_append_blank]
      obtain ⟨digits, after⟩ := takeDigits rest
      cases digits <;> rfl
    · simp [takeFraction, hc]

/-- An exponent without a sign. -/
theorem takeExponent_unsigned {mark c : Char} (hmark : mark = 'e' ∨ mark = 'E') (hminus : c ≠ '-')
    (hplus : c ≠ '+') (body : List Char) :
    takeExponent (mark :: c :: body) = match takeDigits (c :: body) with
      | ([], _) => (none, mark :: c :: body)
      | (digits, rest) => (some (ofDigits digits : Int), rest) := by
  cases hdigits : takeDigits (c :: body) with
  | mk digits after => cases digits <;> simp [takeExponent, hmark, hminus, hplus, hdigits]

theorem takeExponent_append_blank (s t : List Char) :
    takeExponent (s ++ ' ' :: t) = ((takeExponent s).1, (takeExponent s).2 ++ ' ' :: t) := by
  cases s with
  | nil => rfl
  | cons mark rest =>
    by_cases hmark : mark = 'e' ∨ mark = 'E'
    · -- without digits behind the mark and its sign, there is no exponent
      cases rest with
      | nil => simp only [List.cons_append, List.nil_append, takeExponent, if_pos hmark]; rfl
      | cons c more =>
        by_cases hminus : c = '-'
        · subst hminus
          simp only [List.cons_append, takeExponent, if_pos hmark, takeDigits_append_blank]
          obtain ⟨digits, after⟩ := takeDigits more
          cases digits <;> rfl
        by_cases hplus : c = '+'
        · subst hplus
          simp only [List.cons_append, takeExponent, if_pos hmark, takeDigits_append_blank]
          obtain ⟨digits, after⟩ := takeDigits more
          cases digits <;> rfl
        have hdigits := takeDigits_append_blank (c :: more) t
        rw [List.cons_append] at hdigits
        rw [List.cons_append, List.cons_append, takeExponent_unsigned hmark hminus hplus,
          takeExponent_unsigned hmark hminus hplus, hdigits]
        obtain ⟨digits, after⟩ := takeDigits (c :: more)
        cases digits <;> rfl
    · simp only [List.cons_append, takeExponent, if_neg hmark]

end Decimal

namespace Lexeme

theorem takeQuoted?_plain {c : Char} (hquote : c ≠ '"') (hescape : c ≠ '\\') (rest : List Char) :
    takeQuoted? (c :: rest) = (takeQuoted? rest).map fun found => (c :: found.1, found.2) := by
  simp [takeQuoted?, hescape]

/-- A string ends at its closing quote, whatever follows. -/
theorem takeQuoted?_append {spelling rest : List Char} (h : takeQuoted? s = some (spelling, rest))
    (t : List Char) :
    takeQuoted? (s ++ t) = some (spelling, rest ++ t) := by
  induction s using takeQuoted?.induct generalizing spelling rest with
  | case1 => cases h
  | case2 more =>
    cases h
    rfl
  | case3 more =>
    simp [takeQuoted?] at h
  | case4 c more hc ih =>
    rw [takeQuoted?, if_neg hc] at h
    obtain ⟨⟨found, after⟩, hfound, heq⟩ := Option.map_eq_some_iff.1 h
    cases heq
    rw [List.cons_append, List.cons_append, takeQuoted?, if_neg hc, ih hfound]
    rfl
  | case5 more _ _ => simp [takeQuoted?] at h
  | case6 c more hquote _ hescape ih =>
    rw [takeQuoted?_plain hquote hescape] at h
    obtain ⟨⟨found, after⟩, hfound, heq⟩ := Option.map_eq_some_iff.1 h
    cases heq
    rw [List.cons_append, takeQuoted?_plain hquote hescape, ih hfound]
    rfl

theorem takeHex?_append_blank (s t : List Char) :
    takeHex? (s ++ ' ' :: t) = (takeHex? s).map fun found => (found.1, found.2 ++ ' ' :: t) := by
  match s with
  | [] => rfl
  | [c] =>
    by_cases hc : c = '0'
    · subst hc
      rfl
    · simp [takeHex?, hc]
  | c :: x :: rest =>
    by_cases hc : c = '0'
    · subst hc
      by_cases hx : x = 'x' ∨ x = 'X'
      · have hspan :=
          span_append_blank (p := fun c => (Text.hexDigitValue? c).isSome) (by decide) rest t
        simp only [List.cons_append, takeHex?, if_pos hx, hspan]
        obtain ⟨digits, after⟩ := rest.span fun c => (Text.hexDigitValue? c).isSome
        cases digits <;> rfl
      · simp only [List.cons_append, takeHex?, if_neg hx, Option.map_none]
    · simp [takeHex?, hc]

theorem decimal_append_blank (s t : List Char) :
    decimal (s ++ ' ' :: t) = ((decimal s).1, (decimal s).2 ++ ' ' :: t) := by
  simp only [decimal, takeDigits_append_blank, Decimal.takeFraction_append_blank,
    Decimal.takeExponent_append_blank]

/-- **The first lexeme of a text** is that of the text with a blank and more behind it. -/
theorem first_append {lexeme : Lexeme} {rest : List Char} (h : first s = .ok (lexeme, rest))
    (t : List Char) :
    first (s ++ ' ' :: t) = .ok (lexeme, rest ++ ' ' :: t) := by
  unfold first at h ⊢
  rw [takeHex?_append_blank]
  cases hhex : takeHex? s with
  | some found =>
    simp only [hhex, Option.map_some] at h ⊢
    by_cases hsmall : ofHexDigits found.1 < 18446744073709551616
    · rw [if_pos hsmall] at h ⊢
      cases h
      rfl
    · rw [if_neg hsmall] at h
      cases h
  | none =>
    simp only [hhex, Option.map_none] at h ⊢
    cases s with
    | nil => cases h
    | cons c more =>
      dsimp only [List.cons_append] at h ⊢
      by_cases hdigit : c.isDigit = true
      · rw [if_pos hdigit] at h ⊢
        have hdecimal := decimal_append_blank (c :: more) t
        rw [List.cons_append] at hdecimal
        rw [hdecimal]
        cases h
        rfl
      rw [if_neg hdigit] at h ⊢
      by_cases hquote : c = '"'
      · rw [if_pos hquote] at h ⊢
        cases htaken : takeQuoted? more with
        | none =>
          rw [htaken] at h
          cases h
        | some found =>
          rw [takeQuoted?_append htaken]
          rw [htaken] at h
          dsimp only at h ⊢
          cases hstring : Json.readString found.1 with
          | ok text =>
            rw [hstring] at h
            cases h
            rfl
          | error fault =>
            rw [hstring] at h
            cases h
      rw [if_neg hquote] at h ⊢
      by_cases hword : startsWord c = true
      · rw [if_pos hword] at h ⊢
        have hspan := span_append_blank (p := continuesWord) (by decide) (c :: more) t
        rw [List.cons_append] at hspan
        rw [hspan]
        cases h
        rfl
      rw [if_neg hword] at h ⊢
      by_cases hmark : marks.contains c = true
      · rw [if_pos hmark] at h ⊢
        cases h
        rfl
      · rw [if_neg hmark] at h
        cases h

/-! ### All lexemes -/

theorem lexWithin_of_nil {bound : ℕ} (h : Text.trimStart s = []) : lexWithin bound s = .ok [] := by
  unfold lexWithin
  rw [h]

theorem lexWithin_cons {bound : ℕ} {c : Char} {more : List Char}
    (h : Text.trimStart s = c :: more) :
    lexWithin (bound + 1) s = first (c :: more) >>= fun found =>
      lexWithin bound found.2 >>= fun lexemes => pure (found.1 :: lexemes) := by
  rw [lexWithin, h]

/-- A text that has lexemes but no blanks in front has a first lexeme, and the others behind it. -/
theorem exists_of_lexWithin {bound : ℕ} {c : Char} {more : List Char} {lexemes : List Lexeme}
    (hstart : Text.trimStart s = c :: more) (h : lexWithin bound s = .ok lexemes) :
    ∃ few lexeme rest others, bound = few + 1 ∧ first (c :: more) = .ok (lexeme, rest) ∧
      lexWithin few rest = .ok others ∧ lexemes = lexeme :: others := by
  cases bound with
  | zero =>
    rw [lexWithin, hstart] at h
    cases h
  | succ few =>
    rw [lexWithin_cons hstart] at h
    cases hfirst : first (c :: more) with
    | error fault =>
      rw [hfirst] at h
      cases h
    | ok found =>
      obtain ⟨lexeme, rest⟩ := found
      rw [hfirst] at h
      change (lexWithin few rest >>= _) = _ at h
      cases hrest : lexWithin few rest with
      | error fault =>
        rw [hrest] at h
        cases h
      | ok others =>
        rw [hrest] at h
        cases h
        exact ⟨few, lexeme, rest, others, rfl, rfl, hrest, rfl⟩

theorem eq_nil_of_lexWithin {bound : ℕ} {lexemes : List Lexeme} (hstart : Text.trimStart s = [])
    (h : lexWithin bound s = .ok lexemes) : lexemes = [] := by
  rw [lexWithin_of_nil hstart] at h
  exact (Except.ok.inj h).symm

/-- A first lexeme and the others behind it, within any greater bound. -/
theorem lexWithin_of_first {bound : ℕ} {c : Char} {more rest : List Char} {lexeme : Lexeme}
    {others : List Lexeme} (hstart : Text.trimStart s = c :: more)
    (hfirst : first (c :: more) = .ok (lexeme, rest)) (hrest : lexWithin bound rest = .ok others) :
    lexWithin (bound + 1) s = .ok (lexeme :: others) := by
  rw [lexWithin_cons hstart, hfirst]
  change (lexWithin bound rest >>= _) = _
  rw [hrest]
  rfl

/-- A greater bound does not matter. -/
theorem lexWithin_mono {bound total : ℕ} (hle : bound ≤ total) {lexemes : List Lexeme}
    (h : lexWithin bound s = .ok lexemes) : lexWithin total s = .ok lexemes := by
  induction bound generalizing s lexemes total with
  | zero =>
    cases hstart : Text.trimStart s with
    | nil =>
      obtain rfl := eq_nil_of_lexWithin hstart h
      exact lexWithin_of_nil hstart
    | cons c more =>
      obtain ⟨few, -, -, -, hzero, -⟩ := exists_of_lexWithin hstart h
      cases hzero
  | succ bound ih =>
    cases hstart : Text.trimStart s with
    | nil =>
      obtain rfl := eq_nil_of_lexWithin hstart h
      exact lexWithin_of_nil hstart
    | cons c more =>
      obtain ⟨few, lexeme, rest, others, hfew, hfirst, hrest, rfl⟩ := exists_of_lexWithin hstart h
      obtain rfl := Nat.succ.inj hfew
      obtain ⟨total, rfl⟩ := Nat.exists_eq_add_of_le' (Nat.le_trans (Nat.le_add_left 1 bound) hle)
      exact lexWithin_of_first hstart hfirst (ih (Nat.le_of_succ_le_succ hle) hrest)

/-- **Two texts with a blank between them**: the bounds on their lexemes add up. -/
theorem lexWithin_append {bound more : ℕ} {lexemes others : List Lexeme}
    (h : lexWithin bound s = .ok lexemes) (hmore : lexWithin more t = .ok others) :
    lexWithin (bound + more) (s ++ ' ' :: t) = .ok (lexemes ++ others) := by
  have hblank : Text.isBlank ' ' = true := by decide
  -- if there is no lexeme, the blank is dropped with all that is in front of it
  have hnone : ∀ {s : List Char} (bound : ℕ), Text.trimStart s = [] →
      lexWithin (bound + more) (s ++ ' ' :: t) = .ok others := by
    intro s bound hstart
    have hdropped : Text.trimStart (s ++ ' ' :: t) = Text.trimStart t := by
      unfold Text.trimStart at hstart ⊢
      rw [List.dropWhile_append, hstart]
      simp [hblank]
    have hgreater := lexWithin_mono (Nat.le_add_left more bound) hmore
    unfold lexWithin at hgreater ⊢
    rwa [hdropped]
  induction bound generalizing s lexemes with
  | zero =>
    cases hstart : Text.trimStart s with
    | nil =>
      obtain rfl := eq_nil_of_lexWithin hstart h
      exact hnone 0 hstart
    | cons c rest =>
      obtain ⟨few, -, -, -, hzero, -⟩ := exists_of_lexWithin hstart h
      cases hzero
  | succ bound ih =>
    cases hstart : Text.trimStart s with
    | nil =>
      obtain rfl := eq_nil_of_lexWithin hstart h
      exact hnone _ hstart
    | cons c rest =>
      obtain ⟨few, lexeme, after, behind, hfew, hfirst, hafter, rfl⟩ := exists_of_lexWithin hstart h
      obtain rfl := Nat.succ.inj hfew
      have hlonger : Text.trimStart (s ++ ' ' :: t) = c :: (rest ++ ' ' :: t) := by
        unfold Text.trimStart at hstart ⊢
        rw [List.dropWhile_append, hstart]
        rfl
      rw [Nat.succ_add]
      exact lexWithin_of_first hlonger (first_append hfirst t) (ih hafter)

end Lexeme

/-- **All lexemes of two texts**, with a blank between them. -/
theorem lex_append {text more : String} {lexemes others : List Lexeme} (h : lex text = .ok lexemes)
    (hmore : lex more = .ok others) : lex (text ++ " " ++ more) = .ok (lexemes ++ others) := by
  have hchars : (text ++ " " ++ more).toList = text.toList ++ ' ' :: more.toList := by
    simp
  have hlength : text.toList.length + more.toList.length ≤
      (text.toList ++ ' ' :: more.toList).length := by
    rw [List.length_append, List.length_cons]
    omega
  unfold lex
  rw [hchars]
  exact Lexeme.lexWithin_mono hlength (Lexeme.lexWithin_append h hmore)

end Wireform
