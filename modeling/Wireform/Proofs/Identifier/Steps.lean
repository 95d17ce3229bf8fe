import Mathlib.Data.List.TakeWhile
import Wireform.Proofs.Identifier.Acceptance
import Wireform.Proofs.Identifier.Spacing

/-!
# Texts are read in the steps they are given

Every lexeme takes a character at least, and the readers need fewer steps than eight for each lexeme
and a few. So the bounds that go with a text are never too small for it.

* `Lexeme.first_lt`: a lexeme takes a character at least.
* `TypeRef.parse_ne_exhausted`, `Expr.parse_ne_exhausted`: **no text is rejected for a lack of
  steps.**
-/

namespace Wireform

theorem length_takeDigits_le (s : List Char) : (takeDigits s).2.length ≤ s.length := by
  rw [takeDigits, List.span_eq_takeWhile_dropWhile]
  exact s.length_dropWhile_le Char.isDigit

namespace Decimal

theorem length_takeFraction_le (s : List Char) : (takeFraction s).2.length ≤ s.length := by
  unfold takeFraction
  split
  · next rest =>
    have hle := length_takeDigits_le rest
    split
    · exact Nat.le_refl _
    · exact Nat.le_succ_of_le hle
  · exact Nat.le_refl _

theorem length_exponentOf_le {mark : Char} {rest : List Char} (negative : Bool) (body : List Char)
    (hle : body.length ≤ rest.length) :
    (match takeDigits body with
      | ([], _) => (none, mark :: rest)
      | (digits, behind) =>
        (some (if negative = true then -(ofDigits digits : Int) else ofDigits digits),
          behind)).2.length ≤
      (mark :: rest).length := by
  have hdigits := length_takeDigits_le body
  split
  · exact Nat.le_refl _
  · next hfound =>
    rw [hfound] at hdigits
    exact Nat.le_succ_of_le (Nat.le_trans hdigits hle)

theorem length_takeExponent_le (s : List Char) : (takeExponent s).2.length ≤ s.length := by
  cases s with
  | nil => exact Nat.le_refl _
  | cons mark rest =>
    by_cases hmark : mark = 'e' ∨ mark = 'E'
    · -- the digits may start behind a sign
      cases rest with
      | nil =>
        simp only [takeExponent, if_pos hmark]
        exact length_exponentOf_le false [] (Nat.le_refl _)
      | cons c more =>
        by_cases hminus : c = '-'
        · subst hminus
          simp only [takeExponent, if_pos hmark]
          exact length_exponentOf_le true more (Nat.le_succ _)
        by_cases hplus : c = '+'
        · subst hplus
          simp only [takeExponent, if_pos hmark]
          exact length_exponentOf_le false more (Nat.le_succ _)
        rw [takeExponent_unsigned hmark hminus hplus]
        exact length_exponentOf_le false (c :: more) (Nat.le_refl _)
    · simp [takeExponent, hmark]

end Decimal

namespace Lexeme

variable {s rest : List Char}

theorem length_takeQuoted? {spelling : List Char} (h : takeQuoted? s = some (spelling, rest)) :
    rest.length < s.length := by
  induction s using takeQuoted?.induct generalizing spelling rest with
  | case1 => cases h
  | case2 more =>
    cases h
    exact Nat.lt_succ_self _
  | case3 more => simp [takeQuoted?] at h
  | case4 c more hc ih =>
    rw [takeQuoted?, if_neg hc] at h
    obtain ⟨⟨found, after⟩, hfound, heq⟩ := Option.map_eq_some_iff.1 h
    cases heq
    exact Nat.lt_trans (ih hfound) (Nat.lt_succ_of_lt (Nat.lt_succ_self _))
  | case5 more _ _ => simp [takeQuoted?] at h
  | case6 c more hquote _ hescape ih =>
    rw [takeQuoted?, if_neg hescape] at h
    · obtain ⟨⟨found, after⟩, hfound, heq⟩ := Option.map_eq_some_iff.1 h
      cases heq
      exact Nat.lt_succ_of_lt (ih hfound)
    all_goals assumption

theorem length_takeHex? {digits : List Char} (h : takeHex? s = some (digits, rest)) :
    rest.length < s.length := by
  unfold takeHex? at h
  split at h
  · next x more =>
    split at h
    · rw [List.span_eq_takeWhile_dropWhile] at h
      split at h
      · cases h
      · cases h
        have hle := more.length_dropWhile_le fun c => (Text.hexDigitValue? c).isSome
        simp only [List.length_cons]
        omega
    · cases h
  · cases h

theorem length_decimal {c : Char} (hc : c.isDigit = true) (more : List Char) :
    (decimal (c :: more)).2.length < (c :: more).length := by
  have hdigits : (takeDigits (c :: more)).2 = (takeDigits more).2 := by
    simp [takeDigits, List.span_eq_takeWhile_dropWhile, hc]
  have hwhole := length_takeDigits_le more
  have hfraction := Decimal.length_takeFraction_le (takeDigits more).2
  have hexponent := Decimal.length_takeExponent_le (Decimal.takeFraction (takeDigits more).2).2
  simp only [decimal, hdigits, List.length_cons]
  omega

/-- **A lexeme takes a character at least.** -/
theorem first_lt {lexeme : Lexeme} (h : first s = .ok (lexeme, rest)) : rest.length < s.length := by
  unfold first at h
  cases hhex : takeHex? s with
  | some found =>
    simp only [hhex] at h
    split at h
    · cases h
      exact length_takeHex? hhex
    · cases h
  | none =>
    simp only [hhex] at h
    cases s with
    | nil => cases h
    | cons c more =>
      dsimp only at h
      split at h
      · next hdigit =>
        have hlt := length_decimal hdigit more
        rw [Except.ok.inj h] at hlt
        exact hlt
      split at h
      · cases hquoted : takeQuoted? more with
        | none =>
          rw [hquoted] at h
          cases h
        | some found =>
          rw [hquoted] at h
          dsimp only at h
          split at h <;> cases h
          exact Nat.lt_succ_of_lt (length_takeQuoted? hquoted)
      split at h
      · next hword =>
        have hcontinues : continuesWord c = true := by
          simp only [startsWord, continuesWord, Bool.or_eq_true, Char.isAlphanum] at hword ⊢
          exact hword.imp Or.inl id
        rw [List.span_eq_takeWhile_dropWhile] at h
        cases h
        have hle := more.length_dropWhile_le continuesWord
        simp only [List.dropWhile_cons, hcontinues, if_true, List.length_cons]
        omega
      split at h <;> cases h
      exact Nat.lt_succ_self _

/-- The fault of a first lexeme is not a lack of steps. -/
theorem first_ne_exhausted (s : List Char) : first s ≠ .error .exhausted := by
  intro h
  unfold first at h
  dsimp only at h
  repeat' split at h
  all_goals cases h

theorem lexWithin_ne_exhausted {bound : ℕ} (h : s.length ≤ bound) :
    lexWithin bound s ≠ .error .exhausted := by
  induction bound generalizing s with
  | zero =>
    obtain rfl := List.length_eq_zero_iff.1 (Nat.le_zero.1 h)
    exact nofun
  | succ bound ih =>
    have htrimmed : (Text.trimStart s).length ≤ s.length := s.length_dropWhile_le Text.isBlank
    unfold lexWithin
    split
    · exact nofun
    · next c more hstart =>
      rw [hstart] at htrimmed
      cases hfirst : first (c :: more) with
      | error fault =>
        rintro ⟨⟩
        exact first_ne_exhausted _ hfirst
      | ok found =>
        have hlt := first_lt hfirst
        have hrest := ih (s := found.2) (by omega)
        cases hlexemes : lexWithin bound found.2 with
        | error fault =>
          simp only [bind, Except.bind, hlexemes]
          rintro ⟨⟩
          exact hrest hlexemes
        | ok lexemes =>
          simp only [bind, Except.bind, hlexemes]
          exact nofun

end Lexeme

/-- A text has no more lexemes than characters. -/
theorem lex_ne_exhausted (text : String) : lex text ≠ .error .exhausted :=
  Lexeme.lexWithin_ne_exhausted (Nat.le_refl _)

namespace Parsing

variable {α : Type} {parameters : List String} {lexemes : List Lexeme}

theorem readAll_ne_exhausted {read : ℕ → Parsing α} {enough : ℕ} {p : α → List Lexeme → Prop}
    (h : Parses (enoughSteps lexemes) enough lexemes (read (enoughSteps lexemes)) p)
    (hle : enough ≤ enoughSteps lexemes) : readAll read lexemes ≠ .error .exhausted := by
  unfold readAll
  split
  · exact nofun
  · exact nofun
  · next fault rest hread =>
    rintro ⟨⟩
    have hfew : enoughSteps lexemes < enough := Ensures.of_error h hread rfl
    omega

/-- A reader that never lacks steps for lexemes never lacks them for a text. -/
theorem whole_ne_exhausted {read : ℕ → Parsing α}
    (h : ∀ lexemes, readAll read lexemes ≠ .error .exhausted) (text : String) :
    whole read text ≠ .error (.malformed text .exhausted) := by
  have hlex := lex_ne_exhausted text
  rw [whole_eq]
  cases hlexemes : lex text with
  | error fault =>
    rintro ⟨⟩
    exact hlex hlexemes
  | ok lexemes =>
    change (readAll read lexemes).mapError _ ≠ _
    cases hread : readAll read lexemes with
    | error fault =>
      rintro ⟨⟩
      exact h lexemes hread
    | ok result => exact nofun

end Parsing

open Parsing

theorem TypeRef.parse_ne_exhausted (text : String) (parameters : List String) :
    TypeRef.parse text parameters ≠ .error (.malformed text .exhausted) :=
  whole_ne_exhausted (fun _ => readAll_ne_exhausted (derives parameters _).type
    (by unfold enoughSteps; omega)) text

theorem Expr.parse_ne_exhausted (text : String) (parameters : List String) :
    Expr.parse text parameters ≠ .error (.malformed text .exhausted) :=
  whole_ne_exhausted (fun _ => readAll_ne_exhausted (derives parameters _).sum
    (by unfold enoughSteps; omega)) text

end Wireform
