/-!
# UTF-16

Code points beyond `0xFFFF` are written as two surrogates; a surrogate that is
not part of such a pair is refused.

* `ofUtf16?_utf16`: reading gives back the text.
-/

namespace Wireform.Text

/-- The UTF-16 code units of a character. -/
def utf16Char (c : Char) : List UInt16 :=
  let n := c.toNat
  if n < 0x10000 then [UInt16.ofNat n]
  else
    [UInt16.ofNat (0xD800 + (n - 0x10000) / 0x400),
      UInt16.ofNat (0xDC00 + (n - 0x10000) % 0x400)]

/-- The UTF-16 code units of a text. -/
def utf16 (s : List Char) : List UInt16 := s.flatMap utf16Char

/-- Whether a code unit is the first half of a pair. -/
def isLeading (n : Nat) : Bool := 0xD800 ≤ n && n < 0xDC00

/-- Whether a code unit is the second half of a pair. -/
def isTrailing (n : Nat) : Bool := 0xDC00 ≤ n && n < 0xE000

/-- The code point of a pair of surrogates. -/
def joinSurrogates (leading trailing : Nat) : Nat :=
  0x10000 + (leading - 0xD800) * 0x400 + (trailing - 0xDC00)

/-- The text with given UTF-16 code units. -/
def ofUtf16? : List UInt16 → Option (List Char)
  | [] => some []
  | unit :: rest =>
    if isLeading unit.toNat then
      match rest with
      | next :: rest =>
        if isTrailing next.toNat then
          (ofUtf16? rest).map (Char.ofNat (joinSurrogates unit.toNat next.toNat) :: ·)
        else none
      | [] => none
    else if isTrailing unit.toNat then none
    else (ofUtf16? rest).map (Char.ofNat unit.toNat :: ·)

theorem ofUtf16?_single {unit : UInt16} {rest : List UInt16}
    (hl : isLeading unit.toNat = false) (ht : isTrailing unit.toNat = false) :
    ofUtf16? (unit :: rest) = (ofUtf16? rest).map (Char.ofNat unit.toNat :: ·) := by
  rw [ofUtf16?.eq_def]; simp [hl, ht]

theorem ofUtf16?_pair {unit next : UInt16} {rest : List UInt16}
    (hl : isLeading unit.toNat = true) (ht : isTrailing next.toNat = true) :
    ofUtf16? (unit :: next :: rest) =
      (ofUtf16? rest).map (Char.ofNat (joinSurrogates unit.toNat next.toNat) :: ·) := by
  rw [ofUtf16?.eq_def]; simp [hl, ht]

theorem ofUtf16?_utf16 (s : List Char) : ofUtf16? (utf16 s) = some s := by
  induction s with
  | nil => rfl
  | cons c r ih =>
    have hv : c.toNat < 0xD800 ∨ 0xDFFF < c.toNat ∧ c.toNat < 0x110000 := c.valid
    have hs : utf16 (c :: r) = utf16Char c ++ utf16 r := rfl
    rw [hs]
    by_cases h : c.toNat < 0x10000
    · have h1 : (UInt16.ofNat c.toNat).toNat = c.toNat := by simp; omega
      simp only [utf16Char, h, if_true, List.cons_append, List.nil_append]
      rw [ofUtf16?_single (by rw [h1]; simp [isLeading]; omega)
        (by rw [h1]; simp [isTrailing]; omega), ih, h1]
      simp
    · have h1 : (UInt16.ofNat (0xD800 + (c.toNat - 0x10000) / 0x400)).toNat =
          0xD800 + (c.toNat - 0x10000) / 0x400 := by simp; omega
      have h2 : (UInt16.ofNat (0xDC00 + (c.toNat - 0x10000) % 0x400)).toNat =
          0xDC00 + (c.toNat - 0x10000) % 0x400 := by simp; omega
      have hj : joinSurrogates (0xD800 + (c.toNat - 0x10000) / 0x400)
          (0xDC00 + (c.toNat - 0x10000) % 0x400) = c.toNat := by
        unfold joinSurrogates; omega
      simp only [utf16Char, h, if_false, List.cons_append, List.nil_append]
      rw [ofUtf16?_pair (by rw [h1]; simp [isLeading]; omega)
        (by rw [h2]; simp [isTrailing]; omega), ih, h1, h2, hj]
      simp

end Wireform.Text
