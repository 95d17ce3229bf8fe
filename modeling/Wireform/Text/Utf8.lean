/-!
# UTF-8

* `ofUtf8?_utf8`, `utf8_of_ofUtf8?`: the encoding is injective, and reading accepts nothing else.
-/

namespace Wireform.Text

/-- The UTF-8 bytes of a text. -/
def utf8 (s : String) : List UInt8 := s.toUTF8.data.toList

/-- The text with given UTF-8 bytes. -/
def ofUtf8? (bytes : List UInt8) : Option String := String.fromUTF8? ⟨bytes.toArray⟩

/-- The character in front of some bytes, and how many bytes it takes. -/
def firstOfUtf8? (bytes : List UInt8) : Option (Char × Nat) :=
  [1, 2, 3, 4].findSome? fun count =>
    match (ofUtf8? (bytes.take count)).map String.toList with
    | some [c] => if count ≤ bytes.length then some (c, count) else none
    | _ => none

/-- The text in front of some bytes as far as they are UTF-8, and whether that is all of them.
The bound counts characters. -/
def frontOfUtf8 : Nat → List UInt8 → List Char × Bool
  | _, [] => ([], true)
  | 0, _ => ([], false)
  | bound + 1, bytes =>
    match firstOfUtf8? bytes with
    | some (c, count) =>
      let (front, complete) := frontOfUtf8 bound (bytes.drop count)
      (c :: front, complete)
    | none => ([], false)

theorem ofUtf8?_utf8 (s : String) : ofUtf8? (utf8 s) = some s := by
  have h : (⟨(utf8 s).toArray⟩ : ByteArray) = s.toByteArray := by simp [utf8]
  unfold ofUtf8? String.fromUTF8?
  rw [h, dif_pos s.isValidUTF8]
  rfl

theorem utf8_of_ofUtf8? {bytes : List UInt8} {s : String} (h : ofUtf8? bytes = some s) :
    utf8 s = bytes := by
  simp only [ofUtf8?, String.fromUTF8?] at h
  split at h
  · obtain rfl := Option.some.inj h
    simp [utf8, String.fromUTF8]
  · cases h

end Wireform.Text
