import Mathlib.Data.List.Find
import Wireform.Layout
import Wireform.Proofs.Binary64.Equality
import Wireform.Proofs.Json.RoundTrip
import Wireform.Proofs.Primitive.Integers

/-!
# Numbers agree by value, up to rounding

Equality of JSON values takes numbers by value: integers are compared as integers, and anything with
a double as doubles. An integer that is no double is rounded for this, and then agrees with a number
that it is not. But for that, it is an equivalence, and how a number is written plays no part.

* `Number.agree_iff`: numbers agree if they are equal, or one is rounded to the other.
* `Json.SameStructure`: equality of everything else, which `Json.same` decides.
* `Json.agree_equivalence`: **an equivalence but for rounding, and so is what is searched by it**.
* `Json.agree_intransitive`: two integers agree with a double, and not with each other.
-/

namespace Wireform

/-! ### Numbers -/

namespace Number

open Binary64 (unitsPerOne)

/-- The first number is an integer that is no double, and the second is the double nearest to it. -/
inductive RoundsTo : Number → Number → Prop where
  | intro {v : ℤ} {fits} {x : Binary64} {finite} (moved : v * unitsPerOne ≠ x.toUnits)
      (nearest : (Binary64.ofInt v).toUnits = x.toUnits) :
      RoundsTo (.integer v fits) (.float x finite)

instance decidableRoundsTo : (m n : Number) → Decidable (m.RoundsTo n)
  | .integer v _, .float x _ =>
    decidable_of_iff (v * unitsPerOne ≠ x.toUnits ∧ (Binary64.ofInt v).toUnits = x.toUnits)
      ⟨fun h => ⟨h.1, h.2⟩, fun ⟨moved, nearest⟩ => ⟨moved, nearest⟩⟩
  | .integer _ _, .integer _ _ | .float _ _, _ => .isFalse nofun

/-- Nothing is rounded to an integer. -/
theorem not_roundsTo_integer (m : Number) (w : ℤ) (fits') : ¬m.RoundsTo (.integer w fits') := by
  rintro ⟨⟩

/-- No double is rounded. -/
theorem not_float_roundsTo (x : Binary64) (finite) (n : Number) :
    ¬(Number.float x finite).RoundsTo n := by
  rintro ⟨⟩

variable {v w : ℤ} {fits : -9223372036854775808 ≤ v ∧ v < 18446744073709551616}
  {fits' : -9223372036854775808 ≤ w ∧ w < 18446744073709551616}

theorem toSigned?_integer :
    (Number.integer v fits).toSigned? = if v < 9223372036854775808 then some v else none := rfl

/-- Rounding does not take integers of different signs to one double. -/
theorem not_eq_of_neg (hv : v < 0) (hw : 0 < w) (fits : -9223372036854775808 ≤ v)
    (fits' : w < 18446744073709551616) :
    ¬(Binary64.ofInt v).eq (.ofInt w) = true ∧ ¬(Binary64.ofInt w).eq (.ofInt v) = true := by
  have hfinite := Binary64.isFinite_ofInt (n := v) (by omega)
  have hfinite' := Binary64.isFinite_ofInt (n := w) (by omega)
  have hnonpos := Binary64.toUnits_ofInt_nonpos hv
  have hpos := Binary64.toUnits_ofInt_pos (by omega) hw
  rw [Binary64.eq_iff hfinite hfinite', Binary64.eq_iff hfinite' hfinite]
  omega

/-- Unless both numbers are signed words, they are compared as unsigned ones. -/
theorem agree_of_unsigned {m n : Number} {x y : ℕ} (h : m.toSigned? = none ∨ n.toSigned? = none)
    (hm : m.toUnsigned? = some x) (hn : n.toUnsigned? = some y) : m.agree n = decide (x = y) := by
  rcases h with h | h <;> simp [agree, h, hm, hn]

/-- Unless both numbers are signed words, or both are unsigned ones, they are compared as
doubles. -/
theorem agree_of_double {m n : Number} (h : m.toSigned? = none ∨ n.toSigned? = none)
    (h' : m.toUnsigned? = none ∨ n.toUnsigned? = none) :
    m.agree n = m.toBinary64.eq n.toBinary64 := by
  rcases h with h | h <;> rcases h' with h' | h' <;> simp [agree, h, h']

/-- **Integers are compared exactly**, also if one fits a signed word only and the other
an unsigned one only. -/
theorem agree_integer : (Number.integer v fits).agree (.integer w fits') = true ↔ v = w := by
  by_cases hsigned : v < 9223372036854775808 ∧ w < 9223372036854775808
  · simp only [agree, toSigned?_integer, if_pos hsigned.1, if_pos hsigned.2, decide_eq_true_eq]
  · have hwide : (Number.integer v fits).toSigned? = none ∨
        (Number.integer w fits').toSigned? = none :=
      (not_and_or.1 hsigned).imp (fun hv => if_neg hv) fun hw => if_neg hw
    rcases Int.lt_or_le v 0 with hv | hv
    -- a negative integer is compared with one beyond the signed words as a double
    · have hne := (not_eq_of_neg (w := w) hv (by omega) fits.1 fits'.2).1
      rw [agree_of_double hwide (.inl (if_neg (Int.not_le.2 hv)))]
      exact iff_of_false hne (by omega)
    · rcases Int.lt_or_le w 0 with hw | hw
      · have hne := (not_eq_of_neg (v := w) hw (by omega) fits'.1 fits.2).2
        rw [agree_of_double hwide (.inr (if_neg (Int.not_le.2 hw)))]
        exact iff_of_false hne (by omega)
      · rw [agree_of_unsigned hwide (if_pos hv) (if_pos hw), decide_eq_true_eq]
        omega

/-- A double is the nearest one to an integer if it is the integer, or else the
integer is rounded to it. -/
theorem toUnits_ofInt_iff {x : Binary64}
    (fits : -9223372036854775808 ≤ v ∧ v < 18446744073709551616) (finite : x.isFinite = true) :
    (Binary64.ofInt v).toUnits = x.toUnits ↔
    v * unitsPerOne = x.toUnits ∨ (Number.integer v fits).RoundsTo (.float x finite) := by
  constructor
  · intro hnearest
    by_cases hexact : v * unitsPerOne = x.toUnits
    · exact .inl hexact
    · exact .inr ⟨hexact, hnearest⟩
  · rintro (hexact | ⟨-, hnearest⟩)
    · rw [Binary64.toUnits_ofInt finite hexact.symm, hexact]
    · exact hnearest

/-- **Numbers agree** if and only if their values are equal, or one is rounded to the other. -/
theorem agree_iff {m n : Number} :
    m.agree n = true ↔ m.toUnits = n.toUnits ∨ m.RoundsTo n ∨ n.RoundsTo m := by
  cases m with
  | integer v fits =>
    cases n with
    | integer w fits' =>
      rw [agree_integer]
      simp only [toUnits, units_inj, not_roundsTo_integer, or_false]
    | float x finite =>
      rw [agree_of_double (.inr rfl) (.inr rfl), toBinary64, toBinary64,
        Binary64.eq_iff (Binary64.isFinite_ofInt (by omega)) finite, toUnits_ofInt_iff fits finite]
      simp only [toUnits, not_float_roundsTo, or_false]
  | float x finite =>
    rw [agree_of_double (.inl rfl) (.inl rfl)]
    cases n with
    | integer v fits =>
      rw [toBinary64, toBinary64, Binary64.eq_iff finite (Binary64.isFinite_ofInt (by omega)),
        eq_comm, toUnits_ofInt_iff fits finite, eq_comm (a := v * unitsPerOne)]
      simp only [toUnits, not_float_roundsTo, false_or]
    | float y finite' =>
      rw [toBinary64, toBinary64, Binary64.eq_iff finite finite']
      simp only [toUnits, not_float_roundsTo, or_false]

theorem agree_comm (m n : Number) : m.agree n = n.agree m := by
  rw [Bool.eq_iff_iff, agree_iff, agree_iff, eq_comm, or_comm (a := m.RoundsTo n)]

/-- Whether a number is rounded depends on its value only. -/
theorem RoundsTo.congr {m n k : Number} (h : n.RoundsTo k) (heq : m.toUnits = n.toUnits) :
    m.RoundsTo k := by
  obtain ⟨moved, nearest⟩ := h
  cases m with
  | integer w fits' =>
    obtain rfl := units_inj.1 heq
    exact ⟨moved, nearest⟩
  | float y finite' =>
    -- a number that can be written as a double is its own nearest double
    rw [← nearest, Binary64.toUnits_ofInt finite' heq] at moved
    exact absurd rfl moved

theorem RoundsTo.toUnits_eq {m n k : Number} (h : n.RoundsTo m) (h' : n.RoundsTo k) :
    m.toUnits = k.toUnits := by
  obtain ⟨-, nearest⟩ := h
  obtain ⟨-, nearest'⟩ := h'
  exact nearest.symm.trans nearest'

/-- Agreement goes on over a number in the middle, unless one of the others has been rounded to
it. -/
theorem agree_trans {m n k : Number} (hmn : m.agree n = true) (hnk : n.agree k = true)
    (hm : ¬m.RoundsTo n) (hk : ¬k.RoundsTo n) : m.agree k = true := by
  rw [agree_iff] at *
  rcases hmn with hmn | hmn | hmn <;> rcases hnk with hnk | hnk | hnk
  · exact .inl (hmn.trans hnk)
  · exact .inr (.inl (hnk.congr hmn))
  · exact absurd hnk hk
  · exact absurd hmn hm
  · exact absurd hmn hm
  · exact absurd hmn hm
  · exact .inr (.inr (hmn.congr hnk.symm))
  · exact .inl (hmn.toUnits_eq hnk)
  · exact absurd hnk hk

/-- A number that none of two equal ones is rounded to, nor the other way about,
agrees with both or none. -/
theorem agree_congr {m n k : Number} (heq : m.toUnits = n.toUnits) (hm : ¬k.RoundsTo m)
    (hn : ¬k.RoundsTo n) :
    k.agree m = k.agree n := by
  have hround : m.RoundsTo k ↔ n.RoundsTo k := ⟨fun h => h.congr heq.symm, fun h => h.congr heq⟩
  rw [Bool.eq_iff_iff, agree_iff, agree_iff, heq, hround]
  simp only [hm, hn]

end Number

/-! ### Values -/

/-- A name is there if and only if something is found under it. -/
theorem Assoc.mem_keys_iff {α : Type} {entries : Assoc α} {name : String} :
    name ∈ entries.keys ↔ ∃ value, entries.get? name = some value := by
  rw [← Option.ne_none_iff_exists', ne_eq, get?_eq_none_iff, Decidable.not_not]

namespace Json

/-- Equal in structure: numbers of one kind by value, items one by one, and members by their
names. -/
inductive SameStructure : Json → Json → Prop where
  | null : SameStructure .null .null
  | bool (value : Bool) : SameStructure (.bool value) (.bool value)
  | integer {v : ℤ} {fits fits'} :
      SameStructure (.number (.integer v fits)) (.number (.integer v fits'))
  | float {x y : Binary64} {finite finite'} (value : x.toUnits = y.toUnits) :
      SameStructure (.number (.float x finite)) (.number (.float y finite'))
  | string (text : String) : SameStructure (.string text) (.string text)
  | array {items items' : List Json} (length : items.length = items'.length)
      (related : ∀ (position : ℕ) (item item' : Json), items[position]? = some item →
        items'[position]? = some item' → SameStructure item item') :
      SameStructure (.array items) (.array items')
  | object {members members' : Assoc Json}
      (names : ∀ name, name ∈ members.keys ↔ name ∈ members'.keys)
      (related : ∀ name value value', members.get? name = some value →
        members'.get? name = some value' → SameStructure value value') :
      SameStructure (.object members) (.object members')

namespace SameStructure

mutual

theorem refl : ∀ value : Json, SameStructure value value
  | .null => .null
  | .bool value => .bool value
  | .number (.integer _ _) => .integer
  | .number (.float _ _) => .float rfl
  | .string text => .string text
  | .array items => .array rfl fun position item item' h h' => by
    obtain rfl := Option.some.inj (h.symm.trans h')
    exact refl_items items (List.mem_of_getElem? h)
  | .object members => .object (fun _ => Iff.rfl) fun name value value' h h' => by
    obtain rfl := Option.some.inj (h.symm.trans h')
    exact refl_members members (Assoc.mem_of_get? h)

theorem refl_items : ∀ (items : List Json) {item : Json}, item ∈ items → SameStructure item item
  | [], _, hmem => absurd hmem List.not_mem_nil
  | first :: rest, _, hmem => by
    rcases List.mem_cons.1 hmem with heq | hrest
    · rw [heq]
      exact refl first
    · exact refl_items rest hrest

theorem refl_members : ∀ (members : List (String × Json)) {name : String} {value : Json},
    (name, value) ∈ members → SameStructure value value
  | [], _, _, hmem => absurd hmem List.not_mem_nil
  | (_, first) :: rest, _, _, hmem => by
    rcases List.mem_cons.1 hmem with heq | hrest
    · rw [(Prod.mk.inj heq).2]
      exact refl first
    · exact refl_members rest hrest

end

theorem symm {a b : Json} (h : SameStructure a b) : SameStructure b a := by
  induction h with
  | null => exact .null
  | bool value => exact .bool value
  | integer => exact .integer
  | float value => exact .float value.symm
  | string text => exact .string text
  | array length _ ih =>
    exact .array length.symm fun position item item' h h' => ih position item' item h' h
  | object names _ ih =>
    exact .object (fun name => (names name).symm)
      fun name value value' h h' => ih name value' value h' h

theorem trans {a b c : Json} (hab : SameStructure a b) (hbc : SameStructure b c) :
    SameStructure a c := by
  induction hab generalizing c with
  | null | bool _ | string _ => exact hbc
  | integer =>
    cases hbc
    exact .integer
  | float value =>
    cases hbc with
    | float value' => exact .float (value.trans value')
  | array length _ ih =>
    cases hbc with
    | array length' related' =>
      refine .array (length.trans length') fun position item item'' h h'' => ?_
      have hlt : position < _ := (List.getElem?_eq_some_iff.1 h).1
      have hmiddle := List.getElem?_eq_getElem (length ▸ hlt)
      exact ih position item _ h hmiddle (related' position _ item'' hmiddle h'')
  | object names _ ih =>
    cases hbc with
    | object names' related' =>
      refine .object (fun name => (names name).trans (names' name))
        fun name value value'' h h'' => ?_
      obtain ⟨middle, hmiddle⟩ :=
        Assoc.mem_keys_iff.1 ((names name).1 (Assoc.mem_keys_iff.2 ⟨value, h⟩))
      exact ih name value middle h hmiddle (related' name middle value'' hmiddle h'')

theorem array_iff {items items' : List Json} :
    SameStructure (.array items) (.array items') ↔ List.Forall₂ SameStructure items items' := by
  rw [List.forall₂_iff_get]
  constructor
  · intro h
    cases h with
    | array length related =>
      exact ⟨length, fun position h h' =>
        related position _ _ (List.getElem?_eq_getElem h) (List.getElem?_eq_getElem h')⟩
  · rintro ⟨length, related⟩
    refine .array length fun position item item' h h' => ?_
    obtain ⟨hlt, rfl⟩ := List.getElem?_eq_some_iff.1 h
    obtain ⟨hlt', rfl⟩ := List.getElem?_eq_some_iff.1 h'
    exact related position hlt hlt'

/-- Objects have the same structure if they have as many members, and each one has its partner. -/
theorem object_iff {members members' : Assoc Json} (hnodup : members.keys.Nodup)
    (hnodup' : members'.keys.Nodup) :
    SameStructure (.object members) (.object members') ↔ members.length = members'.length ∧
      ∀ member ∈ members, ∃ other, members'.get? member.1 = some other ∧
        SameStructure member.2 other := by
  have hlength : members.keys.length = members.length := List.length_map _
  have hlength' : members'.keys.length = members'.length := List.length_map _
  constructor
  · intro h
    cases h with
    | object names related =>
      have hperm := (List.perm_ext_iff_of_nodup hnodup hnodup').2 names
      refine ⟨by rw [← hlength, ← hlength', hperm.length_eq], fun ⟨name, value⟩ hmem => ?_⟩
      obtain ⟨other, hother⟩ := Assoc.mem_keys_iff.1 ((names name).1 (Assoc.mem_keys hmem))
      exact ⟨other, hother, related name value other (Assoc.get?_of_mem hnodup hmem) hother⟩
  · rintro ⟨length, partners⟩
    have hsubset : members.keys ⊆ members'.keys := by
      intro name hname
      obtain ⟨value, hvalue⟩ := Assoc.mem_keys_iff.1 hname
      obtain ⟨other, hother, -⟩ := partners (name, value) (Assoc.mem_of_get? hvalue)
      exact Assoc.mem_keys_iff.2 ⟨other, hother⟩
    -- all names are different, so as many on both sides are the same ones
    have hperm := (hnodup.subperm hsubset).perm_of_length_le (by omega)
    refine .object (fun name => hperm.mem_iff) fun name value value' h h' => ?_
    obtain ⟨other, hother, hsame⟩ := partners (name, value) (Assoc.mem_of_get? h)
    obtain rfl := Option.some.inj (hother.symm.trans h')
    exact hsame

end SameStructure

theorem number_same_iff (m n : Number) :
    m.same n = true ↔ SameStructure (.number m) (.number n) := by
  cases m with
  | integer v _ =>
    cases n with
    | integer w _ =>
      simp only [Number.same, decide_eq_true_eq]
      constructor
      · rintro rfl
        exact .integer
      · rintro ⟨⟩
        rfl
    | float _ _ => exact iff_of_false Bool.false_ne_true (by rintro ⟨⟩)
  | float x finite =>
    cases n with
    | integer _ _ => exact iff_of_false Bool.false_ne_true (by rintro ⟨⟩)
    | float y finite' =>
      rw [Number.same, Binary64.eq_iff finite finite']
      constructor
      · exact .float
      · rintro ⟨⟩
        assumption

mutual

/-- **Equality decides whether the structure is the same**, for values in which no name is
repeated. -/
theorem same_iff : ∀ {a b : Json}, a.collapse = a → b.collapse = b →
    (same a b = true ↔ SameStructure a b)
  | .null, b, _, _ => by
    cases b with
    | null => exact iff_of_true rfl .null
    | _ => exact iff_of_false nofun nofun
  | .bool x, b, _, _ => by
    cases b with
    | bool y =>
      simp only [same, decide_eq_true_eq]
      exact ⟨fun h => h ▸ .bool x, fun h => by cases h; rfl⟩
    | _ => exact iff_of_false nofun nofun
  | .number m, b, _, _ => by
    cases b with
    | number n => exact number_same_iff m n
    | _ => exact iff_of_false nofun nofun
  | .string s, b, _, _ => by
    cases b with
    | string t =>
      simp only [same, decide_eq_true_eq]
      exact ⟨fun h => h ▸ .string s, fun h => by cases h; rfl⟩
    | _ => exact iff_of_false nofun nofun
  | .array items, b, ha, hb => by
    cases b with
    | array items' =>
      rw [same, SameStructure.array_iff]
      exact sameItems_iff (array.inj ha) (array.inj hb)
    | _ => exact iff_of_false nofun nofun
  | .object members, b, ha, hb => by
    cases b with
    | object members' =>
      obtain ⟨hnodup, hparts⟩ := of_collapse_object ha
      obtain ⟨hnodup', hparts'⟩ := of_collapse_object hb
      rw [same, SameStructure.object_iff hnodup hnodup', Bool.and_eq_true, decide_eq_true_eq]
      exact and_congr_right fun _ => sameMembers_iff hparts hparts'
    | _ => exact iff_of_false nofun nofun

theorem sameItems_iff : ∀ {items items' : List Json}, collapseItems items = items →
    collapseItems items' = items' →
    (sameItems items items' = true ↔ List.Forall₂ SameStructure items items')
  | [], [], _, _ => iff_of_true rfl .nil
  | [], _ :: _, _, _ | _ :: _, [], _, _ => iff_of_false nofun nofun
  | a :: rest, b :: rest', ha, hb => by
    obtain ⟨ha, hrest⟩ := List.cons.inj ha
    obtain ⟨hb, hrest'⟩ := List.cons.inj hb
    rw [sameItems, Bool.and_eq_true, List.forall₂_cons]
    exact and_congr (same_iff ha hb) (sameItems_iff hrest hrest')

theorem sameMembers_iff : ∀ {members others : List (String × Json)},
    (∀ member ∈ members, member.2.collapse = member.2) →
    (∀ member ∈ others, member.2.collapse = member.2) → (sameMembers members others = true ↔
      ∀ member ∈ members, ∃ other, Assoc.get? others member.1 = some other ∧
        SameStructure member.2 other)
  | [], _, _, _ => iff_of_true rfl fun _ hmem => absurd hmem List.not_mem_nil
  | (name, value) :: rest, others, ha, hb => by
    obtain ⟨hvalue, hrest⟩ := List.forall_mem_cons.1 ha
    rw [sameMembers, Bool.and_eq_true, List.forall_mem_cons]
    refine and_congr ?_ (sameMembers_iff hrest hb)
    cases hother : Assoc.get? others name with
    | none => exact iff_of_false nofun nofun
    | some other =>
      have hsame := same_iff hvalue (hb _ (Assoc.mem_of_get? hother))
      simpa using hsame

end

/-! ### Agreement -/

/-- Both values are numbers, and the first one is rounded to the second. -/
inductive RoundsTo : Json → Json → Prop where
  | number {m n : Number} (h : m.RoundsTo n) : RoundsTo (.number m) (.number n)

instance decidableRoundsTo : (a b : Json) → Decidable (RoundsTo a b)
  | .number m, .number n => decidable_of_iff (m.RoundsTo n) ⟨.number, fun ⟨h⟩ => h⟩
  | .null, _ | .bool _, _ | .string _, _ | .array _, _ | .object _, _ => .isFalse nofun
  | .number _, .null | .number _, .bool _ | .number _, .string _ | .number _,
    .array _ | .number _, .object _ =>
    .isFalse nofun

/-- Anything but two numbers agrees if the structure is the same. -/
theorem agree_iff_sameStructure {a b : Json} (ha : a.collapse = a) (hb : b.collapse = b)
    (h : ∀ m n, a = .number m → b ≠ .number n) : a.agree b = true ↔ SameStructure a b := by
  rw [← same_iff ha hb]
  cases a with
  | number m =>
    cases b with
    | number n => exact absurd rfl (h m n rfl)
    | _ => rfl
  | _ => rfl

/-- Two values that agree are two numbers, or neither is one. -/
theorem eq_number_of_agree {a b : Json} {m : Number} (h : a.agree b = true) :
    (a = .number m → ∃ n, b = .number n) ∧ (b = .number m → ∃ n, a = .number n) := by
  constructor <;> rintro rfl
  · cases b with
    | number n => exact ⟨n, rfl⟩
    | _ => cases h
  · cases a with
    | number n => exact ⟨n, rfl⟩
    | _ => cases h

theorem agree_refl {a : Json} (ha : a.collapse = a) : a.agree a = true := by
  by_cases h : ∃ m, a = .number m
  · obtain ⟨m, rfl⟩ := h
    exact Number.agree_iff.2 (.inl rfl)
  · exact (agree_iff_sameStructure ha ha fun m _ hm => absurd ⟨m, hm⟩ h).2 (.refl a)

theorem agree_comm {a b : Json} (ha : a.collapse = a) (hb : b.collapse = b) :
    a.agree b = b.agree a := by
  by_cases h : ∃ m n, a = .number m ∧ b = .number n
  · obtain ⟨m, n, rfl, rfl⟩ := h
    exact Number.agree_comm m n
  · rw [Bool.eq_iff_iff, agree_iff_sameStructure ha hb fun m n hm hn => h ⟨m, n, hm, hn⟩,
      agree_iff_sameStructure hb ha fun n m hn hm => h ⟨m, n, hm, hn⟩]
    exact ⟨.symm, .symm⟩

theorem agree_trans {a b c : Json} (ha : a.collapse = a) (hb : b.collapse = b) (hc : c.collapse = c)
    (hab : a.agree b = true) (hbc : b.agree c = true) (hround : ¬RoundsTo a b)
    (hround' : ¬RoundsTo c b) :
    a.agree c = true := by
  by_cases h : ∃ n, b = .number n
  · obtain ⟨n, rfl⟩ := h
    obtain ⟨m, rfl⟩ := (eq_number_of_agree hab).2 rfl
    obtain ⟨k, rfl⟩ := (eq_number_of_agree hbc).1 rfl
    exact Number.agree_trans hab hbc (fun h => hround (.number h)) fun h => hround' (.number h)
  · have hfirst := (agree_iff_sameStructure ha hb fun _ n _ hn => h ⟨n, hn⟩).1 hab
    have hsecond := (agree_iff_sameStructure hb hc fun n _ hn => absurd ⟨n, hn⟩ h).1 hbc
    refine (agree_iff_sameStructure ha hc fun m k hm _ => ?_).2 (hfirst.trans hsecond)
    exact h ((eq_number_of_agree hab).1 hm)

/-- What agrees with one of two equal numbers agrees with the other, unless it is rounded. -/
theorem agree_number_congr {known : Json} {m n : Number} (heq : m.toUnits = n.toUnits)
    (hm : ¬RoundsTo known (.number m)) (hn : ¬RoundsTo known (.number n)) :
    known.agree (.number m) = known.agree (.number n) := by
  cases known with
  | number k => exact Number.agree_congr heq (fun h => hm (.number h)) fun h => hn (.number h)
  | _ => rfl

/-- **Agreement is an equivalence, up to rounding.** It is reflexive and symmetric, and it is
transitive unless an integer that is no double has been rounded to the value in the middle. Two
numbers agree if and only if their exact values are equal, but for such rounding, and other values
if and only if their structure is the same. So the variant that is searched by its discriminant or
by its tag, and the comparison with a constant, do not depend on how a number is written, unless a
discriminant, a tag or the constant is rounded to it. -/
theorem agree_equivalence {a b c : Json} (ha : a.collapse = a) (hb : b.collapse = b)
    (hc : c.collapse = c) :
    a.agree a = true ∧ a.agree b = b.agree a ∧
    (a.agree b = true → b.agree c = true → ¬RoundsTo a b → ¬RoundsTo c b → a.agree c = true) ∧
    (∀ m n : Number, (Json.number m).agree (.number n) = true ↔
      m.toUnits = n.toUnits ∨ m.RoundsTo n ∨ n.RoundsTo m) ∧
    ((∀ m n, a = .number m → b ≠ .number n) → (a.agree b = true ↔ SameStructure a b)) ∧
    ∀ m n : Number, m.toUnits = n.toUnits →
      (∀ (key : VariantLayout → Json) (variants : List VariantLayout),
        (∀ variant ∈ variants, ¬RoundsTo (key variant) (.number m) ∧
          ¬RoundsTo (key variant) (.number n)) →
        (variants.find? fun variant => (key variant).agree (.number m)) =
          variants.find? fun variant => (key variant).agree (.number n)) ∧
      (∀ constant : Json, constant.collapse = constant →
        ¬RoundsTo constant (.number m) → ¬RoundsTo constant (.number n) →
        (Json.number m).agree constant = (Json.number n).agree constant) := by
  refine ⟨agree_refl ha, agree_comm ha hb, agree_trans ha hb hc, fun m n => Number.agree_iff,
    agree_iff_sameStructure ha hb, fun m n heq =>
      ⟨fun key variants hround => ?_, fun constant hconstant hm hn => ?_⟩⟩
  · refine List.find?_congr fun variant hmem => ?_
    obtain ⟨hm, hn⟩ := hround variant hmem
    exact agree_number_congr heq hm hn
  · rw [agree_comm rfl hconstant, agree_comm rfl hconstant]
    exact agree_number_congr heq hm hn

/-- The integer `2`. -/
def two : Number := .integer 2 (by decide)

/-- The double `2.0`. -/
def twoPointZero : Number := .float ⟨0x4000000000000000⟩ (by decide)

/-- Variants with the discriminants `1` and `2`. -/
def oneOrTwo : List VariantLayout :=
  [⟨"One", .number (.integer 1 (by decide)), .number (.integer 1 (by decide)), ⟨0⟩, false, false⟩,
    ⟨"Two", .number two, .number two, ⟨0⟩, false, false⟩]

/-- `2.0` selects the same variant as `2`. -/
theorem twoPointZero_selects : two.toUnits = twoPointZero.toUnits ∧
    (oneOrTwo.find? fun variant => variant.dispatch.agree (.number twoPointZero)) =
      oneOrTwo.find? fun variant => variant.dispatch.agree (.number two) := by
  have heq : twoPointZero.toUnits = two.toUnits := by decide +kernel
  have hequivalence :=
    agree_equivalence (a := .number two) (b := .number twoPointZero) (c := .number two) rfl rfl rfl
  exact ⟨heq.symm, (hequivalence.2.2.2.2.2 _ _ heq).1 VariantLayout.dispatch oneOrTwo
    (by decide +kernel)⟩

/-- The integer `2 ^ 53`. -/
def twoPow53 : Number := .integer 9007199254740992 (by decide)

/-- The first integer that is no double. -/
def twoPow53Succ : Number := .integer 9007199254740993 (by decide)

/-- The double `2 ^ 53`. -/
def twoPow53Double : Number := .float ⟨0x4340000000000000⟩ (by decide)

/-- Two different integers agree with one double, but not with each other, and the
double is one of them only. -/
theorem agree_intransitive :
    (Json.number twoPow53Succ).agree (.number twoPow53Double) = true ∧
    (Json.number twoPow53Double).agree (.number twoPow53) = true ∧
    (Json.number twoPow53Succ).agree (.number twoPow53) = false ∧
    twoPow53Succ.toUnits ≠ twoPow53Double.toUnits ∧ twoPow53.toUnits = twoPow53Double.toUnits := by
  decide +kernel

end Json

end Wireform
