import Mathlib.Data.List.Forall2
import Wireform.Codec.Failure
import Wireform.Json.Equality

/-!
# Values with other members

The members of an object may stand in another order, and there may be more of them. Which ones may
come in is said for each place in the value: a rearrangement of a value adds nothing else, and
permutes members at every depth.

* `Json.Rearranged`: the relation.
* `Json.Rearranged.member?`, `Json.Rearranged.item?`: what is found under a name that is not new, or
  at a position, has been rearranged too.
* `Json.same_rearranged`, `Json.agree_rearranged`: a rearrangement that adds nothing is equal to
  the same values as before.
-/

namespace Wireform.Json

/-- The members that may be added: a place in a value, and the name. -/
abbrev Additions := List PathStep → String → Prop

/-- The members that may be added to a part. -/
def Additions.inside (adds : Additions) (step : PathStep) : Additions :=
  fun place => adds (step :: place)

/-- The members that may be added to the items behind the first one. -/
def Additions.behind (adds : Additions) : Additions
  | .index position :: place, name => adds (.index (position + 1) :: place) name
  | _, _ => False

/-- No members at all. -/
def Additions.none : Additions := fun _ _ => False

/-- The second value is the first one with the members of objects in any order, and with more of
them where that is allowed. -/
inductive Rearranged : Additions → Json → Json → Prop where
  | null {adds : Additions} : Rearranged adds .null .null
  | bool {adds : Additions} (value : Bool) : Rearranged adds (.bool value) (.bool value)
  | number {adds : Additions} (value : Number) : Rearranged adds (.number value) (.number value)
  | string {adds : Additions} (text : String) : Rearranged adds (.string text) (.string text)
  | array {adds : Additions} {items items' : List Json} (length : items.length = items'.length)
      (related : ∀ position item item', items[position]? = some item →
        items'[position]? = some item' → Rearranged (adds.inside (.index position)) item item') :
      Rearranged adds (.array items) (.array items')
  | object {adds : Additions} {members kept added members' : Assoc Json}
      (keys : kept.keys = members.keys)
      (related : ∀ name value value', (name, value) ∈ members → (name, value') ∈ kept →
        Rearranged (adds.inside (.key name)) value value')
      (perm : members'.Perm (kept ++ added)) (allowed : ∀ name ∈ added.keys, adds [] name)
      (nodup : members'.keys.Nodup) :
      Rearranged adds (.object members) (.object members')

namespace Rearranged

variable {adds more : Additions} {value value' : Json} {items items' : List Json}
  {members members' : Assoc Json}

/-- What may be added may be added if more may. -/
theorem mono (h : Rearranged adds value value')
    (hle : ∀ place name, adds place name → more place name) :
    Rearranged more value value' := by
  induction h generalizing more with
  | null => exact .null
  | bool b => exact .bool b
  | number n => exact .number n
  | string text => exact .string text
  | array length _ ih =>
    exact .array length fun position item item' h h' =>
      ih position item item' h h' fun place name => hle (.index position :: place) name
  | object keys _ perm allowed nodup ih =>
    exact .object keys (fun name value value' h h' => ih name value value' h h' fun place other =>
      hle (.key name :: place) other) perm
        (fun name hname => hle [] name (allowed name hname)) nodup

/-- Members in another order, with new ones among them. -/
theorem of_perm {added : Assoc Json}
    (hparts : ∀ name value, (name, value) ∈ members →
      Rearranged (adds.inside (.key name)) value value)
    (perm : members'.Perm (members ++ added)) (allowed : ∀ name ∈ added.keys, adds [] name)
    (nodup : members'.keys.Nodup) : Rearranged adds (.object members) (.object members') := by
  have hall : (members ++ added).keys.Nodup := (perm.map Prod.fst).nodup_iff.1 nodup
  refine .object rfl (fun name value value' hvalue hvalue' => ?_) perm allowed nodup
  have hsame := (Assoc.get?_of_mem hall (List.mem_append_left added hvalue)).symm.trans
    (Assoc.get?_of_mem hall (List.mem_append_left added hvalue'))
  obtain rfl := Option.some.inj hsame
  exact hparts name value hvalue

/-- An object with one member, whose value is rearranged. -/
theorem member {name : String} (h : Rearranged (adds.inside (.key name)) value value') :
    Rearranged adds (.object [(name, value)]) (.object [(name, value')]) := by
  refine @Rearranged.object adds _ [(name, value')] [] _ rfl
    (fun other found found' hfound hfound' => ?_) (.refl _)
    (fun _ hnone => nomatch hnone) (List.pairwise_singleton _ name)
  obtain ⟨rfl, rfl⟩ := Prod.mk.inj (List.mem_singleton.1 hfound)
  obtain ⟨-, rfl⟩ := Prod.mk.inj (List.mem_singleton.1 hfound')
  exact h

/-! ### Parts -/

/-- A value that is `null` stays so, and no other one becomes `null`. -/
theorem isNull_eq (h : Rearranged adds value value') : value.isNull = value'.isNull := by
  cases h <;> rfl

/-- What is found under a name that may not be added has been rearranged. -/
theorem member? (h : Rearranged adds value value') {name : String} (hname : ¬adds [] name) :
    Option.Rel (Rearranged (adds.inside (.key name))) (value.member? name)
      (value'.member? name) := by
  cases h with
  | @object _ members kept added members' keys related perm allowed nodup =>
    have hall : (kept ++ added).keys.Nodup := (perm.map Prod.fst).nodup_iff.1 nodup
    have hnew : Assoc.get? added name = none :=
      (Assoc.get?_eq_none_iff added name).2 fun hmem => hname (allowed name hmem)
    change Option.Rel _ (Assoc.get? members name) (Assoc.get? members' name)
    rw [Assoc.get?_of_perm perm nodup, Assoc.get?_append, hnew, Option.or_none]
    cases hvalue : Assoc.get? members name with
    | none =>
      rw [Assoc.get?_eq_none_iff, ← keys, ← Assoc.get?_eq_none_iff] at hvalue
      rw [hvalue]
      exact .none
    | some value =>
      cases hvalue' : Assoc.get? kept name with
      | none =>
        rw [Assoc.get?_eq_none_iff, keys, ← Assoc.get?_eq_none_iff, hvalue] at hvalue'
        cases hvalue'
      | some value' =>
        exact .some
          (related name value value' (Assoc.mem_of_get? hvalue) (Assoc.mem_of_get? hvalue'))
  | null | bool | number | string | array => exact .none

/-- What is found at a position has been rearranged. -/
theorem item? (h : Rearranged adds value value') (position : ℕ) :
    Option.Rel (Rearranged (adds.inside (.index position))) (value.item? position)
      (value'.item? position) := by
  cases h with
  | @array _ items items' length related =>
    change Option.Rel _ items[position]? items'[position]?
    cases hitem : items[position]? with
    | none =>
      rw [List.getElem?_eq_none_iff, length, ← List.getElem?_eq_none_iff] at hitem
      rw [hitem]
      exact .none
    | some item =>
      cases hitem' : items'[position]? with
      | none =>
        rw [List.getElem?_eq_none_iff, ← length, ← List.getElem?_eq_none_iff, hitem] at hitem'
        cases hitem'
      | some item' => exact .some (related position item item' hitem hitem')
  | null | bool | number | string | object => exact .none

/-- Items are rearranged one by one. -/
theorem forall₂_items {R : Json → Json → Prop} (h : Rearranged adds (.array items) (.array items'))
    (hR : ∀ position item item', items[position]? = some item →
      Rearranged (adds.inside (.index position)) item item' → R item item') :
        List.Forall₂ R items items' := by
  cases h with
  | array length related =>
    refine List.forall₂_iff_get.2 ⟨length, fun position hlt hlt' => ?_⟩
    have hitem := List.getElem?_eq_getElem hlt
    exact hR position _ _ hitem (related position _ _ hitem (List.getElem?_eq_getElem hlt'))

/-- The items behind the first one have been rearranged. -/
theorem behind {first first' : Json}
    (h : Rearranged adds (.array (first :: items)) (.array (first' :: items'))) :
    Rearranged adds.behind (.array items) (.array items') := by
  cases h with
  | array length related =>
    exact .array (Nat.succ.inj length) fun position item item' => related (position + 1) item item'

/-- Without new members there are as many as before. -/
theorem length_members (h : Rearranged .none (.object members) (.object members')) :
    members.length = members'.length := by
  cases h with
  | @object _ _ kept added _ keys _ perm allowed _ =>
    have hnone : added = [] := by
      cases added with
      | nil => rfl
      | cons entry _ => exact (allowed entry.1 List.mem_cons_self).elim
    have hkept : (kept.map Prod.fst).length = (members.map Prod.fst).length :=
      congrArg List.length keys
    rw [List.length_map, List.length_map] at hkept
    rw [perm.length_eq, hnone, List.append_nil, hkept]

end Rearranged

/-! ### Equality -/

mutual

/-- **A rearrangement that adds nothing is equal to the same values.** -/
theorem same_rearranged : ∀ (known : Json) {value value' : Json}, Rearranged .none value value' →
    known.same value = known.same value'
  | .array knowns, _, _, h => by
    cases h with
    | array length related =>
      have hitems := (Rearranged.array length related).forall₂_items (R := Rearranged .none)
        fun _ _ _ _ hitem => hitem
      simp only [same]
      exact sameItems_rearranged knowns hitems
    | null | bool | number | string | object => rfl
  | .object knowns, _, _, h => by
    cases h with
    | object keys related perm allowed nodup =>
      have hobject := Rearranged.object keys related perm allowed nodup
      simp only [same]
      rw [hobject.length_members, sameMembers_rearranged knowns fun name => hobject.member? id]
    | null | bool | number | string | array => rfl
  | .null, _, _, h | .bool _, _, _, h | .number _, _, _, h | .string _, _, _,
    h => by cases h <;> rfl

theorem sameItems_rearranged : ∀ (knowns : List Json) {items items' : List Json},
    List.Forall₂ (Rearranged .none) items items' → sameItems knowns items = sameItems knowns items'
  | [], _, _, .nil | [], _, _, .cons _ _ => rfl
  | _ :: _, _, _, .nil => rfl
  | known :: knowns, _, _, .cons h hrest => by
    simp only [sameItems]
    rw [same_rearranged known h, sameItems_rearranged knowns hrest]

theorem sameMembers_rearranged : ∀ (knowns : List (String × Json)) {members members' : Assoc Json},
    (∀ name, Option.Rel (Rearranged .none) (Assoc.get? members name) (Assoc.get? members' name)) →
      sameMembers knowns members = sameMembers knowns members'
  | [], _, _, _ => rfl
  | (name, known) :: knowns, members, members', h => by
    simp only [sameMembers]
    rw [sameMembers_rearranged knowns h]
    have hname := h name
    revert hname
    cases Assoc.get? members name <;> cases Assoc.get? members' name <;> intro hname
    · rfl
    · cases hname
    · cases hname
    · cases hname with
      | some hvalue =>
        simp only
        rw [same_rearranged known hvalue]

end

/-- Nor is it told apart by an equality that takes numbers by value. -/
theorem agree_rearranged {value value' : Json} (known : Json) (h : Rearranged .none value value') :
    known.agree value = known.agree value' := by
  cases h with
  | null | bool | number | string => rfl
  | array length related =>
    cases known <;> exact same_rearranged _ (.array length related)
  | object keys related perm allowed nodup =>
    cases known <;> exact same_rearranged _ (.object keys related perm allowed nodup)

end Wireform.Json
