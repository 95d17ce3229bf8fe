import Wireform.Proofs.Codec.Consumption
import Wireform.Proofs.Codec.RoundTrip
import Wireform.Proofs.Session.Variants

/-!
# Which variant is selected

A value of an enum is written through the first variant whose discriminant agrees with it, and read
through the first one whose tag agrees with what has been read. The compiler does not compare the
variants with each other. So the two choices are the same only if the variants can be told apart.

* `DiscernsTags`, `DiscernsValues`: they can be told apart by their bytes, and by their values.
* `DiscernsTags.reads?_of_writes`: what is written through a variant is read through it.
* `DiscernsValues.writes?_of_reads`: what is read through a variant is written through it.
* `discernsTags_of_canonical`: when tags are canonical, and none agrees with another.
* `discernsValues_of_literals`: when payloads name no variants but by literals of their own.
-/

namespace Wireform

namespace EnumLayout

variable (e : EnumLayout)

/-- The number of the variant through which a value is written. -/
def writes? (value : Json) : Option ℕ :=
  (Codec.discriminant? e value).bind fun found => e.variants.findIdx? (·.dispatch.agree found)

/-- The number of the variant through which what follows the tag is read. -/
def reads? (arena : Arena) (bytes : List UInt8) : Option ℕ :=
  match arena.decode e.tag (.ofBytes bytes) with
  | .ok tag _ => e.variants.findIdx? (·.tag.agree tag)
  | .error .. => none

/-- The key of one variant agrees with a value, and no other. -/
def SinglesOut (key : VariantLayout → Json) (k : ℕ) (value : Json) : Prop :=
  ∀ i variant, e.variants[i]? = some variant → ((key variant).agree value = true ↔ i = k)

/-- No two variants have keys that agree. -/
def Apart (key : VariantLayout → Json) : Prop :=
  ∀ k variant, e.variants[k]? = some variant → e.SinglesOut key k (key variant)

variable {e}

theorem forall_getElem?_iff {p : ℕ → VariantLayout → Prop} :
    (∀ i variant, e.variants[i]? = some variant → p i variant) ↔
      ∀ i : Fin e.variants.length, p i e.variants[i] := by
  refine ⟨fun h i => h i _ (List.getElem?_eq_getElem i.isLt), fun h i variant hi => ?_⟩
  obtain ⟨hlt, rfl⟩ := List.getElem?_eq_some_iff.1 hi
  exact h ⟨i, hlt⟩

instance (key : VariantLayout → Json) (k : ℕ) (value : Json) :
    Decidable (e.SinglesOut key k value) :=
  decidable_of_iff _ forall_getElem?_iff.symm

instance (key : VariantLayout → Json) : Decidable (e.Apart key) :=
  decidable_of_iff _ forall_getElem?_iff.symm

/-- The variant that is singled out is the first that agrees. -/
theorem SinglesOut.findIdx? {key : VariantLayout → Json} {k : ℕ} {value : Json}
    {variant : VariantLayout} (h : e.SinglesOut key k value) (hk : e.variants[k]? = some variant) :
    e.variants.findIdx? (fun variant => (key variant).agree value) = some k := by
  obtain ⟨hlt, hget⟩ := List.getElem?_eq_some_iff.1 hk
  refine List.findIdx?_eq_some_iff_getElem.2
    ⟨hlt, hget ▸ (h k variant hk).2 rfl, fun i hi hagree => ?_⟩
  exact hi.ne ((h i _ (List.getElem?_eq_getElem (hi.trans hlt))).1 hagree)

end EnumLayout

theorem exists_findIdx?_of_find? {α : Type} {p : α → Bool} {items : List α} {item : α}
    (h : items.find? p = some item) : ∃ k, items.findIdx? p = some k ∧ items[k]? = some item := by
  induction items with
  | nil => cases h
  | cons first rest ih =>
    rw [List.find?_cons] at h
    rw [List.findIdx?_cons]
    cases hp : p first with
    | true =>
      rw [hp] at h
      exact ⟨0, rfl, h⟩
    | false =>
      rw [hp] at h
      obtain ⟨k, hk, hitem⟩ := ih h
      exact ⟨k + 1, by simp [hk], hitem⟩

namespace Codec

variable {encode : Encoder} {decode : Decoder} {e : EnumLayout}

theorem discriminant_of_ok {value found : Json} {buffer after : Array UInt8}
    (h : discriminant e value buffer = .ok found after) :
    discriminant? e value = some found ∧ buffer = after := by
  unfold discriminant at h
  unfold discriminant?
  cases hshape : e.shape with
  | object =>
    simp only [hshape] at h
    obtain ⟨members, mid, hmembers, h⟩ := exists_of_bind_ok h
    cases value with
    | object =>
      cases hmembers
      cases hget : Assoc.get? members e.target with
      | some given =>
        simp only [hget] at h
        obtain ⟨rfl, rfl⟩ := EStateM.Result.ok.inj h
        exact ⟨hget, rfl⟩
      | none =>
        simp only [hget] at h
        cases h
    | _ => cases hmembers
  | tuple =>
    simp only [hshape] at h
    obtain ⟨items, mid, hitems, h⟩ := exists_of_bind_ok h
    cases value with
    | array =>
      cases hitems
      cases items with
      | nil => cases h
      | cons first rest =>
        obtain ⟨rfl, rfl⟩ := EStateM.Result.ok.inj h
        exact ⟨rfl, rfl⟩
    | _ => cases hitems

/-- Encoding an enum writes the tag of the variant that the discriminant selects, then its
payload. -/
theorem exists_of_encodeEnum {value : Json} {buffer after : Array UInt8}
    (h : encodeEnum encode e value buffer = .ok () after) :
    ∃ k variant mid, e.writes? value = some k ∧ e.variants[k]? = some variant ∧
      encode e.tag variant.tag buffer = .ok () mid ∧
      encode variant.payload (payloadOf e.shape variant value) mid = .ok () after := by
  unfold encodeEnum at h
  obtain ⟨found, mid, hrun, h⟩ := exists_of_bind_ok h
  obtain ⟨hfound, rfl⟩ := discriminant_of_ok hrun
  cases hvariant : e.variants.find? fun variant => variant.dispatch.agree found with
  | none =>
    simp only [hvariant] at h
    cases h
  | some variant =>
    simp only [hvariant] at h
    obtain ⟨k, hk, hget⟩ := exists_findIdx?_of_find? hvariant
    obtain ⟨⟨⟩, mid', htag, h⟩ := exists_of_bind_ok h
    refine ⟨k, variant, mid', ?_, hget, htag, (inside_ok_iff _).1 h⟩
    rw [EnumLayout.writes?, hfound, Option.bind_some, hk]

/-- Decoding an enum reads a tag, then the payload of the variant that the tag selects. -/
theorem exists_of_decodeEnum {c after : Cursor} {value : Json}
    (h : decodeEnum decode e c = .ok value after) :
    ∃ tag mid k variant payload, decode e.tag c = .ok tag mid ∧
      e.variants.findIdx? (·.tag.agree tag) = some k ∧ e.variants[k]? = some variant ∧
      decode variant.payload mid = .ok payload after ∧
      withDiscriminant e variant payload = .ok value := by
  unfold decodeEnum at h
  obtain ⟨tag, mid, htag, h⟩ := exists_of_bind_ok h
  cases hvariant : e.variants.find? fun variant => variant.tag.agree tag with
  | none =>
    simp only [hvariant] at h
    cases h
  | some variant =>
    simp only [hvariant] at h
    obtain ⟨k, hk, hget⟩ := exists_findIdx?_of_find? hvariant
    obtain ⟨payload, mid', hpayload, h⟩ := exists_of_bind_ok h
    cases hvalue : withDiscriminant e variant payload with
    | ok value' =>
      simp only [hvalue] at h
      obtain ⟨rfl, rfl⟩ := EStateM.Result.ok.inj h
      exact ⟨tag, mid, k, variant, payload, htag, hk, hget, (inside_ok_iff _).1 hpayload, hvalue⟩
    | error cause =>
      simp only [hvalue] at h
      cases h

/-! ### What structs give -/

variable {body : StructLayout} {fields : List FieldLayout} {bits : List Bool} {g g' : Gathered}
  {c after : Cursor}

/-- A literal gives itself. -/
theorem decodeField_literal {field : FieldLayout} {literal : Json}
    (hcontent : field.content = .literal literal) {result : Option Json}
    (h : decodeField decode bits field c = .ok result after) : result = some literal := by
  unfold decodeField at h
  rw [hcontent] at h
  exact (EStateM.Result.ok.inj h).1.symm

/-- A member is gathered by a field under its key; if that is a literal, the literal is the
member. -/
theorem decodeFields_member {name : String} {found : Json}
    (h : decodeFields decode bits g fields c = .ok g' after)
    (hmember : (name, found) ∈ g'.members) :
    (name, found) ∈ g.members ∨ ∃ field ∈ fields, field.place = .key name ∧
      ∀ literal, field.content = .literal literal → found = literal := by
  induction fields generalizing g c with
  | nil =>
    obtain ⟨rfl, -⟩ := EStateM.Result.ok.inj h
    exact Or.inl hmember
  | cons field rest ih =>
    obtain ⟨result, mid, hfield, h⟩ := exists_of_bind_ok h
    rcases ih h with hbefore | ⟨other, hother, hplace, hliteral⟩
    · cases hplace : field.place with
      | key name' =>
        cases result with
        | some value =>
          rw [hplace] at hbefore
          rcases Assoc.mem_put hbefore with hbefore | ⟨rfl, rfl⟩
          · exact Or.inl hbefore
          · exact Or.inr ⟨field, List.mem_cons_self, hplace, fun literal hl =>
              Option.some.inj (decodeField_literal hl hfield)⟩
        | none =>
          rw [hplace] at hbefore
          exact Or.inl hbefore
      | position | detached =>
        rw [hplace] at hbefore
        cases result <;> exact Or.inl hbefore
    · exact Or.inr ⟨other, List.mem_cons_of_mem _ hother, hplace, hliteral⟩

/-- Items that have been gathered stay behind those that are gathered later. -/
theorem decodeFields_items (h : decodeFields decode bits g fields c = .ok g' after) :
    ∃ more, g'.items = more ++ g.items := by
  induction fields generalizing g c with
  | nil =>
    obtain ⟨rfl, -⟩ := EStateM.Result.ok.inj h
    exact ⟨[], rfl⟩
  | cons field rest ih =>
    obtain ⟨result, mid, -, h⟩ := exists_of_bind_ok h
    obtain ⟨more, hmore⟩ := ih h
    have hadd : ∃ one, (g.add field.place result).items = one ++ g.items := by
      cases field.place <;> cases result
      case position.some index value => exact ⟨[value], rfl⟩
      all_goals exact ⟨[], rfl⟩
    obtain ⟨one, hone⟩ := hadd
    exact ⟨more ++ one, by rw [hmore, hone, List.append_assoc]⟩

/-- The members of a struct are those of its fields. -/
theorem decodeStruct_member {members : Assoc Json} {name : String} {found : Json}
    (h : decodeStruct decode body c = .ok (.object members) after)
    (hmember : (name, found) ∈ members) :
    ∃ field ∈ body.fields, field.place = .key name ∧
      ∀ literal, field.content = .literal literal → found = literal := by
  unfold decodeStruct at h
  obtain ⟨bitmap, mid, -, h⟩ := exists_of_bind_ok h
  obtain ⟨g, mid', hfields, h⟩ := exists_of_bind_ok h
  have hgathered : g.members = members := by
    cases hshape : body.shape <;> simp only [hshape] at h <;> cases h <;> rfl
  rcases decodeFields_member hfields (hgathered ▸ hmember) with hnone | hfield
  · cases hnone
  · exact hfield

/-- A literal in front of a tuple is its first item. -/
theorem decodeStruct_leading {items : List Json} {literal : Json} (hs : body.Numbered)
    (hleading : Session.leadingLiteral? body = some literal)
    (h : decodeStruct decode body c = .ok (.array items) after) : items[0]? = some literal := by
  unfold decodeStruct at h
  obtain ⟨bitmap, mid, -, h⟩ := exists_of_bind_ok h
  obtain ⟨g, mid', hfields, h⟩ := exists_of_bind_ok h
  have hshape : body.shape = .tuple := by
    cases hshape : body.shape <;> simp only [hshape] at h <;> cases h
    rfl
  simp only [hshape] at h
  obtain rfl := Json.array.inj (EStateM.Result.ok.inj h).1
  unfold Session.leadingLiteral? at hleading
  split at hleading
  · next place value rest heq =>
    obtain rfl := Option.some.inj hleading
    -- in a tuple the literal has a position
    obtain ⟨index, rfl⟩ : ∃ index, place = .position index := by
      have hplaced := hs.placed ⟨place, .literal value⟩ (heq ▸ List.mem_cons_self)
      rw [hshape] at hplaced
      exact hplaced
    rw [heq] at hfields
    obtain ⟨result, mid'', hfield, hfields⟩ := exists_of_bind_ok hfields
    obtain rfl := decodeField_literal rfl hfield
    obtain ⟨more, hmore⟩ := decodeFields_items hfields
    have hitems : g.items = more ++ [value] := hmore
    rw [hitems, List.reverse_append]
    rfl
  · cases hleading

end Codec

namespace Arena

variable {arena : Arena} {id : TypeId} {type : CompiledType} {e : EnumLayout}

/-- Decoding goes through synonyms to the type behind them. -/
theorem exists_of_decodeWithin_peel {steps levels : ℕ} {c after : Cursor} {value : Json}
    (hpeel : arena.peelWithin? steps id = some type)
    (h : arena.decodeWithin levels id c = .ok value after) :
    ∃ less, Codec.decodeStep (arena.decodeWithin less) arena.minSize type.layout c =
      .ok value after := by
  induction steps generalizing id levels with
  | zero => cases hpeel
  | succ steps ih =>
    cases levels with
    | zero => cases h
    | succ levels =>
      obtain ⟨found, hfound⟩ := exists_of_decodeWithin h
      rw [decodeWithin_succ hfound] at h
      by_cases hl : ∃ target, found.layout = .synonym target
      · obtain ⟨target, htarget⟩ := hl
        rw [peelWithin?_synonym hfound htarget] at hpeel
        rw [htarget] at h
        exact ih hpeel h
      · rw [peelWithin?_other hfound fun target htarget => hl ⟨target, htarget⟩] at hpeel
        obtain rfl := Option.some.inj hpeel
        exact ⟨levels, h⟩

/-- Decoding a type behind which there is a struct decodes the struct. -/
theorem exists_of_decode_struct {body : StructLayout} {c after : Cursor} {value : Json}
    (hbody : Session.structBehind? arena id = some body) (h : arena.decode id c = .ok value after) :
    ∃ less, Codec.decodeStruct (arena.decodeWithin less) body c = .ok value after := by
  unfold Session.structBehind? at hbody
  split at hbody
  · next found hfound =>
    obtain ⟨type, hpeel, hl⟩ := Option.map_eq_some_iff.1 hfound
    obtain rfl := Option.some.inj hbody
    obtain ⟨less, hstep⟩ := exists_of_decodeWithin_peel hpeel h
    rw [hl] at hstep
    exact ⟨less, hstep⟩
  · cases hbody

/-- A discriminant that a payload gives in front of its items is the one of its variant. -/
def Embeds (arena : Arena) (e : EnumLayout) : Prop :=
  e.shape = .tuple → ∀ variant ∈ e.variants, variant.embeddedTag = true → ∃ body,
    Session.structBehind? arena variant.payload = some body ∧ body.Numbered ∧
      Session.leadingLiteral? body = some variant.dispatch

/-- The variants of an enum can be told apart by their tags: a tag that can be written is read as a
value that singles out its variant. -/
def DiscernsTags (arena : Arena) (e : EnumLayout) : Prop :=
  ∀ k variant bytes, e.variants[k]? = some variant →
    Emits (arena.encode e.tag variant.tag) bytes →
      ∃ tag, Yields (arena.decode e.tag) bytes tag ∧ e.SinglesOut (·.tag) k tag

/-- The variants of an enum can be told apart by the values that are read through them. -/
structure DiscernsValues (arena : Arena) (e : EnumLayout) : Prop where
  /-- No two discriminants agree. -/
  dispatches : e.Apart (·.dispatch)
  /-- What the payload itself has in the place of the discriminant singles out its variant. -/
  members : e.shape = .object → ∀ k variant bytes members found, e.variants[k]? = some variant →
    Yields (arena.decode variant.payload) bytes (.object members) → (e.target, found) ∈ members →
      e.SinglesOut (·.dispatch) k found

/-- Encoding a value of an enum writes a tag, then a payload. -/
theorem exists_of_encode_enum (hid : arena.get? id = some type)
    (hl : type.layout = .enum e) {value : Json} {after : Array UInt8}
    (h : arena.encode id value #[] = .ok () after) :
    ∃ k variant first second, e.writes? value = some k ∧ e.variants[k]? = some variant ∧
      Emits (arena.encode e.tag variant.tag) first ∧
      Emits (arena.encode variant.payload (Codec.payloadOf e.shape variant value)) second ∧
      after.toList = first ++ second := by
  rw [encode, encodeLevels, encodeWithin_succ hid, hl] at h
  obtain ⟨k, variant, mid, hk, hget, htag, hpayload⟩ := Codec.exists_of_encodeEnum h
  obtain ⟨first, hfirst, hall⟩ := (repeats_encode _ _ _).of_ok htag
  obtain ⟨second, hsecond, hall'⟩ := (repeats_encode _ _ _).of_ok hpayload
  refine ⟨k, variant, first.toList, second.toList, hk, hget, hall, hall', ?_⟩
  rw [hsecond, hfirst, Array.empty_append, Array.toList_append]

/-- Decoding a value of an enum reads a tag, then the payload of the variant that the tag
selects. -/
theorem exists_of_decode_enum (hgrounded : arena.Grounded) (hid : arena.get? id = some type)
    (hl : type.layout = .enum e) {bytes : List UInt8} {after : Cursor} {value : Json}
    (h : arena.decode id (.ofBytes bytes) = .ok value after) :
    ∃ k variant payload taken, e.reads? arena bytes = some k ∧ e.variants[k]? = some variant ∧
      Yields (arena.decode variant.payload) taken payload ∧
      Codec.withDiscriminant e variant payload = .ok value := by
  have hlevels : arena.decodeLevels bytes.length = (bytes.length + 1) * arena.size +
      bytes.length + 1 := by
    rw [decodeLevels, Nat.mul_succ, Nat.add_assoc]
  have hrun : arena.decodeWithin (arena.decodeLevels bytes.length) id (.ofBytes bytes) =
      .ok value after := h
  rw [hlevels, decodeWithin_succ hid, hl] at hrun
  obtain ⟨tag, mid, k, variant, payload, htag, hk, hget, hpayload, hvalue⟩ :=
    Codec.exists_of_decodeEnum hrun
  obtain ⟨_, -, -, hfirst⟩ := (rereads_decode _ _).of_ok trivial htag
  obtain ⟨_, -, -, hsecond⟩ := (rereads_decode _ _).of_ok trivial hpayload
  obtain ⟨taken, -, hyields⟩ := hgrounded.takes_decode variant.payload _ _ _ (hsecond 0)
  refine ⟨k, variant, payload, taken, ?_, hget, hyields, hvalue⟩
  have hread : arena.decode e.tag (.ofBytes bytes) = .ok tag _ := hfirst 0
  rw [EnumLayout.reads?, hread]
  exact hk

/-- **What is written through a variant is read through it.** -/
theorem DiscernsTags.reads?_of_writes (h : arena.DiscernsTags e) (hid : arena.get? id = some type)
    (hl : type.layout = .enum e) {value : Json} {after : Array UInt8}
    (hrun : arena.encode id value #[] = .ok () after) :
    ∃ k, e.writes? value = some k ∧ ∀ rest, e.reads? arena (after.toList ++ rest) = some k := by
  obtain ⟨k, variant, first, second, hk, hget, hfirst, -, hbytes⟩ :=
    exists_of_encode_enum hid hl hrun
  obtain ⟨tag, hyields, hsingle⟩ := h k variant first hget hfirst
  refine ⟨k, hk, fun rest => ?_⟩
  have hread := hyields (second ++ rest) 0
  rw [← List.append_assoc, ← hbytes] at hread
  rw [EnumLayout.reads?, Cursor.ofBytes, hread]
  exact hsingle.findIdx? hget

namespace DiscernsValues

/-- The discriminant of a value that has been read singles out the variant through which it was
read. -/
theorem singlesOut_discriminant (h : arena.DiscernsValues e) (hembeds : arena.Embeds e) {k : ℕ}
    {variant : VariantLayout} (hget : e.variants[k]? = some variant) {bytes : List UInt8}
    {payload value found : Json} (hyields : Yields (arena.decode variant.payload) bytes payload)
    (hvalue : Codec.withDiscriminant e variant payload = .ok value)
    (hfound : Codec.discriminant? e value = some found) : e.SinglesOut (·.dispatch) k found := by
  unfold Codec.withDiscriminant at hvalue
  unfold Codec.discriminant? at hfound
  cases hshape : e.shape with
  | object =>
    simp only [hshape] at hvalue hfound
    cases payload with
    | object members =>
      dsimp only at hvalue
      split at hvalue
      · obtain rfl := Except.ok.inj hvalue
        exact h.members hshape k variant bytes members found hget hyields (Assoc.mem_of_get? hfound)
      -- the payload's own member takes the place of the discriminant
      · obtain rfl := Except.ok.inj hvalue
        rcases Assoc.mem_putAll (Assoc.mem_of_get? hfound) with hown | hown
        · obtain ⟨-, rfl⟩ := Prod.mk.inj (List.mem_singleton.1 hown)
          exact h.dispatches k variant hget
        · exact h.members hshape k variant bytes members found hget hyields hown
    | _ => cases hvalue
  | tuple =>
    simp only [hshape] at hvalue hfound
    cases payload with
    | array items =>
      dsimp only at hvalue
      split at hvalue
      · next hembedded =>
        obtain rfl := Except.ok.inj hvalue
        obtain ⟨body, hbody, hnumbered, hleading⟩ :=
          hembeds hshape variant (List.mem_of_getElem? hget) hembedded
        obtain ⟨less, hstruct⟩ := exists_of_decode_struct hbody (hyields [] 0)
        obtain rfl :=
          Option.some.inj
            ((Codec.decodeStruct_leading hnumbered hleading hstruct).symm.trans hfound)
        exact h.dispatches k variant hget
      · obtain rfl := Except.ok.inj hvalue
        obtain rfl := Option.some.inj hfound
        exact h.dispatches k variant hget
    | _ => cases hvalue

/-- **What is read through a variant is written through it**, if it is written at all. -/
theorem writes?_of_reads (h : arena.DiscernsValues e) (hgrounded : arena.Grounded)
    (hembeds : arena.Embeds e) (hid : arena.get? id = some type) (hl : type.layout = .enum e)
    {bytes : List UInt8} {value : Json} {after : Cursor} {buffer : Array UInt8}
    (hread : arena.decode id (.ofBytes bytes) = .ok value after)
    (hwrite : arena.encode id value #[] = .ok () buffer) :
    ∃ k, e.reads? arena bytes = some k ∧ e.writes? value = some k := by
  obtain ⟨k, variant, payload, taken, hk, hget, hyields, hvalue⟩ :=
    exists_of_decode_enum hgrounded hid hl hread
  obtain ⟨other, -, -, -, hother, -⟩ := exists_of_encode_enum hid hl hwrite
  obtain ⟨found, hfound, -⟩ := Option.bind_eq_some_iff.1 hother
  refine ⟨k, hk, ?_⟩
  rw [EnumLayout.writes?, hfound]
  exact (h.singlesOut_discriminant hembeds hget hyields hvalue hfound).findIdx? hget

end DiscernsValues

/-- **When variants can be told apart by their tags:** these are canonical, and none agrees with
another. -/
theorem discernsTags_of_canonical (hgrounded : arena.Grounded)
    (htags : ∀ variant ∈ e.variants, arena.Canonical e.tag variant.tag) (hapart : e.Apart (·.tag)) :
    arena.DiscernsTags e := by
  intro k variant bytes hget hemits
  obtain ⟨bytes', hemits', hyields⟩ := hgrounded.trips (htags variant (List.mem_of_getElem? hget))
  have hsame := (EStateM.Result.ok.inj ((hemits #[]).symm.trans (hemits' #[]))).2
  rw [Array.empty_append, Array.empty_append] at hsame
  cases hsame
  exact ⟨variant.tag, hyields, hapart k variant hget⟩

/-- **When variants can be told apart by their values:** no two discriminants agree, and the
payloads are structs whose only members in the place of the discriminant are literals that
single out their variants. -/
theorem discernsValues_of_literals (hdispatches : e.Apart (·.dispatch))
    (hpayloads : e.shape = .object → ∀ k variant, e.variants[k]? = some variant → ∃ body,
      Session.structBehind? arena variant.payload = some body ∧
      ∀ field ∈ body.fields, field.place = .key e.target →
        ∃ literal, field.content = .literal literal ∧
        e.SinglesOut (·.dispatch) k literal) : arena.DiscernsValues e where
  dispatches := hdispatches
  members := by
    intro hshape k variant bytes members found hget hyields hmember
    obtain ⟨body, hbody, hfields⟩ := hpayloads hshape k variant hget
    obtain ⟨less, hstruct⟩ := exists_of_decode_struct hbody (hyields [] 0)
    obtain ⟨field, hfield, hplace, hliteral⟩ := Codec.decodeStruct_member hstruct hmember
    obtain ⟨literal, hcontent, hsingle⟩ := hfields field hfield hplace
    exact hliteral literal hcontent ▸ hsingle

end Arena

end Wireform
