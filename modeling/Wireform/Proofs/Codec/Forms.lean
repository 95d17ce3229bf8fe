import Wireform.Proofs.Codec.Canonical
import Wireform.Layout.Arena

/-!
# Forms by recursion on the layout

The levels in the definition of forms only bound how deep a proof goes. Without them, a form
of a type is a form of its layout over the forms of the types inside.

* `Arena.hasForm_iff`: this recursion.
-/

namespace Wireform

namespace Codec

/-! ### More forms inside give more forms -/

section Mono

variable {forms forms' : Forms} (hle : ∀ id value form, forms id value form → forms' id value form)

include hle

theorem ContentForm.mono {content : FieldContent} {found : Option Json} {form : Json}
    (h : ContentForm forms content found form) : ContentForm forms' content found form := by
  cases content with
  | constant | literal => exact h
  | value type presence =>
    cases presence with
    | none =>
      obtain ⟨value, hfound, hform⟩ := h
      exact ⟨value, hfound, hle _ _ _ hform⟩
    | some bit =>
      simp only [ContentForm] at h ⊢
      split
      · next hpresent =>
        rw [if_pos hpresent] at h
        obtain ⟨value, hfound, hform⟩ := h
        exact ⟨value, hfound, hle _ _ _ hform⟩
      · next habsent => rwa [if_neg habsent] at h

theorem ConstantForm.mono {type : TypeId} {constant : Json} {verify : Bool}
    (h : ConstantForm forms type constant verify) : ConstantForm forms' type constant verify := by
  obtain ⟨form, hform, hverify⟩ := h
  exact ⟨form, hle _ _ _ hform, hverify⟩

theorem ObjectForm.mono {members out : Assoc Json} {fields : List FieldLayout}
    (h : ObjectForm forms members fields out) : ObjectForm forms' members fields out := by
  induction h with
  | nil => exact .nil
  | constant hconstant _ ih => exact .constant (hconstant.mono hle) ih
  | member hcontent _ ih => exact .member (hcontent.mono hle) ih

theorem TupleForm.mono {items out : List Json} {fields : List FieldLayout}
    (h : TupleForm forms fields items out) : TupleForm forms' fields items out := by
  induction h with
  | nil => exact .nil
  | constant hconstant _ ih => exact .constant (hconstant.mono hle) ih
  | item hcontent _ ih => exact .item (hcontent.mono hle) ih

theorem StructForm.mono {s : StructLayout} {value form : Json} (h : StructForm forms s value form) :
    StructForm forms' s value form := by
  unfold StructForm at h ⊢
  cases hshape : s.shape with
  | object =>
    rw [hshape] at h
    obtain ⟨members, out, hvalue, hform, hnodup, hfields⟩ := h
    exact ⟨members, out, hvalue, hform, hnodup, hfields.mono hle⟩
  | tuple =>
    rw [hshape] at h
    obtain ⟨items, out, hvalue, hform, hfields⟩ := h
    exact ⟨items, out, hvalue, hform, hfields.mono hle⟩
  | empty =>
    rw [hshape] at h
    exact h

theorem ElementForm.mono {a : ArrayLayout} {item form : Json} (h : ElementForm forms a item form) :
    ElementForm forms' a item form := by
  unfold ElementForm at h ⊢
  split
  · next hnull => rwa [if_pos hnull] at h
  · next hnull =>
    rw [if_neg hnull] at h
    exact hle _ _ _ h

theorem StepForm.mono {encode : Encoder} {minSize : TypeId → ℕ} {layout : Layout}
    {value form : Json} (h : StepForm forms encode minSize layout value form) :
    StepForm forms' encode minSize layout value form := by
  cases layout with
  | primitive | bytes => exact h
  | struct s => exact StructForm.mono hle h
  | array a =>
    obtain ⟨items, out, hvalue, hform, hlength, hitems⟩ := h
    exact ⟨items, out, hvalue, hform, hlength, hitems.imp fun _ _ => ElementForm.mono hle⟩
  | enum e =>
    obtain ⟨found, variant, tag, payload, hfound, hselect, htag, hread, hpayload, hvariant⟩ := h
    exact ⟨found, variant, tag, payload, hfound, hselect, hle _ _ _ htag, hread,
      hle _ _ _ hpayload, hvariant⟩
  | synonym target => exact hle _ _ _ h
  | list element maxLength =>
    obtain ⟨items, out, hvalue, hform, hlimit, hzero, hcount, hitems⟩ := h
    exact ⟨items, out, hvalue, hform, hlimit, hzero, hcount, hitems.imp fun _ _ => hle _ _ _⟩
  | padded inner size =>
    obtain ⟨hinner, hfits⟩ := h
    exact ⟨hle _ _ _ hinner, hfits⟩

end Mono

/-! ### Finitely many forms are reached at one level -/

/-- Two things that hold from some level on hold at one level. -/
theorem exists_common {p q : ℕ → Prop} (hp : ∀ {n m}, n ≤ m → p n → p m)
    (hq : ∀ {n m}, n ≤ m → q n → q m) (hn : ∃ n, p n) (hm : ∃ m, q m) : ∃ k, p k ∧ q k := by
  obtain ⟨n, hn⟩ := hn
  obtain ⟨m, hm⟩ := hm
  exact ⟨max n m, hp (Nat.le_max_left n m) hn, hq (Nat.le_max_right n m) hm⟩

/-- Pairs that are related at some level each are related at one level all. -/
theorem forall₂_level {R : ℕ → Json → Json → Prop} (hR : ∀ {n m}, n ≤ m → ∀ x y, R n x y → R m x y)
    {items out : List Json} (h : List.Forall₂ (fun x y => ∃ n, R n x y) items out) :
    ∃ n, List.Forall₂ (R n) items out := by
  induction h with
  | nil => exact ⟨0, .nil⟩
  | cons hitem _ ih =>
    obtain ⟨k, hfirst, hrest⟩ := exists_common (fun hle => hR hle _ _)
      (fun hle h => h.imp (hR hle)) hitem ih
    exact ⟨k, .cons hfirst hrest⟩

/-- What is reached at some level. -/
def AtSomeLevel (chain : ℕ → Forms) : Forms := fun id value form => ∃ n, chain n id value form

section Chain

variable {chain : ℕ → Forms}
  (hchain : ∀ {n m}, n ≤ m → ∀ id value form, chain n id value form → chain m id value form)

theorem ContentForm.level {content : FieldContent} {found : Option Json} {form : Json}
    (h : ContentForm (AtSomeLevel chain) content found form) :
    ∃ n, ContentForm (chain n) content found form := by
  cases content with
  | constant => exact h.elim
  | literal => exact ⟨0, h⟩
  | value type presence =>
    cases presence with
    | none =>
      obtain ⟨value, hfound, n, hform⟩ := h
      exact ⟨n, value, hfound, hform⟩
    | some bit =>
      simp only [ContentForm] at h ⊢
      split at h
      · next hpresent =>
        obtain ⟨value, hfound, n, hform⟩ := h
        exact ⟨n, by rw [if_pos hpresent]; exact ⟨value, hfound, hform⟩⟩
      · next habsent => exact ⟨0, by rwa [if_neg habsent]⟩

theorem ConstantForm.level {type : TypeId} {constant : Json} {verify : Bool}
    (h : ConstantForm (AtSomeLevel chain) type constant verify) :
    ∃ n, ConstantForm (chain n) type constant verify := by
  obtain ⟨form, ⟨n, hform⟩, hverify⟩ := h
  exact ⟨n, form, hform, hverify⟩

theorem ElementForm.level {a : ArrayLayout} {item form : Json}
    (h : ElementForm (AtSomeLevel chain) a item form) : ∃ n, ElementForm (chain n) a item form := by
  unfold ElementForm at h ⊢
  split at h
  · next hnull => exact ⟨0, by rwa [if_pos hnull]⟩
  · next hnull =>
    obtain ⟨n, hn⟩ := h
    exact ⟨n, by rwa [if_neg hnull]⟩

include hchain

theorem ObjectForm.level {members out : Assoc Json} {fields : List FieldLayout}
    (h : ObjectForm (AtSomeLevel chain) members fields out) :
    ∃ n, ObjectForm (chain n) members fields out := by
  induction h with
  | nil => exact ⟨0, .nil⟩
  | constant hconstant _ ih =>
    obtain ⟨k, hfirst, hrest⟩ := exists_common (fun hle => ConstantForm.mono (hchain hle))
      (fun hle => ObjectForm.mono (hchain hle)) hconstant.level ih
    exact ⟨k, .constant hfirst hrest⟩
  | member hcontent _ ih =>
    obtain ⟨k, hfirst, hrest⟩ := exists_common (fun hle => ContentForm.mono (hchain hle))
      (fun hle => ObjectForm.mono (hchain hle)) hcontent.level ih
    exact ⟨k, .member hfirst hrest⟩

theorem TupleForm.level {items out : List Json} {fields : List FieldLayout}
    (h : TupleForm (AtSomeLevel chain) fields items out) :
    ∃ n, TupleForm (chain n) fields items out := by
  induction h with
  | nil => exact ⟨0, .nil⟩
  | constant hconstant _ ih =>
    obtain ⟨k, hfirst, hrest⟩ := exists_common (fun hle => ConstantForm.mono (hchain hle))
      (fun hle => TupleForm.mono (hchain hle)) hconstant.level ih
    exact ⟨k, .constant hfirst hrest⟩
  | item hcontent _ ih =>
    obtain ⟨k, hfirst, hrest⟩ := exists_common (fun hle => ContentForm.mono (hchain hle))
      (fun hle => TupleForm.mono (hchain hle)) hcontent.level ih
    exact ⟨k, .item hfirst hrest⟩

theorem StructForm.level {s : StructLayout} {value form : Json}
    (h : StructForm (AtSomeLevel chain) s value form) : ∃ n, StructForm (chain n) s value form := by
  unfold StructForm at h ⊢
  cases hshape : s.shape with
  | object =>
    rw [hshape] at h
    obtain ⟨members, out, hvalue, hform, hnodup, hfields⟩ := h
    obtain ⟨n, hn⟩ := hfields.level hchain
    exact ⟨n, members, out, hvalue, hform, hnodup, hn⟩
  | tuple =>
    rw [hshape] at h
    obtain ⟨items, out, hvalue, hform, hfields⟩ := h
    obtain ⟨n, hn⟩ := hfields.level hchain
    exact ⟨n, items, out, hvalue, hform, hn⟩
  | empty =>
    rw [hshape] at h
    exact ⟨0, h⟩

theorem StepForm.level {encode : Encoder} {minSize : TypeId → ℕ} {layout : Layout}
    {value form : Json} (h : StepForm (AtSomeLevel chain) encode minSize layout value form) :
    ∃ n, StepForm (chain n) encode minSize layout value form := by
  cases layout with
  | primitive | bytes => exact ⟨0, h⟩
  | struct s => exact StructForm.level hchain h
  | array a =>
    obtain ⟨items, out, hvalue, hform, hlength, hitems⟩ := h
    obtain ⟨n, hn⟩ := forall₂_level (R := fun n => ElementForm (chain n) a)
      (fun hle _ _ => ElementForm.mono (hchain hle)) (hitems.imp fun _ _ => ElementForm.level)
    exact ⟨n, items, out, hvalue, hform, hlength, hn⟩
  | enum e =>
    obtain ⟨found, variant, tag, payload, hfound, hselect, htag, hread, hpayload, hvariant⟩ := h
    obtain ⟨k, htag, hpayload⟩ := exists_common (fun hle => hchain hle _ _ _)
      (fun hle => hchain hle _ _ _) htag hpayload
    exact ⟨k, found, variant, tag, payload, hfound, hselect, htag, hread, hpayload, hvariant⟩
  | synonym target => exact h
  | list element maxLength =>
    obtain ⟨items, out, hvalue, hform, hlimit, hzero, hcount, hitems⟩ := h
    obtain ⟨n, hn⟩ := forall₂_level (fun hle => hchain hle element) hitems
    exact ⟨n, items, out, hvalue, hform, hlimit, hzero, hcount, hn⟩
  | padded inner size =>
    obtain ⟨⟨n, hinner⟩, hfits⟩ := h
    exact ⟨n, hinner, hfits⟩

end Chain

end Codec

namespace Arena

variable {arena : Arena}

theorem formWithin_mono {n m : ℕ} (hle : n ≤ m) (id : TypeId) (value form : Json)
    (h : arena.FormWithin n id value form) : arena.FormWithin m id value form := by
  induction n generalizing m id value form with
  | zero => exact h.elim
  | succ n ih =>
    obtain ⟨m, rfl⟩ : ∃ m', m = m' + 1 := ⟨m - 1, by omega⟩
    obtain ⟨type, hid, hstep⟩ := h
    exact ⟨type, hid, hstep.mono (ih (Nat.le_of_succ_le_succ hle))⟩

/-- **A form of a type is a form of its layout** over the forms of the types inside. -/
theorem hasForm_iff {id : TypeId} {type : CompiledType} (hid : arena.get? id = some type)
    {value form : Json} : arena.HasForm id value form ↔
      Codec.StepForm arena.HasForm arena.encode arena.minSize type.layout value form := by
  constructor
  · rintro ⟨levels, h⟩
    cases levels with
    | zero => exact h.elim
    | succ levels =>
      obtain ⟨found, hfound, hstep⟩ := h
      obtain rfl := Option.some.inj (hid.symm.trans hfound)
      exact hstep.mono fun _ _ _ hpart => ⟨levels, hpart⟩
  · intro h
    have hsome : Codec.StepForm (Codec.AtSomeLevel arena.FormWithin) arena.encode
        arena.minSize type.layout
        value form := h
    obtain ⟨levels, hlevels⟩ := hsome.level formWithin_mono
    exact ⟨levels + 1, type, hid, hlevels⟩

end Arena

end Wireform
