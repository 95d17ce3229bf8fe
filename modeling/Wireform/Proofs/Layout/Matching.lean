import Wireform.Proofs.Layout.Agreement
import Wireform.Proofs.Layout.Synonyms

/-!
# Arenas that match slot by slot

The number of a slot is of no account: if the slots with a property are renumbered, each to a slot
of its own, and the layouts refer to the new numbers, then what is computed from them is the same.
Whether an array reads its numbers directly or through their type is of no account either.

* `Layout.map`: the same layout, referring to other slots.
* `Matches.minSize_eq`: the lower bounds are the same.
-/

namespace Wireform

/-- The same field, referring to another slot. -/
def FieldLayout.map (f : TypeId → TypeId) (field : FieldLayout) : FieldLayout where
  place := field.place
  content :=
    match field.content with
    | .constant type value verify => .constant (f type) value verify
    | .literal value => .literal value
    | .value type presence => .value (f type) presence

/-- The same variant, referring to another slot. -/
def VariantLayout.map (f : TypeId → TypeId) (variant : VariantLayout) : VariantLayout :=
  { variant with payload := f variant.payload }

namespace Layout

/-- The same layout, referring to other slots. -/
def map (f : TypeId → TypeId) : Layout → Layout
  | .primitive p => .primitive p
  | .struct s => .struct { s with fields := s.fields.map (FieldLayout.map f) }
  | .array a => .array { a with element := f a.element }
  | .enum e => .enum { e with tag := f e.tag, variants := e.variants.map (VariantLayout.map f) }
  | .synonym target => .synonym (f target)
  | .list element maxLength => .list (f element) maxLength
  | .padded inner size => .padded (f inner) size
  | .bytes count => .bytes count

/-- The same layout, in which an array reads numbers through their type. -/
def indirect : Layout → Layout
  | .array a => .array { a with numeric := none }
  | layout => layout

end Layout

theorem FieldLayout.mandatory?_map (f : TypeId → TypeId) (field : FieldLayout) :
    (field.map f).mandatory? = field.mandatory?.map f := by
  obtain ⟨place, content⟩ := field
  cases content with
  | constant | literal => rfl
  | value type presence => cases presence <;> rfl

/-- The mandatory parts are those that are referred to instead. -/
theorem Layout.mandatory_map (f : TypeId → TypeId) (layout : Layout) :
    (layout.map f).mandatory = layout.mandatory.map f := by
  cases layout with
  | struct s =>
    simp only [Layout.map, Layout.mandatory, List.filterMap_map, List.map_filterMap]
    exact List.filterMap_congr fun field _ => field.mandatory?_map f
  | array a =>
    simp only [Layout.map, Layout.mandatory]
    split <;> rfl
  | _ => rfl

theorem Layout.mandatory_indirect (layout : Layout) :
    layout.indirect.mandatory = layout.mandatory := by
  cases layout <;> rfl

namespace Arena

/-- Slots with a property hold in the second arena, under the number that `f` gives, what they hold
in the first one; they refer only to slots with the property, and each has a number of its own. -/
structure Matches (f : TypeId → TypeId) (p : TypeId → Prop) (a b : Arena) : Prop where
  get? : ∀ id, p id → ∃ type type', a.get? id = some type ∧ b.get? (f id) = some type' ∧
    type'.layout.indirect = (type.layout.map f).indirect
  closed : ∀ id type, p id → a.get? id = some type → ∀ part ∈ type.layout.references, p part
  injective : ∀ id other, p id → p other → f id = f other → id = other

variable {f : TypeId → TypeId} {p : TypeId → Prop} {a b : Arena}

/-! ### Walks -/

/-- The notes of two walks say the same of slots that match. -/
def Corresponds (f : TypeId → TypeId) (p : TypeId → Prop)
    (notes notes' : List (ℕ × Option ℕ)) : Prop :=
  ∀ id, p id → notes'.lookup (f id).index = notes.lookup id.index

theorem Corresponds.mark (hf : ∀ id other, p id → p other → f id = f other → id = other)
    {notes notes' : List (ℕ × Option ℕ)} (h : Corresponds f p notes notes')
    {id : TypeId} (hid : p id) (note : Option ℕ) :
    Corresponds f p ((id.index, note) :: notes) (((f id).index, note) :: notes') := by
  intro other hother
  have hsame : (f other).index = (f id).index ↔ other.index = id.index := by
    refine ⟨fun heq => ?_, fun heq => ?_⟩
    · rw [hf other id hother hid (congrArg TypeId.mk heq)]
    · rw [show other = id from congrArg TypeId.mk heq]
  rw [lookup_mark, lookup_mark, h other hother]
  simp only [hsame]

/-- On notes that correspond and leave at most so many slots unseen, two walks find the same and
take notes that correspond, in addition to those that are there. -/
def Mirrors {α : Type} (f : TypeId → TypeId) (p : TypeId → Prop) (a b : Arena) (count : ℕ)
    (x y : Walk α) :
    Prop :=
  ∀ notes notes', Corresponds f p notes notes' → a.unseen notes ≤ count → b.unseen notes' ≤ count →
    (x notes).1 = (y notes').1 ∧ Corresponds f p (x notes).2 (y notes').2 ∧
      a.unseen (x notes).2 ≤ a.unseen notes ∧ b.unseen (y notes').2 ≤ b.unseen notes'

namespace Mirrors

variable {α β : Type} {count : ℕ}

theorem pure (result : α) : Mirrors f p a b count (Pure.pure result) (Pure.pure result) :=
  fun _ _ h _ _ => ⟨rfl, h, le_rfl, le_rfl⟩

theorem bind {x y : Walk α} {g h : α → Walk β} (hxy : Mirrors f p a b count x y)
    (hgh : ∀ result, Mirrors f p a b count (g result) (h result)) :
    Mirrors f p a b count (x >>= g) (y >>= h) := by
  intro notes notes' hnotes hcount hcount'
  obtain ⟨hsame, hmid, hle, hle'⟩ := hxy notes notes' hnotes hcount hcount'
  obtain ⟨hsame', hafter, hless, hless'⟩ :=
    hgh (x notes).1 (x notes).2 (y notes').2 hmid (hle.trans hcount) (hle'.trans hcount')
  have hrun : (y >>= h) notes' = h (x notes).1 (y notes').2 :=
    congrArg (fun r => h r (y notes').2) hsame.symm
  rw [hrun]
  exact ⟨hsame', hafter, hless.trans hle, hless'.trans hle'⟩

end Mirrors

section Layouts

variable {count : ℕ} {length length' : TypeId → Walk ℕ}

theorem mirrors_sumOver {ids : List TypeId}
    (h : ∀ id ∈ ids, Mirrors f p a b count (length id) (length' (f id))) (total : ℕ) :
    Mirrors f p a b count (sumOver length total ids) (sumOver length' total (ids.map f)) := by
  induction ids generalizing total with
  | nil => exact Mirrors.pure total
  | cons id rest ih =>
    refine (h id List.mem_cons_self).bind fun n => ?_
    exact ih (fun other ho => h other (List.mem_cons_of_mem _ ho)) _

theorem mirrors_leastOver {ids : List TypeId}
    (h : ∀ id ∈ ids, Mirrors f p a b count (length id) (length' (f id))) :
    Mirrors f p a b count (leastOver length ids) (leastOver length' (ids.map f)) := by
  have hall : Mirrors f p a b count (ids.mapM length) ((ids.map f).mapM length') := by
    induction ids with
    | nil => exact Mirrors.pure []
    | cons id rest ih =>
      rw [List.map_cons, List.mapM_cons, List.mapM_cons]
      refine (h id List.mem_cons_self).bind fun n => ?_
      exact (ih fun other ho => h other (List.mem_cons_of_mem _ ho)).bind fun ns => Mirrors.pure _
  exact hall.bind fun ns => Mirrors.pure _

theorem layoutMin_indirect (length : TypeId → Walk ℕ) (layout : Layout) :
    layoutMin length layout.indirect = layoutMin length layout := by
  cases layout <;> rfl

/-- A layout is walked through by its references, whatever their numbers. -/
theorem mirrors_layoutMin {layout : Layout}
    (h : ∀ id ∈ layout.references, Mirrors f p a b count (length id) (length' (f id))) :
    Mirrors f p a b count (layoutMin length layout) (layoutMin length' (layout.map f)) := by
  cases layout with
  | primitive | list | padded | bytes => exact Mirrors.pure _
  | struct s =>
    have hparts : (s.fields.map (FieldLayout.map f)).filterMap FieldLayout.mandatory? =
        (s.fields.filterMap FieldLayout.mandatory?).map f := Layout.mandatory_map f (.struct s)
    simp only [layoutMin, Layout.map, hparts]
    exact mirrors_sumOver (fun id hid => h id (mem_references_of_mandatory hid)) _
  | array a =>
    simp only [layoutMin, Layout.map]
    split
    · exact Mirrors.pure _
    · exact (h a.element List.mem_cons_self).bind fun n => Mirrors.pure _
  | enum e =>
    have hpayloads : (e.variants.map (VariantLayout.map f)).map VariantLayout.payload =
        (e.variants.map VariantLayout.payload).map f := by
      rw [List.map_map, List.map_map]
      rfl
    simp only [layoutMin, Layout.map, hpayloads]
    refine (mirrors_leastOver fun id hid => h id (List.mem_cons_of_mem _ hid)).bind
      fun payload => ?_
    exact (h e.tag List.mem_cons_self).bind fun tag => Mirrors.pure _
  | synonym target => exact h target List.mem_cons_self

end Layouts

/-- Walks with more levels than there are unseen slots find the same from slots that match. -/
theorem Matches.mirrors_minSizeWithin (h : Matches f p a b) {count depth depth' : ℕ}
    (hdepth : count < depth) (hdepth' : count < depth') {id : TypeId} (hid : p id) :
    Mirrors f p a b count (a.minSizeWithin depth id) (b.minSizeWithin depth' (f id)) := by
  induction count using Nat.strong_induction_on generalizing depth depth' id with
  | _ count ih =>
    obtain ⟨depth, rfl⟩ := Nat.exists_eq_add_of_lt hdepth
    obtain ⟨depth', rfl⟩ := Nat.exists_eq_add_of_lt hdepth'
    intro notes notes' hnotes hcount hcount'
    obtain ⟨type, type', htype, htype', hlayout⟩ := h.get? id hid
    cases hlookup : notes.lookup id.index with
    | some known =>
      rw [minSizeWithin_of_known htype hlookup,
        minSizeWithin_of_known htype' ((hnotes id hid).trans hlookup)]
      exact ⟨rfl, hnotes, le_rfl, le_rfl⟩
    | none =>
      have hlookup' := (hnotes id hid).trans hlookup
      -- the type is noted now, so fewer slots are unseen while its parts are looked at
      have hless := unseen_mark (a.lt_size_of_get? htype) hlookup (none : Option ℕ)
      have hless' := unseen_mark (b.lt_size_of_get? htype') hlookup' (none : Option ℕ)
      have hparts : Mirrors f p a b (count - 1)
          (layoutMin (a.minSizeWithin (count + depth)) type.layout)
          (layoutMin (b.minSizeWithin (count + depth')) type'.layout) := by
        rw [← layoutMin_indirect _ type'.layout, hlayout, layoutMin_indirect]
        exact mirrors_layoutMin fun part hpart =>
          ih (count - 1) (by omega) (by omega) (by omega) (h.closed id type hid htype part hpart)
      obtain ⟨hsame, hafter, hle, hle'⟩ :=
        hparts ((id.index, none) :: notes) (((f id).index, none) :: notes')
        (hnotes.mark h.injective hid none) (by omega) (by omega)
      rw [minSizeWithin_of_new htype hlookup, minSizeWithin_of_new htype' hlookup']
      refine ⟨hsame, ?_, (unseen_mark_le _ _ _).trans (hle.trans hless.le),
        (unseen_mark_le _ _ _).trans (hle'.trans hless'.le)⟩
      dsimp only
      rw [← hsame]
      exact hafter.mark h.injective hid _

/-- More levels than there are slots make no difference. -/
theorem minSize_of_size_lt {depth : ℕ} (hdepth : a.size < depth) (id : TypeId) :
    (a.minSizeWithin depth id []).1 = a.minSize id := by
  have hwalk : a.Alike a.size (a.minSizeWithin depth id) (a.minSizeWithin (a.size + 1) id) :=
    (Agree.refl a).alike_minSizeWithin hdepth (Nat.lt_succ_self a.size) trivial
  exact congrArg Prod.fst (hwalk [] (unseen_le_size _)).1

/-- **The lower bounds are the same.** -/
theorem Matches.minSize_eq (h : Matches f p a b) {id : TypeId} (hid : p id) :
    b.minSize (f id) = a.minSize id := by
  have hwalk :=
    h.mirrors_minSizeWithin (Nat.lt_succ_self (max a.size b.size)) (Nat.lt_succ_self _) hid
  have hsame := (hwalk [] [] (fun _ _ => rfl) ((unseen_le_size _).trans (le_max_left _ _))
    ((unseen_le_size _).trans (le_max_right _ _))).1
  rw [← minSize_of_size_lt (Nat.lt_succ_of_le (le_max_left a.size b.size)), hsame,
    minSize_of_size_lt (Nat.lt_succ_of_le (le_max_right a.size b.size))]

/-! ### Primitives behind synonyms -/

theorem Carries.exists_peelWithin? {id : TypeId} {q : Primitive} (h : a.Carries id q) :
    ∃ steps type, a.peelWithin? steps id = some type ∧ type.layout = .primitive q := by
  induction h with
  | primitive hid hl => exact ⟨1, _, by simp only [peelWithin?, hid, hl], hl⟩
  | synonym hid hl _ ih =>
    obtain ⟨steps, type, hsteps, htype⟩ := ih
    exact ⟨steps + 1, type, by simp only [peelWithin?, hid, hl, hsteps], htype⟩

theorem Carries.unique {id : TypeId} {q q' : Primitive} (h : a.Carries id q)
    (h' : a.Carries id q') : q' = q := by
  induction h with
  | primitive hid hl =>
    cases h' with
    | primitive hid' hl' =>
      obtain rfl := Option.some.inj (hid.symm.trans hid')
      exact Layout.primitive.inj (hl'.symm.trans hl)
    | synonym hid' hl' _ =>
      obtain rfl := Option.some.inj (hid.symm.trans hid')
      cases hl.symm.trans hl'
  | synonym hid hl _ ih =>
    cases h' with
    | primitive hid' hl' =>
      obtain rfl := Option.some.inj (hid.symm.trans hid')
      cases hl.symm.trans hl'
    | synonym hid' hl' ht' =>
      obtain rfl := Option.some.inj (hid.symm.trans hid')
      obtain rfl := Layout.synonym.inj (hl.symm.trans hl')
      exact ih ht'

theorem Carries.lt_size {id : TypeId} {q : Primitive} (h : a.Carries id q) : id.index < a.size := by
  cases h with
  | primitive hid _ => exact lt_size_of_get? _ hid
  | synonym hid _ _ => exact lt_size_of_get? _ hid

/-- If no slot was noted that is reached in as many steps, the walk along synonyms
gets to the primitive. -/
theorem minSizeWithin_of_peelWithin? {steps depth : ℕ} (hdepth : steps ≤ depth) {id : TypeId}
    {type : CompiledType} {q : Primitive} (hsteps : a.peelWithin? steps id = some type)
    (htype : type.layout = .primitive q) {notes : List (ℕ × Option ℕ)}
    (hnotes : ∀ other : TypeId, notes.lookup other.index ≠ none →
      a.peelWithin? steps other = none) :
    (a.minSizeWithin depth id notes).1 = q.minSize := by
  induction steps generalizing depth id notes with
  | zero => cases hsteps
  | succ steps ih =>
    have hfewer : ∀ other : TypeId, notes.lookup other.index ≠ none →
        a.peelWithin? steps other = none := by
      intro other hother
      cases hpeel : a.peelWithin? steps other with
      | none => rfl
      | some found => rw [← hnotes other hother, peelWithin?_mono hpeel]
    -- as few steps as possible are looked at
    cases hless : a.peelWithin? steps id with
    | some found =>
      obtain rfl := Option.some.inj ((peelWithin?_mono hless).symm.trans hsteps)
      exact ih (Nat.le_of_succ_le hdepth) hless hfewer
    | none =>
      obtain ⟨depth, rfl⟩ :=
        Nat.exists_eq_add_of_le' (Nat.le_trans (Nat.le_add_left 1 steps) hdepth)
      have hnew : notes.lookup id.index = none := by
        by_contra hnoted
        rw [hnotes id hnoted] at hsteps
        cases hsteps
      rw [peelWithin?] at hsteps
      split at hsteps
      · cases hsteps
      · next found hfound =>
        rw [minSizeWithin_of_new hfound hnew]
        dsimp only
        split at hsteps
        · next target htarget =>
          rw [htarget]
          refine ih (Nat.le_of_succ_le_succ hdepth) hsteps fun other hother => ?_
          rw [lookup_mark] at hother
          split at hother
          · next heq => rw [show other = id from congrArg TypeId.mk heq, hless]
          · exact hfewer other hother
        · obtain rfl := Option.some.inj hsteps
          rw [htype]
          rfl

/-- A type that carries a primitive has its lower bound. -/
theorem Carries.minSize_eq {id : TypeId} {q : Primitive} (h : a.Carries id q) :
    a.minSize id = q.minSize := by
  obtain ⟨steps, type, hsteps, htype⟩ := h.exists_peelWithin?
  rw [← minSize_of_size_lt (Nat.lt_succ_of_le (le_max_left a.size steps))]
  exact minSizeWithin_of_peelWithin? (Nat.le_succ_of_le (le_max_right _ _)) hsteps htype
    fun _ h => absurd rfl h

end Arena

end Wireform
