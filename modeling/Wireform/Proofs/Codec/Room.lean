import Wireform.Proofs.Codec.Consumption

/-!
# The comparisons with the input that is left

Before the elements of a list or of an array are read, the room that they need at least is
compared with the input that is left. A decoder without these comparisons reads the same
values from the same bytes: elements that are read have taken the room that would have been
asked for, so only inputs that fail anyway are turned down earlier.

* `Arena.decodeFreelyWithin`: decoding without the comparisons. The limits on the number of
  elements are kept.
* `Codec.concurs_decodeStep`: one level of a layout.
* `Arena.Grounded.decode_ok_iff`: **the comparisons turn down nothing that would be read**.
-/

namespace Wireform

/-! ### Decoding without the comparisons -/

namespace Codec

variable (decode : Decoder) (minSize : TypeId → ℕ)

/-- Reads an array of fixed length, whatever input is left. -/
def decodeArrayFreely (a : ArrayLayout) : Decoding Json := do
  let bits ← decodeBits a
  return .array (← decodeItems (decodeElement decode a bits) a.size 0 [])

/-- Items that may have no bytes are limited in number, others are not. -/
def checkItemsFreely (least count : ℕ) : Decoding Unit :=
  if least = 0 then checkLimit (some maxZeroWidthItems) count else pure ()

/-- Reads the number of elements, then the elements, whatever input is left. -/
def decodeListFreely (element : TypeId) (maxLength : Option ℕ) : Decoding Json := do
  let count ← read Cursor.uvar
  checkLimit maxLength count
  checkItemsFreely (minSize element) count
  return .array (← decodeItems (fun _ => decode element) count 0 [])

/-- Reads a value through a layout, without a look at how much input is left. -/
def decodeStepFreely (layout : Layout) : Decoding Json :=
  match layout with
  | .array a => decodeArrayFreely decode a
  | .list element maxLength => decodeListFreely decode minSize element maxLength
  | other => decodeStep decode minSize other

end Codec

/-- Reads a value of a type without a look at how much input is left, given how many levels of types
may be entered. -/
def Arena.decodeFreelyWithin (arena : Arena) : ℕ → Codec.Decoder
  | 0, _ => throw .outOfFuel
  | levels + 1, id =>
    match arena.get? id with
    | some type =>
      Codec.decodeStepFreely (decodeFreelyWithin arena levels) arena.minSize type.layout
    | none => failWith (.unresolved id.index)

/-! ### The same results -/

/-- `x` and `y` succeed from the same states, with the same result and the same state behind it. -/
def Concurs {ε σ α : Type} (x y : EStateM ε σ α) : Prop := ∀ s a t, x s = .ok a t ↔ y s = .ok a t

namespace Concurs

variable {ε σ α β : Type} {x y : EStateM ε σ α}

theorem refl (x : EStateM ε σ α) : Concurs x x := fun _ _ _ => Iff.rfl

/-- What comes second has to concur only for what the first can give. -/
theorem bind {f g : α → EStateM ε σ β} (hxy : Concurs x y)
    (hfg : ∀ s a t, x s = .ok a t → Concurs (f a) (g a)) : Concurs (x >>= f) (y >>= g) := by
  intro s b t
  constructor
  · intro hrun
    obtain ⟨a, mid, hx, hf⟩ := exists_of_bind_ok hrun
    have hy := (hxy s a mid).1 hx
    rw [bind_of_ok hy]
    exact (hfg s a mid hx mid b t).1 hf
  · intro hrun
    obtain ⟨a, mid, hy, hg⟩ := exists_of_bind_ok hrun
    have hx := (hxy s a mid).2 hy
    rw [bind_of_ok hx]
    exact (hfg s a mid hx mid b t).2 hg

/-- Neither has a result. -/
theorem of_fails (hx : ∀ s a t, x s ≠ .ok a t) (hy : ∀ s a t, y s ≠ .ok a t) : Concurs x y :=
  fun s a t => ⟨fun h => absurd h (hx s a t), fun h => absurd h (hy s a t)⟩

theorem inside {x y : EStateM (Stop CodecFailure) σ α} (step : PathStep) (h : Concurs x y) :
    Concurs (Wireform.inside step x) (Wireform.inside step y) := by
  intro s a t
  rw [inside_ok_iff, inside_ok_iff]
  exact h s a t

/-- A comparison is passed wherever what follows takes as much as it asks for. -/
theorem checkRoom {count least : ℕ} {room : ℕ∞} (hroom : (count * least : ℕ) ≤ room)
    {x y : Decoding α} (hx : Consumes room x) (hxy : Concurs x y) :
    Concurs (Codec.checkRoom count least >>= fun _ => x) y := by
  intro c a after
  constructor
  · intro hrun
    obtain ⟨_, mid, hcheck, hlast⟩ := exists_of_bind_ok hrun
    rw [Codec.checkRoom_eq] at hcheck
    split at hcheck
    · cases hcheck
    · cases hcheck
      exact (hxy _ _ _).1 hlast
  · intro hrun
    have hlast := (hxy c a after).2 hrun
    obtain ⟨taken, hrest, htaken, -⟩ := hx c a after hlast
    -- what has been taken was there, and the product is cut off at most
    have hneeded : Arena.saturatingMul count least ≤ c.rest.length := by
      have hproduct : count * least ≤ taken.length := Nat.cast_le.1 (hroom.trans htaken)
      have hcut : Arena.saturatingMul count least ≤ count * least := Nat.min_le_left _ _
      have hlength : c.rest.length = taken.length + after.rest.length := by
        rw [hrest, List.length_append]
      omega
    have hcheck : Codec.checkRoom count least c = .ok () c := by
      rw [Codec.checkRoom_eq, if_neg (Nat.not_lt_of_le hneeded)]
    rw [bind_of_ok hcheck]
    exact hlast

end Concurs

/-! ### Layouts -/

namespace Codec

variable {decode decode' : Decoder} {minSize : TypeId → ℕ} {lower : TypeId → ℕ∞}

theorem concurs_decodeField (h : ∀ id, Concurs (decode id) (decode' id)) (bits : List Bool)
    (field : FieldLayout) :
    Concurs (decodeField decode bits field) (decodeField decode' bits field) := by
  obtain ⟨place, content⟩ := field
  have hinside : ∀ type, Concurs (inside place.step (decode type))
      (inside place.step (decode' type)) :=
    fun type => (h type).inside place.step
  cases content with
  | constant type constant verify =>
    exact Concurs.bind (hinside type) fun _ found _ _ => Concurs.refl _
  | literal value => exact Concurs.refl _
  | value type presence =>
    cases presence with
    | none => exact Concurs.bind (hinside type) fun _ found _ _ => Concurs.refl _
    | some bit =>
      simp only [decodeField]
      split
      · exact Concurs.bind (hinside type) fun _ found _ _ => Concurs.refl _
      · exact Concurs.refl _

theorem concurs_decodeFields (h : ∀ id, Concurs (decode id) (decode' id)) (bits : List Bool)
    (fields : List FieldLayout) (g : Gathered) :
    Concurs (decodeFields decode bits g fields) (decodeFields decode' bits g fields) := by
  induction fields generalizing g with
  | nil => exact Concurs.refl _
  | cons field rest ih =>
    exact Concurs.bind (concurs_decodeField h bits field) fun _ value _ _ => ih _

theorem concurs_decodeStruct (h : ∀ id, Concurs (decode id) (decode' id)) (l : StructLayout) :
    Concurs (decodeStruct decode l) (decodeStruct decode' l) := by
  refine Concurs.bind (Concurs.refl _) fun _ bitmap _ _ => ?_
  exact Concurs.bind (concurs_decodeFields h _ l.fields _) fun _ g _ _ => Concurs.refl _

theorem concurs_decodeItems {item item' : ℕ → Decoding Json}
    (h : ∀ position, Concurs (item position) (item' position)) (count position : ℕ)
    (before : List Json) :
    Concurs (decodeItems item count position before) (decodeItems item' count position before) := by
  induction count generalizing position before with
  | zero => exact Concurs.refl _
  | succ count ih => exact Concurs.bind ((h position).inside _) fun _ value _ _ => ih _ _

theorem concurs_decodeElement (h : ∀ id, Concurs (decode id) (decode' id)) (a : ArrayLayout)
    (bits : Option (List Bool)) (position : ℕ) :
    Concurs (decodeElement decode a bits position) (decodeElement decode' a bits position) := by
  have helement : Concurs (elementDecoder decode a) (elementDecoder decode' a) := by
    unfold elementDecoder
    cases a.numeric with
    | some p => exact Concurs.refl _
    | none => exact h a.element
  unfold decodeElement
  split
  · exact helement
  · exact Concurs.refl _

theorem concurs_decodeArray (hconcurs : ∀ id, Concurs (decode id) (decode' id))
    (h : ∀ id, Consumes (lower id) (decode id)) (hmin : ∀ id, minSize id ≤ lower id)
    (a : ArrayLayout) (hnumeric : ∀ p, a.numeric = some p → lower a.element = p.minSize) :
    Concurs (decodeArray decode minSize a) (decodeArrayFreely decode' a) := by
  refine Concurs.bind (Concurs.refl _) fun c bits mid hbits => ?_
  refine Concurs.checkRoom ?_ (consumes_present h hnumeric (length_decodeBits hbits)) ?_
  · rw [Nat.cast_mul]
    gcongr
    exact elementMin_le hmin hnumeric
  · have hitems := concurs_decodeItems (concurs_decodeElement hconcurs a bits) a.size 0 []
    exact Concurs.bind hitems fun _ items _ _ => Concurs.refl _

theorem concurs_decodeList (hconcurs : ∀ id, Concurs (decode id) (decode' id))
    (h : ∀ id, Consumes (lower id) (decode id)) (hmin : ∀ id, minSize id ≤ lower id)
    (element : TypeId) (maxLength : Option ℕ) :
    Concurs (decodeList decode minSize element maxLength)
      (decodeListFreely decode' minSize element maxLength) := by
  refine Concurs.bind (Concurs.refl _) fun _ count _ _ => ?_
  refine Concurs.bind (Concurs.refl _) fun _ _ _ _ => ?_
  have hitems : Concurs
      (decodeItems (fun _ => decode element) count 0 [] >>= fun items => pure (Json.array items))
      (decodeItems (fun _ => decode' element) count 0 [] >>=
        fun items => pure (Json.array items)) := by
    refine Concurs.bind ?_ fun _ items _ _ => Concurs.refl _
    exact concurs_decodeItems (fun _ => hconcurs element) count 0 []
  unfold checkItems checkItemsFreely
  by_cases hleast : minSize element = 0
  · rw [if_pos hleast, if_pos hleast]
    exact Concurs.bind (Concurs.refl _) fun _ _ _ _ => hitems
  · rw [if_neg hleast, if_neg hleast]
    refine Concurs.checkRoom ?_ (consumes_listItems h element count) hitems
    rw [Nat.cast_mul]
    gcongr
    exact hmin element

/-- A padded value is read if its window is there and holds one; what it leaves of the
window does not matter. -/
theorem decodePadded_ok_iff {inner : TypeId} {size : ℕ} {c after : Cursor} {value : Json} :
    decodePadded decode inner size c = .ok value after ↔
      ∃ window left, read (Cursor.take size) c = .ok window after ∧
        decode inner (Cursor.ofBytes window) = .ok value left := by
  constructor
  · intro hrun
    obtain ⟨window, mid, htake, hlast⟩ := exists_of_bind_ok hrun
    cases hinner : decode inner (Cursor.ofBytes window) with
    | ok found left =>
      simp only [hinner] at hlast
      cases hlast
      exact ⟨window, left, htake, hinner⟩
    | error stop left =>
      simp only [hinner] at hlast
      cases hlast
  · rintro ⟨window, left, htake, hinner⟩
    obtain ⟨rest, offset⟩ := after
    change decode inner ⟨window, 0⟩ = .ok value left at hinner
    rw [decodePadded_of_window htake, hinner]

theorem concurs_decodePadded (h : ∀ id, Concurs (decode id) (decode' id))
    (inner : TypeId) (size : ℕ) :
    Concurs (decodePadded decode inner size) (decodePadded decode' inner size) := by
  intro c value after
  rw [decodePadded_ok_iff, decodePadded_ok_iff]
  refine exists_congr fun window => exists_congr fun left => and_congr_right fun _ => ?_
  exact h inner _ value left

theorem concurs_decodeEnum (h : ∀ id, Concurs (decode id) (decode' id)) (e : EnumLayout) :
    Concurs (decodeEnum decode e) (decodeEnum decode' e) := by
  refine Concurs.bind (h e.tag) fun _ tag _ _ => ?_
  split
  · exact Concurs.refl _
  · next variant hfind =>
    refine Concurs.bind ((h variant.payload).inside _) fun _ payload _ _ => ?_
    exact Concurs.refl _

/-- **One level of a layout.** -/
theorem concurs_decodeStep (hconcurs : ∀ id, Concurs (decode id) (decode' id))
    (h : ∀ id, Consumes (lower id) (decode id)) (hmin : ∀ id, minSize id ≤ lower id)
    (layout : Layout)
    (hnumeric : ∀ a p, layout = .array a → a.numeric = some p → lower a.element = p.minSize) :
    Concurs (decodeStep decode minSize layout) (decodeStepFreely decode' minSize layout) := by
  cases layout with
  | primitive p => exact Concurs.refl _
  | struct l => exact concurs_decodeStruct hconcurs l
  | array a => exact concurs_decodeArray hconcurs h hmin a fun p hp => hnumeric a p rfl hp
  | enum e => exact concurs_decodeEnum hconcurs e
  | synonym target => exact hconcurs target
  | list element maxLength => exact concurs_decodeList hconcurs h hmin element maxLength
  | padded inner size => exact concurs_decodePadded hconcurs inner size
  | bytes count => exact Concurs.refl _

end Codec

/-! ### Levels -/

namespace Arena.Grounded

variable {arena : Arena} (h : arena.Grounded)

include h

/-- Any type, at any number of levels. -/
theorem concurs_decodeWithin (levels : ℕ) (id : TypeId) :
    Concurs (arena.decodeWithin levels id) (arena.decodeFreelyWithin levels id) := by
  induction levels generalizing id with
  | zero => exact Concurs.refl _
  | succ levels ih =>
    cases hid : arena.get? id with
    | none =>
      unfold decodeWithin decodeFreelyWithin
      rw [hid]
      exact Concurs.refl _
    | some type =>
      have hnumeric : ∀ a p, type.layout = .array a → a.numeric = some p →
          arena.least a.element = p.minSize :=
        fun a p ha hp => ((h.builds id type hid).numeric a p ha hp).least
      have hstep :=
        Codec.concurs_decodeStep ih (h.consumes levels) minSize_le_least type.layout hnumeric
      unfold decodeWithin decodeFreelyWithin
      rw [hid]
      exact hstep

/-- **The comparisons turn down nothing that would be read.** -/
theorem decode_ok_iff (id : TypeId) (c after : Cursor) (value : Json) :
    arena.decode id c = .ok value after ↔
      ∃ levels, arena.decodeFreelyWithin levels id c = .ok value after := by
  constructor
  · intro hrun
    exact ⟨_, (h.concurs_decodeWithin _ id c value after).1 hrun⟩
  · rintro ⟨levels, hfreely⟩
    have hrun := (h.concurs_decodeWithin levels id c value after).2 hfreely
    -- some levels were enough, so those of `decode` are
    obtain ⟨taken, -, hoffset, hdecode⟩ := (rereads_decode levels id).of_ok trivial hrun
    have hdecode := hdecode c.offset
    rw [← hoffset] at hdecode
    exact hdecode

end Arena.Grounded

end Wireform
