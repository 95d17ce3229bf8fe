import Wireform.Proofs.Codec.Forms
import Wireform.Proofs.Codec.RoundTrip
import Wireform.Proofs.Layout.Decidable
import Wireform.Proofs.Schema.Codecs
import Wireform.Proofs.Schema.Reached

/-!
# Lists that are written can be read

Writing a list compares its length with the list's own limit and with nothing else. Reading it has
two more guards: elements that may have no bytes are limited in number, and the others have to fit
what is left of the input. The second guard lets through whatever has been written, as no element is
shorter than its type is said to be; the first one does not.

* `Arena.Grounded.yields_list`: a list whose elements come back comes back with as many of them.
* `Reached.decode_list`: **a list that is written is read**, unless its elements may have no bytes
  and it has more than 65536 of them.
* `units_refused`: a list of 65537 empty structs is written in three bytes, which are refused.
-/

namespace Wireform

namespace Arena

variable {arena : Arena} {id element : TypeId} {value form : Json} {bytes : List UInt8}

theorem emits_more {levels more : ℕ} (hle : levels ≤ more)
    (h : Emits (arena.encodeWithin levels id value) bytes) :
    Emits (arena.encodeWithin more id value) bytes :=
  h.of_repeats ((Agree.refl arena).repeats_encodeWithin hle trivial value)

theorem yields_more {levels more : ℕ} (hle : levels ≤ more)
    (h : Yields (arena.decodeWithin levels id) bytes value) :
    Yields (arena.decodeWithin more id) bytes value := by
  intro rest offset
  obtain ⟨taken, htaken, -, hrun⟩ := (rereads_more hle id).of_ok trivial (h rest offset)
  obtain rfl : bytes = taken := List.append_cancel_right htaken
  exact hrun offset

/-- What is decoded at some number of levels is what `decode` gives. -/
theorem yields_decode {levels : ℕ} (h : Yields (arena.decodeWithin levels id) bytes value) :
    Yields (arena.decode id) bytes value := by
  intro rest offset
  obtain ⟨taken, htaken, -, hrun⟩ := (rereads_decode levels id).of_ok trivial (h rest offset)
  obtain rfl : bytes = taken := List.append_cancel_right htaken
  exact hrun offset

/-- A value comes back at a number of levels. -/
def TripsAt (arena : Arena) (id : TypeId) (levels : ℕ) (value form : Json) : Prop :=
  Trips (arena.encodeWithin levels id value) (arena.decodeWithin levels id) form

theorem TripsAt.mono {levels more : ℕ} (hle : levels ≤ more) (value form : Json)
    (h : arena.TripsAt id levels value form) : arena.TripsAt id more value form := by
  obtain ⟨bytes, hemits, hyields⟩ := h
  exact ⟨bytes, emits_more hle hemits, yields_more hle hyields⟩

namespace Grounded

variable (h : arena.Grounded)

include h

/-- What `encode` appends and `decode` reads comes back at some number of levels. -/
theorem exists_tripsAt (hemits : Emits (arena.encode id value) bytes)
    (hyields : Yields (arena.decode id) bytes form) :
    ∃ levels, arena.TripsAt id levels value form := by
  -- the levels of `decode` depend on the input, so those of the bytes alone are taken
  obtain ⟨taken, hrest, -, hread⟩ := h.consumes _ id _ _ _ (hyields [] 0)
  obtain rfl : bytes = taken := List.append_cancel_right hrest
  exact ⟨max _ _, bytes, emits_more (Nat.le_max_left _ _) hemits,
    yields_more (Nat.le_max_right _ _) hread⟩

/-- **A list whose elements come back comes back** with as many of them, if elements that may have
no bytes are few enough. -/
theorem yields_list {type : CompiledType} {maxLength : Option ℕ} (hid : arena.get? id = some type)
    (hl : type.layout = .list element maxLength) {items : List Json}
    (hemits : Emits (arena.encode id (.array items)) bytes) (hcount : items.length < 2 ^ 64)
    (hzero : arena.minSize element = 0 → items.length ≤ Codec.maxZeroWidthItems)
    (hitems : ∀ item ∈ items, ∀ part, Emits (arena.encode element item) part →
      ∃ value, Yields (arena.decode element) part value) :
    ∃ found, found.length = items.length ∧ Yields (arena.decode id) bytes (.array found) := by
  have helement : element.index < arena.size :=
    (h.builds id type hid).references element (hl ▸ List.mem_singleton_self element)
  obtain ⟨levels, out, hlayout, -⟩ := exists_of_encode hid (hemits #[])
  rw [hl] at hlayout
  obtain ⟨_, parts, heq, hlimit, -, hparts⟩ :=
    Codec.exists_of_emits_list (steady_encodeWithin levels) hlayout
  obtain rfl := Json.array.inj heq
  -- every element comes back at some number of levels, so all of them do at one
  have hforms : ∃ found, List.Forall₂ (fun item value => ∃ n, arena.TripsAt element n item value)
      items found := by
    clear hemits hlayout hlimit hcount hzero heq
    induction hparts with
    | nil => exact ⟨[], .nil⟩
    | @cons item part _ _ hpart _ ih =>
      obtain ⟨found, hfound⟩ := ih fun other hother => hitems other (List.mem_cons_of_mem _ hother)
      obtain ⟨value, hvalue⟩ := hitems item List.mem_cons_self part (emits_encode hpart)
      exact ⟨value :: found, .cons (h.exists_tripsAt (emits_encode hpart) hvalue) hfound⟩
  obtain ⟨found, hforms⟩ := hforms
  obtain ⟨n, hforms⟩ := Codec.forall₂_level (R := arena.TripsAt element) TripsAt.mono hforms
  have hlist :
      Codec.ListForm (fun part value form => part = element ∧ arena.TripsAt part n value form)
      arena.minSize
      element maxLength (.array items) (.array found) :=
    ⟨items, found, rfl, rfl, hlimit, hzero, hcount, hforms.imp fun _ _ hitem => ⟨rfl, hitem⟩⟩
  have hleast : Codec.KeepsLeast
      (fun part value form => part = element ∧ arena.TripsAt part n value form)
      (arena.encodeWithin n) arena.minSize := by
    rintro _ _ _ _ ⟨rfl, -⟩ hpart
    exact h.minSize_le_length helement hpart
  obtain ⟨again, hwritten, hread⟩ := Codec.trips_list (fun _ _ _ hpart => hpart.2) hleast hlist
  -- one level further out this is the list itself
  have hencode : arena.encodeWithin (n + 1) id (.array items) =
      Codec.encodeList (arena.encodeWithin n) element maxLength (.array items) := by
    rw [encodeWithin_succ hid, hl, Codec.encodeStep]
  have hdecode : arena.decodeWithin (n + 1) id =
      Codec.decodeList (arena.decodeWithin n) arena.minSize element maxLength := by
    rw [decodeWithin_succ hid, hl, Codec.decodeStep]
  rw [← hencode] at hwritten
  rw [← hdecode] at hread
  obtain rfl : again = bytes := (emits_encode hwritten).unique hemits
  exact ⟨found, hforms.length_eq.symm, yields_decode hread⟩

end Grounded

end Arena

namespace Schema

namespace Reached

variable {definitions : List (String × Definition)} {options : Options} {schema : Schema}

/-- **A list that is written is read**, if each of its elements is read from its own bytes: whatever
follows the list, it gives a list of the same length. Only where elements may have no bytes does
this ask for 65536 of them at most. -/
theorem decode_list (h : Reached definitions options schema) {id element : TypeId}
    {codec inner : TypeCodec} {maxLength : Option ℕ} (hcodec : schema.codec? id = some codec)
    (hl : codec.type.layout = .list element maxLength) (hinner : schema.codec? element = some inner)
    {items : List Json} {bytes : List UInt8} (hrun : codec.encode (.array items) = .ok bytes)
    (hcount : items.length < 2 ^ 64)
    (hzero : schema.session.arena.minSize element = 0 → items.length ≤ Codec.maxZeroWidthItems)
    (hitems : ∀ item ∈ items, ∀ part, inner.encode item = .ok part →
      ∃ value, inner.decode part = .ok value) :
    ∃ found, found.length = items.length ∧ codec.decode bytes = .ok (.array found) ∧
      ∀ rest, codec.decodePrefix (bytes ++ rest) = .ok (.array found, bytes.length) := by
  obtain ⟨type, hid, rfl⟩ := codec?_eq hcodec
  obtain ⟨_, -, rfl⟩ := codec?_eq hinner
  obtain ⟨found, hlength, hyields⟩ :=
    h.grounded.yields_list hid hl (TypeCodec.encode_ok_iff.1 hrun) hcount hzero
    fun item hitem part hpart => by
      obtain ⟨value, hvalue⟩ := hitems item hitem part (TypeCodec.encode_ok_iff.2 hpart)
      exact ⟨value, TypeCodec.yields_of_decode h.grounded hvalue⟩
  exact ⟨found, hlength, TypeCodec.decode_of_yields hyields,
    TypeCodec.decodePrefix_of_yields hyields⟩

end Reached

/-- Lists of lists of numbers. -/
def rows : List (String × Definition) :=
  [("Row", .synonym (.generic "Array" [[.type (.named "u16")]])),
    ("Rows", .synonym (.generic "Array" [[.type (.named "Row")]]))]

/-- Their schema. -/
def rowsSchema : Schema := (compile rows {}).toOption.get (by decide +kernel)

theorem reached_rows : Reached rows {} rowsSchema := .compile (eq_ok_get _)

/-- A row of one number and a row of two. -/
def twoRows : List Json := [.array [.ofUInt64 1], .array [.ofUInt64 2, .ofUInt64 3]]

theorem rows_decode_list : ∃ schema codec, Reached rows {} schema ∧
    schema.codec? ⟨32⟩ = some codec ∧
    codec.encode (.array twoRows) = .ok [2, 1, 0, 1, 2, 0, 2, 0, 3] ∧
    ∃ found, found.length = 2 ∧ codec.decode [2, 1, 0, 1, 2, 0, 2, 0, 3] = .ok (.array found) ∧
      ∀ rest, codec.decodePrefix ([2, 1, 0, 1, 2, 0, 2, 0, 3] ++ rest) = .ok (.array found, 9) := by
  have hruns : ((rowsSchema.codec? ⟨32⟩).any fun codec =>
      (rowsSchema.codec? ⟨29⟩).any fun inner => decide (codec.type.layout = .list ⟨29⟩ none ∧
        (codec.encode (.array twoRows)).toOption = some [2, 1, 0, 1, 2, 0, 2, 0, 3] ∧
        rowsSchema.session.arena.minSize ⟨29⟩ = 1 ∧
        ∀ item ∈ twoRows, ((inner.encode item).toOption.all
          fun part => (inner.decode part).toOption.isSome) = true)) =
      true := by
    decide +kernel
  obtain ⟨codec, hcodec, hruns⟩ := (Option.any_eq_true _ _).1 hruns
  obtain ⟨inner, hinner, hruns⟩ := (Option.any_eq_true _ _).1 hruns
  obtain ⟨hl, hencode, hleast, hall⟩ := of_decide_eq_true hruns
  have hitems : ∀ item ∈ twoRows, ∀ part, inner.encode item = .ok part →
      ∃ value, inner.decode part = .ok value := by
    intro item hitem part hpart
    have hback := hall item hitem
    rw [hpart] at hback
    exact exists_ok_of_isSome hback
  have hwide : rowsSchema.session.arena.minSize ⟨29⟩ = 0 →
      twoRows.length ≤ Codec.maxZeroWidthItems :=
    fun _ => by decide
  exact ⟨rowsSchema, codec, reached_rows, hcodec, ok_of_toOption hencode,
    reached_rows.decode_list hcodec hl hinner (ok_of_toOption hencode) (by decide) hwide hitems⟩

/-- Lists of empty structs. -/
def units : List (String × Definition) :=
  [("Unit", .struct .empty), ("Units", .synonym (.generic "Array" [[.type (.named "Unit")]]))]

/-- Their schema. -/
def unitsSchema : Schema := (compile units {}).toOption.get (by decide +kernel)

theorem reached_units : Reached units {} unitsSchema := .compile (eq_ok_get _)

/-- Items without bytes have none together. -/
theorem emits_items_nothing {item : Json → Encoding Unit} {items : List Json}
    (h : ∀ value ∈ items, Emits (item value) []) (position : ℕ) :
    Emits (Codec.encodeItems item position items) [] := by
  induction items generalizing position with
  | nil => exact Emits.nothing
  | cons value rest ih =>
    exact ((h value List.mem_cons_self).inside _).andThen
      (ih (fun other hother => h other (List.mem_cons_of_mem _ hother)) (position + 1))

/-- **A list that is written and refused:** 65537 empty structs, each of which is
read from its own bytes. -/
theorem units_refused : ∃ schema codec inner, Reached units {} schema ∧
    schema.codec? ⟨31⟩ = some codec ∧ codec.type.layout = .list ⟨29⟩ none ∧
    schema.codec? ⟨29⟩ = some inner ∧
    inner.encode (.object []) = .ok [] ∧ inner.decode [] = .ok (.object []) ∧
    codec.encode (.array (List.replicate 65537 (.object []))) = .ok [0xC1, 0, 1] ∧
    codec.decode [0xC1, 0, 1] = .error (.failure ⟨[], .lengthMismatch 65536 65537⟩) := by
  have hruns : ((unitsSchema.codec? ⟨31⟩).any fun codec =>
      (unitsSchema.codec? ⟨29⟩).any fun inner => decide (codec.type.layout = .list ⟨29⟩ none ∧
        inner.type.layout = .struct ⟨.empty, 0, []⟩ ∧ inner.encode (.object []) = .ok [] ∧
        inner.decode [] = .ok (.object []) ∧
        codec.decode [0xC1, 0, 1] = .error (.failure ⟨[], .lengthMismatch 65536 65537⟩))) =
          true := by
    decide +kernel
  obtain ⟨codec, hcodec, hruns⟩ := (Option.any_eq_true _ _).1 hruns
  obtain ⟨inner, hinner, hruns⟩ := (Option.any_eq_true _ _).1 hruns
  obtain ⟨hl, hunit, hnothing, hback, hrefused⟩ := of_decide_eq_true hruns
  refine ⟨unitsSchema, codec, inner, reached_units, hcodec, hl, hinner, hnothing,
    hback, ?_, hrefused⟩
  obtain ⟨type, hid, rfl⟩ := Reached.codec?_eq hcodec
  obtain ⟨unit, hunitId, rfl⟩ := Reached.codec?_eq hinner
  -- an empty struct has no bytes, so the count is all that is written
  have hitem : ∀ value, Emits (unitsSchema.session.arena.encodeWithin 1 ⟨29⟩ value) [] := by
    intro value
    rw [Arena.encodeWithin_succ hunitId, hunit]
    exact Emits.nothing
  have hlist :
      Emits
      (unitsSchema.session.arena.encodeWithin 2 ⟨31⟩ (.array (List.replicate 65537 (.object []))))
      (Wire.uvarBytes (List.replicate 65537 (Json.object [])).length ++ []) := by
    rw [Arena.encodeWithin_succ hid, hl]
    refine Emits.look rfl (Emits.look rfl ?_)
    exact (Emits.emit _).andThen (emits_items_nothing (fun value _ => hitem value) 0)
  have hcount : Wire.uvarBytes (List.replicate 65537 (Json.object [])).length ++ [] =
      [0xC1, 0, 1] := by
    rw [List.length_replicate]
    decide
  rw [hcount] at hlist
  exact TypeCodec.encode_ok_iff.2 (Arena.emits_encode hlist)

end Schema

end Wireform
