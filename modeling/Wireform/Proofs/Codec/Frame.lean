import Wireform.Proofs.Codec.EncodeLevels
import Wireform.Schema

/-!
# What was in the buffer stays in front

Encoding onto a buffer does what it does onto the empty one, and leaves all that behind what
was there before. This holds of failures too, wherever they arise: padding that takes a value
back takes back what it has appended itself, and no more.

* `Appends`: a run does not depend on the buffer, and keeps it in front.
* `Codec.appends_encodeStep`: one level of a layout.
* `Arena.appends_encodeWithin`: any type, at any number of levels.
* `TypeCodec.encodeInto_frame`: **what a codec does to a buffer, and what it leaves alone**.
-/

namespace Wireform

/-- What a run leaves, put behind what was there before. -/
def behind {α : Type} (front : Array UInt8) :
    EStateM.Result (Stop CodecFailure) (Array UInt8) α →
    EStateM.Result (Stop CodecFailure) (Array UInt8) α
  | .ok a after => .ok a (front ++ after)
  | .error stop after => .error stop (front ++ after)

theorem behind_behind {α : Type} (front middle : Array UInt8)
    (r : EStateM.Result (Stop CodecFailure) (Array UInt8) α) :
    behind front (behind middle r) = behind (front ++ middle) r := by
  cases r <;> simp only [behind, Array.append_assoc]

/-- A run on a buffer is the run on the empty one, behind what is there. -/
def Appends {α : Type} (x : Encoding α) : Prop := ∀ buffer, x buffer = behind buffer (x #[])

namespace Appends

variable {α β : Type} {x : Encoding α}

theorem pure (a : α) : Appends (Pure.pure a) := by
  intro buffer
  change EStateM.Result.ok a buffer = .ok a (buffer ++ #[])
  rw [Array.append_empty]

theorem fail (cause : CodecError) : Appends (failWith (α := α) cause) := by
  intro buffer
  change EStateM.Result.error _ buffer = .error _ (buffer ++ #[])
  rw [Array.append_empty]

theorem emit (bytes : List UInt8) : Appends (Wireform.emit bytes) := by
  intro buffer
  change EStateM.Result.ok () (buffer ++ bytes.toArray) = .ok () (buffer ++ (#[] ++ bytes.toArray))
  rw [Array.empty_append]

theorem bind {f : α → Encoding β} (hx : Appends x) (hf : ∀ a, Appends (f a)) :
    Appends (x >>= f) := by
  intro buffer
  have hrun := hx buffer
  cases hempty : x #[] with
  | ok a out =>
    rw [hempty] at hrun
    -- the second step finds the first one's bytes behind the buffer
    rw [bind_of_ok hrun, bind_of_ok hempty, hf a (buffer ++ out), hf a out, behind_behind]
  | error stop out =>
    rw [hempty] at hrun
    rw [bind_of_error hrun, bind_of_error hempty]
    rfl

theorem inside (step : PathStep) (h : Appends x) : Appends (Wireform.inside step x) := by
  intro buffer
  unfold Wireform.inside
  rw [h buffer]
  cases x #[] with
  | ok a out => rfl
  | error stop out => cases stop <;> rfl

end Appends

/-- What is composed of results, failures and bytes keeps what is there in front. -/
theorem composes_appends : Composes Appends :=
  ⟨Appends.pure, Appends.fail, Appends.emit, Appends.bind⟩

/-! ### Layouts -/

namespace Codec

variable {encode : Encoder}

theorem appends_encodeField (h : ∀ id value, Appends (encode id value)) (value : Json)
    (field : FieldLayout) :
    Appends (encodeField encode value field) := by
  obtain ⟨place, content⟩ := field
  cases content with
  | constant type constant verify => exact (h type constant).inside _
  | literal literal => exact Appends.pure ()
  | value type presence =>
    simp only [encodeField]
    split
    · exact (h type _).inside _
    · split
      · exact Appends.pure ()
      · exact (h type _).inside _
    · exact Appends.pure ()
    · exact Appends.fail _

theorem appends_encodeFields (h : ∀ id value, Appends (encode id value)) (value : Json)
    (fields : List FieldLayout) : Appends (fields.forM (encodeField encode value)) := by
  induction fields with
  | nil => exact Appends.pure ()
  | cons field rest ih => exact (appends_encodeField h value field).bind fun _ => ih

theorem appends_encodeStruct (h : ∀ id value, Appends (encode id value)) (l : StructLayout)
    (value : Json) :
    Appends (encodeStruct encode l value) := by
  refine (composes_appends.checkShape l.shape value).bind fun _ => ?_
  split
  · exact Appends.pure ()
  · exact (Appends.emit _).bind fun _ => appends_encodeFields h value l.fields

theorem appends_encodeItems {item : Json → Encoding Unit} (h : ∀ value, Appends (item value))
    (items : List Json) (position : ℕ) : Appends (encodeItems item position items) := by
  induction items generalizing position with
  | nil => exact Appends.pure ()
  | cons value rest ih => exact ((h value).inside _).bind fun _ => ih (position + 1)

theorem appends_elementEncoder (h : ∀ id value, Appends (encode id value))
    (a : ArrayLayout) (item : Json) :
    Appends (elementEncoder encode a item) := by
  unfold elementEncoder
  cases a.numeric with
  | some p => exact composes_appends.primitive p item
  | none => exact h a.element item

theorem appends_encodeArray (h : ∀ id value, Appends (encode id value)) (a : ArrayLayout)
    (value : Json) :
    Appends (encodeArray encode a value) := by
  refine (composes_appends.arrayItems value).bind fun items => ?_
  refine (composes_appends.checkLength a.size items).bind fun _ => ?_
  refine (Appends.emit _).bind fun _ => appends_encodeItems (fun item => ?_) items 0
  unfold encodeElement
  split
  · exact Appends.pure ()
  · exact appends_elementEncoder h a item

theorem appends_encodeList (h : ∀ id value, Appends (encode id value)) (element : TypeId)
    (maxLength : Option ℕ) (value : Json) :
    Appends (encodeList encode element maxLength value) := by
  refine (composes_appends.arrayItems value).bind fun items => ?_
  refine (composes_appends.checkLimit maxLength items.length).bind fun _ => ?_
  exact (Appends.emit _).bind fun _ => appends_encodeItems (h element) items 0

theorem appends_encodeBytes (count : ℕ) (value : Json) : Appends (encodeBytes count value) := by
  refine (composes_appends.arrayItems value).bind fun items => ?_
  exact (composes_appends.checkLength count items).bind fun _ =>
    appends_encodeItems composes_appends.encodeByte items 0

/-- A value that is too long is taken back, and what was there before it is left. -/
theorem appends_encodePadded (h : ∀ id value, Appends (encode id value)) (inner : TypeId) (size : ℕ)
    (value : Json) : Appends (encodePadded encode inner size value) := by
  intro buffer
  have hrun := h inner value buffer
  cases hempty : encode inner value #[] with
  | ok _ out =>
    rw [hempty] at hrun
    rw [encodePadded_of_ok hrun, encodePadded_of_ok hempty, Array.size_append,
      Nat.add_sub_cancel_left, Array.size_empty, Nat.sub_zero]
    -- only the length of what the value takes decides, and the cut is made where it began
    split
    · simp [behind, Array.take_eq_extract]
    · simp only [behind, Array.append_assoc]
  | error stop out =>
    rw [hempty] at hrun
    refine (bind_of_error hrun).trans ?_
    exact (congrArg (behind buffer) (bind_of_error (x := encode inner value) hempty)).symm

theorem appends_encodeEnum (h : ∀ id value, Appends (encode id value)) (e : EnumLayout)
    (value : Json) :
    Appends (encodeEnum encode e value) := by
  refine (composes_appends.discriminant e value).bind fun found => ?_
  split
  · exact Appends.fail _
  · next variant _ => exact (h e.tag variant.tag).bind fun _ => (h variant.payload _).inside _

/-- **One level of a layout.** -/
theorem appends_encodeStep (h : ∀ id value, Appends (encode id value)) (layout : Layout)
    (value : Json) :
    Appends (encodeStep encode layout value) := by
  cases layout with
  | primitive p => exact composes_appends.primitive p value
  | struct l => exact appends_encodeStruct h l value
  | array a => exact appends_encodeArray h a value
  | enum e => exact appends_encodeEnum h e value
  | synonym target => exact h target value
  | list element maxLength => exact appends_encodeList h element maxLength value
  | padded inner size => exact appends_encodePadded h inner size value
  | bytes count => exact appends_encodeBytes count value

end Codec

/-! ### Types -/

theorem Arena.appends_encodeWithin (arena : Arena) (levels : ℕ) (id : TypeId) (value : Json) :
    Appends (arena.encodeWithin levels id value) := by
  induction levels generalizing id value with
  | zero =>
    intro buffer
    change EStateM.Result.error _ buffer = .error _ (buffer ++ #[])
    rw [Array.append_empty]
  | succ levels ih =>
    unfold encodeWithin
    split
    · next type _ => exact Codec.appends_encodeStep ih type.layout value
    · exact Appends.fail _

namespace TypeCodec

/-- **Encoding only appends, and looks at nothing that is there.** Onto any buffer a value is
encoded if and only if it has an encoding, which then stands behind the buffer; if it has
none, it fails for the same reason at the same place, and the buffer is still in front of
whatever has been written. -/
theorem encodeInto_frame (codec : TypeCodec) (value : Json) (buffer : Array UInt8) :
    (∀ after, codec.encodeInto value buffer = .ok () after ↔
      ∃ bytes, codec.encode value = .ok bytes ∧ after = buffer ++ bytes.toArray) ∧
    (∀ stop, (∃ after, codec.encodeInto value buffer = .error stop after) ↔
      codec.encode value = .error stop) ∧
    ∀ stop after, codec.encodeInto value buffer = .error stop after →
      after.take buffer.size = buffer := by
  have hrun : codec.encodeInto value buffer = behind buffer (codec.encodeInto value #[]) :=
    codec.arena.appends_encodeWithin _ codec.id value buffer
  unfold encode
  rw [hrun]
  cases codec.encodeInto value #[] with
  | ok _ out =>
    refine ⟨fun after => ⟨fun heq => ?_, ?_⟩, fun stop => ⟨?_, fun heq => nomatch heq⟩,
      fun _ _ heq => nomatch heq⟩
    · exact ⟨out.toList, rfl, (EStateM.Result.ok.inj heq).2.symm⟩
    · rintro ⟨bytes, hbytes, rfl⟩
      obtain rfl := Except.ok.inj hbytes
      rfl
    · rintro ⟨_, heq⟩
      cases heq
  | error stop out =>
    refine ⟨fun after => ⟨(fun heq => nomatch heq), ?_⟩, fun other => ⟨?_, fun heq => ?_⟩,
      fun other after heq => ?_⟩
    · rintro ⟨_, heq, _⟩
      cases heq
    · rintro ⟨_, heq⟩
      exact congrArg Except.error (EStateM.Result.error.inj heq).1
    · obtain rfl := Except.error.inj heq
      exact ⟨_, rfl⟩
    · rw [← (EStateM.Result.error.inj heq).2]
      simp [Array.take_eq_extract]

end TypeCodec

end Wireform
