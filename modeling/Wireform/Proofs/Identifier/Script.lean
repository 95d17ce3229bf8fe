import Mathlib.Data.List.Forall2
import Mathlib.Data.List.TakeDrop
import Wireform.Identifier.Canonical

/-!
# Texts that are read in one way

A thing is told by its text if, whatever legible thing has a text in its place, both are the
same and what follows is the same, provided that what follows may follow. Things between
separators are told by their texts if each of them is and nothing that may follow the last one
begins like the separator.

* `Script.Told`: a thing is told by its text.
* `Script.joined`: things between separators.
-/

namespace Wireform

/-! ### Runs of characters -/

/-- **A run of characters** ends where the first other one stands. -/
theorem run_unique (p : Char → Bool) {run run' rest rest' : List Char}
    (hrun : ∀ c ∈ run, p c = true) (hrun' : ∀ c ∈ run', p c = true)
    (hrest : ∀ c ∈ rest.head?, p c = false) (hrest' : ∀ c ∈ rest'.head?, p c = false)
    (h : run ++ rest = run' ++ rest') : run = run' ∧ rest = rest' := by
  have hnone : ∀ {rest : List Char}, (∀ c ∈ rest.head?, p c = false) → rest.takeWhile p = [] := by
    intro rest hrest
    cases rest with
    | nil => rfl
    | cons c rest => exact List.takeWhile_cons_of_neg (Bool.eq_false_iff.1 (hrest c rfl))
  have htaken := congrArg (List.takeWhile p) h
  rw [List.takeWhile_append_of_pos hrun, List.takeWhile_append_of_pos hrun', hnone hrest,
    hnone hrest', List.append_nil, List.append_nil] at htaken
  subst htaken
  exact ⟨rfl, List.append_cancel_left h⟩

/-! ### What may follow -/

/-- The marks that may follow the text of an argument, an element or a token. -/
def closers : List Char := [',', ';', '>', ']', ')', ' ']

/-- Such a mark comes next, or nothing. -/
def EndsPart (rest : List Char) : Prop := ∀ c ∈ rest.head?, c ∈ closers

/-- Such a mark comes next, or nothing, or the point before another segment. -/
def EndsSegment (rest : List Char) : Prop := ∀ c ∈ rest.head?, c ∈ '.' :: closers

theorem endsPart_cons {c : Char} (hc : c ∈ closers) (rest : List Char) : EndsPart (c :: rest) := by
  intro d hd
  obtain rfl := Option.some.inj hd
  exact hc

theorem endsSegment_cons {c : Char} (hc : c ∈ '.' :: closers) (rest : List Char) :
    EndsSegment (c :: rest) := by
  intro d hd
  obtain rfl := Option.some.inj hd
  exact hc

theorem EndsPart.segment {rest : List Char} (h : EndsPart rest) : EndsSegment rest :=
  fun c hc => List.mem_cons_of_mem _ (h c hc)

/-- A character that is of none of the marks. -/
def isInner (c : Char) : Bool := c ∉ closers

theorem EndsPart.not_inner {rest : List Char} (h : EndsPart rest) :
    ∀ c ∈ rest.head?, isInner c = false :=
  fun c hc => decide_eq_false fun hnot => hnot (h c hc)

theorem EndsPart.not_segment {rest : List Char} (h : EndsPart rest) :
    rest.head?.all (fun c => c ≠ '<' && c ≠ '.') = true := by
  cases rest with
  | nil => rfl
  | cons c rest =>
    have hall : closers.all (fun c => c ≠ '<' && c ≠ '.') = true := by decide
    exact List.all_eq_true.1 hall c (h c rfl)

/-- **What has none of the marks in it** goes as far as the next one. -/
theorem inner_unique {text text' rest rest' : List Char} (htext : ∀ c ∈ text, isInner c = true)
    (htext' : ∀ c ∈ text', isInner c = true) (hrest : EndsPart rest) (hrest' : EndsPart rest')
    (h : text ++ rest = text' ++ rest') : text = text' ∧ rest = rest' :=
  run_unique isInner htext htext' hrest.not_inner hrest'.not_inner h

/-- A text that is not nothing and does not begin with a closing mark. -/
def Begins (text : List Char) : Prop := ∃ c more, text = c :: more ∧ isInner c = true

theorem Begins.ne {text close : List Char} (h : Begins text) (hclose : EndsPart close)
    (rest : List Char) :
    text ++ rest ≠ close := by
  obtain ⟨c, more, rfl, hc⟩ := h
  rintro rfl
  exact of_decide_eq_true hc (hclose c rfl)

theorem Begins.of_inner {text : List Char} (hne : text ≠ []) (h : ∀ c ∈ text, isInner c = true) :
    Begins text := by
  obtain ⟨c, more, rfl⟩ := List.exists_cons_of_ne_nil hne
  exact ⟨c, more, rfl, h c List.mem_cons_self⟩

/-! ### Scripts -/

/-- How things of a kind are written. -/
structure Script (α β : Type) where
  /-- The text of a thing, if it has one. -/
  chars? : α → Option (List Char)
  /-- What its text tells. -/
  settled : α → β
  /-- Whether its text can be read in one way. -/
  legible : α → Prop
  /-- What may follow its text. -/
  after : List Char → Prop

namespace Script

variable {α β : Type} (w : Script α β)

/-- No other legible thing has a text in the place of that of this one. -/
def Told (x : α) : Prop :=
  ∀ x' text text' rest rest', w.legible x' → w.chars? x = some text →
    w.chars? x' = some text' → w.after rest →
    w.after rest' → text ++ rest = text' ++ rest' → w.settled x = w.settled x' ∧ rest = rest'

/-- Things with their texts. -/
abbrev Written (xs : List α) (texts : List (List Char)) : Prop :=
  List.Forall₂ (fun x text => w.chars? x = some text) xs texts

theorem written_of_mapM {xs : List α} {texts : List (List Char)}
    (h : xs.mapM w.chars? = some texts) :
    w.Written xs texts := by
  induction xs generalizing texts with
  | nil =>
    obtain rfl := Option.some.inj h
    exact .nil
  | cons x xs ih =>
    rw [List.mapM_cons] at h
    obtain ⟨text, htext, h⟩ := Option.bind_eq_some_iff.1 h
    obtain ⟨rest, hrest, h⟩ := Option.bind_eq_some_iff.1 h
    obtain rfl := Option.some.inj h
    exact .cons htext (ih hrest)

end Script

/-! ### Things between separators -/

theorem joinChars_cons (separator text : List Char) (texts : List (List Char)) :
    joinChars separator (text :: texts) = text ++ texts.flatMap (separator ++ ·) := by
  induction texts generalizing text with
  | nil => rw [joinChars, List.intercalate_singleton, List.flatMap_nil, List.append_nil]
  | cons next texts ih =>
    rw [joinChars, List.intercalate_cons_cons, ← joinChars, ih, List.flatMap_cons,
      List.append_assoc, List.append_assoc]

/-- What separates things and what closes them: each may follow a thing, and they begin
differently. -/
structure Script.Separates {α β : Type} (w : Script α β) (mark : Char)
    (more close : List Char) : Prop where
  separator : ∀ rest, w.after (mark :: more ++ rest)
  after_close : w.after close
  closes : EndsPart close
  distinct : close.head? ≠ some mark

namespace Script

variable {α β : Type} {w : Script α β} {mark : Char} {more close close' : List Char}
  {xs xs' : List α} {texts texts' : List (List Char)}

theorem Separates.after (h : w.Separates mark more close) (texts : List (List Char)) :
    w.after (texts.flatMap (mark :: more ++ ·) ++ close) := by
  cases texts with
  | nil => exact h.after_close
  | cons text texts =>
    rw [List.flatMap_cons, List.append_assoc, List.append_assoc]
    exact h.separator _

/-- Things that each follow a separator. -/
theorem joined_tail (hclose : w.Separates mark more close) (hclose' : w.Separates mark more close')
    (htexts : w.Written xs texts) (htexts' : w.Written xs' texts') (htold : ∀ x ∈ xs, w.Told x)
    (hlegible : ∀ x ∈ xs', w.legible x)
    (h : texts.flatMap (mark :: more ++ ·) ++ close =
      texts'.flatMap (mark :: more ++ ·) ++ close') :
    xs.map w.settled = xs'.map w.settled ∧ close = close' := by
  induction htexts generalizing xs' texts' with
  | nil =>
    cases htexts' with
    | nil => exact ⟨rfl, h⟩
    | cons htext' hrest' => exact absurd (congrArg List.head? h) hclose.distinct
  | @cons x text xs texts htext hrest ih =>
    cases htexts' with
    | nil => exact absurd (congrArg List.head? h.symm) hclose'.distinct
    | @cons x' text' xs' texts' htext' hrest' =>
      rw [List.flatMap_cons, List.flatMap_cons, List.append_assoc, List.append_assoc,
        List.append_assoc, List.append_assoc] at h
      obtain ⟨hx, htail⟩ :=
        htold x List.mem_cons_self x' text text' _ _ (hlegible x' List.mem_cons_self) htext htext'
        (hclose.after texts) (hclose'.after texts') (List.append_cancel_left h)
      obtain ⟨hxs, hsame⟩ := ih hrest' (fun y hy => htold y (List.mem_cons_of_mem _ hy))
        (fun y hy => hlegible y (List.mem_cons_of_mem _ hy)) htail
      exact ⟨by rw [List.map_cons, List.map_cons, hx, hxs], hsame⟩

/-- **Things between separators** are told by their texts if each of them is. -/
theorem joined (hclose : w.Separates mark more close) (hclose' : w.Separates mark more close')
    (hbegins : ∀ x text, w.legible x → w.chars? x = some text → Begins text)
    (htexts : w.Written xs texts) (htexts' : w.Written xs' texts') (htold : ∀ x ∈ xs, w.Told x)
    (hlegible : ∀ x ∈ xs, w.legible x) (hlegible' : ∀ x ∈ xs', w.legible x)
    (h : joinChars (mark :: more) texts ++ close = joinChars (mark :: more) texts' ++ close') :
    xs.map w.settled = xs'.map w.settled ∧ close = close' := by
  cases htexts with
  | nil =>
    cases htexts' with
    | nil => exact ⟨rfl, h⟩
    | @cons x' text' _ _ htext' _ =>
      rw [joinChars_cons, List.append_assoc] at h
      have hbegins' := hbegins x' text' (hlegible' x' List.mem_cons_self) htext'
      exact absurd h.symm (hbegins'.ne hclose.closes _)
  | @cons x text xs texts htext hrest =>
    rw [joinChars_cons, List.append_assoc] at h
    cases htexts' with
    | nil =>
      exact absurd h ((hbegins x text (hlegible x List.mem_cons_self) htext).ne hclose'.closes _)
    | @cons x' text' xs' texts' htext' hrest' =>
      rw [joinChars_cons, List.append_assoc] at h
      obtain ⟨hx, htail⟩ :=
        htold x List.mem_cons_self x' text text' _ _ (hlegible' x' List.mem_cons_self) htext htext'
        (hclose.after texts) (hclose'.after texts') h
      obtain ⟨hxs, hsame⟩ :=
        joined_tail hclose hclose' hrest hrest' (fun y hy => htold y (List.mem_cons_of_mem _ hy))
        (fun y hy => hlegible' y (List.mem_cons_of_mem _ hy)) htail
      exact ⟨by rw [List.map_cons, List.map_cons, hx, hxs], hsame⟩

end Script

end Wireform
