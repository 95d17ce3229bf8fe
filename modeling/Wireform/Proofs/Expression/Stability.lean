import Wireform.Identifier.Canonical
import Wireform.Proofs.Expression.Substitution

/-!
# References that mean the same later

What a name stands for depends on the namespaces around the place where it stands, and these
get entries of their own for the instances of their templates. Such an entry has a `<` in its
key, so it can come between a name and what the name stood for only if there is one in the
name, and only if the name is looked up from inside a nested namespace: around the root there
is nothing to come before. So a reference is stable (`TypeRef.isStable`) if no such name is
looked up from inside one, and if each of its instances has a text by which it is found again.

* `TypeRef.canonicalChars?_of_isStable`: a stable reference has a text.
* `Operand.isStable`: the same for what an expression leaves.
-/

namespace Wireform

mutual

/-- Whether a reference means the same later: it has no inline struct, and no name with `<` in it is
looked up from a nested namespace. `inner` tells whether the reference itself stands in one; the
arguments of a path's later segments always do. -/
def TypeRef.isStable (inner : Bool) : TypeRef → Bool
  | ⟨.parameter _, _⟩ => true
  | ⟨.named name arguments, _⟩ =>
    (!inner || !name.toList.contains '<') && isStableArguments inner arguments
  | ⟨.inline _, _⟩ => false
  | ⟨.array element size, _⟩ => element.isStable inner && isStableExpr inner size
  | ⟨.path segments, _⟩ => isStableSegments inner false segments

/-- Whether arguments mean the same later. -/
def isStableArguments (inner : Bool) : Option (List (List Token)) → Bool
  | none => true
  | some arguments => isStableExprs inner arguments

/-- Whether expressions mean the same later. -/
def isStableExprs (inner : Bool) : List (List Token) → Bool
  | [] => true
  | expr :: rest => isStableExpr inner expr && isStableExprs inner rest

/-- Whether the types in an expression mean the same later. -/
def isStableExpr (inner : Bool) : List Token → Bool
  | [] => true
  | token :: rest => isStableToken inner token && isStableExpr inner rest

/-- Whether a token means the same later. -/
def isStableToken (inner : Bool) : Token → Bool
  | .type reference => reference.isStable inner
  | .number _ | .string _ | .parameter _ | .operator _ => true

/-- Whether the segments of a path mean the same later; a name that counts in one namespace only is
never looked up elsewhere. -/
def isStableSegments (inner localOnly : Bool) : List PathSegment → Bool
  | [] => true
  | ⟨name, arguments⟩ :: rest => (localOnly || !inner || !name.toList.contains '<') &&
    isStableArguments inner arguments && isStableSegments true true rest

end

/-- Whether a reference is a name or a path of names. -/
def TypeRef.isName (r : TypeRef) : Bool :=
  match r.kind with
  | .named .. | .path _ => true
  | _ => false

/-- Whether an operand means the same later. -/
def Operand.isStable (inner : Bool) : Operand → Bool
  | .constant _ => true
  | .type reference => reference.isStable inner

/-- An expression has a text if its tokens have one. -/
theorem exprChars?_isSome {tokens : Option (List (List Char))} (h : tokens.isSome) (expr : Expr) :
    (exprChars? expr tokens).isSome := by
  obtain ⟨texts, rfl⟩ := Option.isSome_iff_exists.1 h
  unfold exprChars?
  split
  · rfl
  · rfl
  · rfl
  · next hnone => cases hnone

namespace TypeRef

mutual

/-- A stable reference has a text. -/
theorem canonicalChars?_of_isStable {inner : Bool} :
    ∀ r : TypeRef, r.isStable inner = true → (canonicalChars? r).isSome
  | ⟨.parameter _, _⟩, _ => rfl
  | ⟨.named name arguments, _⟩, h => by
    simp only [isStable, Bool.and_eq_true] at h
    rw [canonicalChars?, Option.isSome_map]
    exact segmentChars?_of_isStable name arguments h.2
  | ⟨.inline _, _⟩, h => by simp [isStable] at h
  | ⟨.array element size, _⟩, h => by
    simp only [isStable, Bool.and_eq_true] at h
    obtain ⟨text, htext⟩ := Option.isSome_iff_exists.1 (canonicalChars?_of_isStable element h.1)
    obtain ⟨count, hcount⟩ :=
      Option.isSome_iff_exists.1 (exprChars?_isSome (tokensChars?_of_isStable size h.2) size)
    simp [canonicalChars?, htext, hcount]
  | ⟨.path segments, _⟩, h => by
    obtain ⟨texts, htexts⟩ := Option.isSome_iff_exists.1 (segmentsChars?_of_isStable segments h)
    simp [canonicalChars?, htexts]

theorem segmentChars?_of_isStable {inner : Bool} (name : String) :
    ∀ arguments, isStableArguments inner arguments = true → (segmentChars? name arguments).isSome
  | none, _ => by simp [segmentChars?]
  | some arguments, h => by
    obtain ⟨texts, htexts⟩ := Option.isSome_iff_exists.1 (exprsChars?_of_isStable arguments h)
    simp [segmentChars?, htexts]

theorem segmentsChars?_of_isStable {inner localOnly : Bool} :
    ∀ segments, isStableSegments inner localOnly segments = true → (segmentsChars? segments).isSome
  | [], _ => by simp [segmentsChars?]
  | ⟨name, arguments⟩ :: rest, h => by
    simp only [isStableSegments, Bool.and_eq_true] at h
    obtain ⟨text, htext⟩ :=
      Option.isSome_iff_exists.1 (segmentChars?_of_isStable name arguments h.1.2)
    obtain ⟨texts, htexts⟩ := Option.isSome_iff_exists.1 (segmentsChars?_of_isStable rest h.2)
    simp [segmentsChars?, htext, htexts]

theorem exprsChars?_of_isStable {inner : Bool} :
    ∀ exprs, isStableExprs inner exprs = true → (exprsChars? exprs).isSome
  | [], _ => by simp [exprsChars?]
  | expr :: rest, h => by
    simp only [isStableExprs, Bool.and_eq_true] at h
    obtain ⟨text, htext⟩ :=
      Option.isSome_iff_exists.1 (exprChars?_isSome (tokensChars?_of_isStable expr h.1) expr)
    obtain ⟨texts, htexts⟩ := Option.isSome_iff_exists.1 (exprsChars?_of_isStable rest h.2)
    simp [exprsChars?, htext, htexts]

theorem tokensChars?_of_isStable {inner : Bool} :
    ∀ tokens, isStableExpr inner tokens = true → (tokensChars? tokens).isSome
  | [], _ => by simp [tokensChars?]
  | token :: rest, h => by
    simp only [isStableExpr, Bool.and_eq_true] at h
    obtain ⟨text, htext⟩ := Option.isSome_iff_exists.1 (tokenChars?_of_isStable token h.1)
    obtain ⟨texts, htexts⟩ := Option.isSome_iff_exists.1 (tokensChars?_of_isStable rest h.2)
    simp [tokensChars?, htext, htexts]

theorem tokenChars?_of_isStable {inner : Bool} :
    ∀ token, isStableToken inner token = true → (tokenChars? token).isSome
  | .type reference, h => by
    rw [tokenChars?]
    exact canonicalChars?_of_isStable reference h
  | .number _, _ | .string _, _ | .parameter _, _ | .operator _, _ => by simp [tokenChars?]

end

end TypeRef

theorem Operand.chars?_of_isStable {inner : Bool} {operand : Operand}
    (h : operand.isStable inner = true) :
    operand.chars?.isSome := by
  cases operand with
  | constant => rfl
  | type reference => exact reference.canonicalChars?_of_isStable h

/-- An instance with stable arguments is known by a text. -/
theorem exists_instanceKey? {inner : Bool} (name : String) {arguments : List Operand}
    (h : ∀ operand ∈ arguments, operand.isStable inner = true) :
    ∃ key, instanceKey? name arguments = some key := by
  have htexts : ∃ texts, arguments.mapM Operand.chars? = some texts := by
    induction arguments with
    | nil => exact ⟨[], rfl⟩
    | cons operand rest ih =>
      obtain ⟨text, htext⟩ :=
        Option.isSome_iff_exists.1 (Operand.chars?_of_isStable (h operand List.mem_cons_self))
      obtain ⟨texts, htexts⟩ := ih fun other ho => h other (List.mem_cons_of_mem _ ho)
      exact ⟨text :: texts, by simp [htext, htexts]⟩
  obtain ⟨texts, htexts⟩ := htexts
  unfold instanceKey?
  split
  · exact ⟨name, rfl⟩
  · exact ⟨_, by rw [htexts]; rfl⟩

end Wireform
