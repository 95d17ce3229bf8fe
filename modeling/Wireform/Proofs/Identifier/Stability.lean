import Mathlib.Data.List.TakeDrop
import Mathlib.Data.List.TakeWhile
import Wireform.Identifier.Parser
import Wireform.Proofs.Ensures
import Wireform.Proofs.Expression.Stability

/-!
# Text refers to what is stable

A `<` is a mark of its own, so there is none in a word; and text has no way to say an inline
struct. So whatever reference is read from a text is stable wherever it stands.

`Reads x p` says of a reader that from plain lexemes it reads what has the property `p`, and
leaves plain lexemes.

* `Parsing.readers`: this of all readers, by induction on the number of steps.
* `TypeRef.isStable_of_parse`: a reference that is read from a text is stable.
-/

namespace Wireform

/-- A lexeme that is not a word with a `<` in it. -/
def Lexeme.Plain : Lexeme → Prop
  | .word text => '<' ∉ text.toList
  | _ => True

/-! ### Lexemes -/

/-- No word has a `<` in it. -/
theorem Lexeme.first_plain {s rest : List Char} {lexeme : Lexeme}
    (h : first s = .ok (lexeme, rest)) :
    lexeme.Plain := by
  unfold first at h
  split at h
  · dsimp only at h
    split at h <;> cases h
    trivial
  · split at h
    · cases h
    · next c rest hstart =>
      split at h
      · cases h
        trivial
      split at h
      · split at h
        · cases h
        · split at h <;> cases h
          trivial
      split at h
      · rw [List.span_eq_takeWhile_dropWhile] at h
        cases h
        rw [Plain, String.toList_ofList]
        intro hmem
        have hword := List.mem_takeWhile_imp hmem
        cases hword
      split at h <;> cases h
      trivial

theorem Lexeme.lexWithin_plain {bound : ℕ} {s : List Char} {lexemes : List Lexeme}
    (h : lexWithin bound s = .ok lexemes) : ∀ lexeme ∈ lexemes, lexeme.Plain := by
  induction bound generalizing s lexemes with
  | zero =>
    unfold lexWithin at h
    split at h
    · cases h
      exact List.forall_mem_nil _
    · cases h
  | succ bound ih =>
    unfold lexWithin at h
    split at h
    · cases h
      exact List.forall_mem_nil _
    · next c rest _ =>
      dsimp only at h
      cases hfirst : first (c :: rest) with
      | error fault => rw [hfirst] at h; cases h
      | ok found =>
        obtain ⟨lexeme, rest⟩ := found
        cases hrest : lexWithin bound rest with
        | error fault => rw [hfirst] at h; simp only [bind, Except.bind, hrest] at h; cases h
        | ok more =>
          rw [hfirst] at h
          simp only [bind, Except.bind, hrest] at h
          cases h
          exact List.forall_mem_cons.2 ⟨first_plain hfirst, ih hrest⟩

/-! ### Readers -/

/-- A reference that is stable wherever it stands. -/
def Steady (r : TypeRef) : Prop := ∀ inner, r.isStable inner = true

/-- An expression that is stable wherever it stands. -/
def SteadyExpr (expr : Expr) : Prop := ∀ inner, isStableExpr inner expr = true

/-- A name without a `<` in it, with arguments that are stable wherever they stand. -/
def SteadySegment (segment : PathSegment) : Prop :=
  '<' ∉ segment.name.toList ∧ ∀ inner, isStableArguments inner segment.arguments = true

theorem isStableExpr_append {inner : Bool} (expr more : Expr) :
    isStableExpr inner (expr ++ more) = (isStableExpr inner expr && isStableExpr inner more) := by
  induction expr with
  | nil => rfl
  | cons token rest ih => simp only [List.cons_append, isStableExpr, ih, Bool.and_assoc]

theorem SteadyExpr.append {expr more : Expr} (h : SteadyExpr expr) (hmore : SteadyExpr more) :
    SteadyExpr (expr ++ more) := by
  intro inner
  rw [isStableExpr_append, h inner, hmore inner]
  rfl

theorem steadyExpr_operator (name : String) : SteadyExpr [.operator name] := fun _ => rfl

theorem steadyExpr_flatten {exprs : List Expr} (h : ∀ expr ∈ exprs, SteadyExpr expr) :
    SteadyExpr exprs.flatten := by
  induction exprs with
  | nil => exact fun _ => rfl
  | cons expr rest ih =>
    obtain ⟨hexpr, hrest⟩ := List.forall_mem_cons.1 h
    exact hexpr.append (ih hrest)

theorem isStableExprs_of_steady {exprs : List Expr} (h : ∀ expr ∈ exprs, SteadyExpr expr)
    (inner : Bool) :
    isStableExprs inner exprs = true := by
  induction exprs with
  | nil => rfl
  | cons expr rest ih =>
    obtain ⟨hexpr, hrest⟩ := List.forall_mem_cons.1 h
    rw [isStableExprs, hexpr inner, ih hrest]
    rfl

theorem isStableSegments_of_steady {segments : List PathSegment}
    (h : ∀ segment ∈ segments, SteadySegment segment) (inner localOnly : Bool) :
    isStableSegments inner localOnly segments = true := by
  induction segments generalizing inner localOnly with
  | nil => rfl
  | cons segment rest ih =>
    obtain ⟨name, arguments⟩ := segment
    obtain ⟨⟨hname, harguments⟩, hrest⟩ := List.forall_mem_cons.1 h
    dsimp only at hname harguments
    simp [isStableSegments, hname, harguments inner, ih hrest]

namespace Parsing

/-- From plain lexemes it reads what has a property, and leaves plain lexemes. -/
def Reads {α : Type} (x : Parsing α) (p : α → Prop) : Prop :=
  ∀ s, (∀ lexeme ∈ s, lexeme.Plain) →
    Ensures s x (fun a t => (∀ lexeme ∈ t, lexeme.Plain) ∧ p a) fun _ _ => True

namespace Reads

variable {α β : Type} {x : Parsing α} {p : α → Prop}

theorem bind {f : α → Parsing β} {q : β → Prop} (hx : Reads x p) (hf : ∀ a, p a → Reads (f a) q) :
    Reads (x >>= f) q :=
  fun s hs => Ensures.bind (hx s hs) fun a t ha => hf a ha.2 t ha.1

theorem pure {a : α} (h : p a) : Reads (Pure.pure a) p := fun _ hs => ⟨hs, h⟩

theorem throw (fault : SyntaxFault) : Reads (MonadExcept.throw fault : Parsing α) p :=
  fun _ _ => trivial

theorem ite {c : Bool} {y : Parsing α} (hx : Reads x p) (hy : Reads y p) :
    Reads (if c = true then x else y) p := by
  split
  · exact hx
  · exact hy

end Reads

theorem reads_get : Reads get fun s => ∀ lexeme ∈ s, lexeme.Plain := fun _ hs => ⟨hs, hs⟩

theorem reads_set {s : List Lexeme} (hs : ∀ lexeme ∈ s, lexeme.Plain) :
    Reads (set s) fun _ => True :=
  fun _ _ => ⟨hs, trivial⟩

theorem reads_eat (symbol : Char) : Reads (eat symbol) fun _ => True := by
  intro s hs
  unfold Ensures eat
  split
  · next a t h =>
    refine ⟨?_, trivial⟩
    split at h
    · split at h <;> cases h
      · exact (List.forall_mem_cons.1 hs).2
      · exact hs
    · cases h
      exact hs
  · trivial

theorem reads_expect (symbol : Char) : Reads (expect symbol) fun _ => True :=
  (reads_eat symbol).bind fun _ _ => .ite (.pure trivial) (.throw _)

theorem reads_word : Reads word fun name => '<' ∉ name.toList := by
  intro s hs
  unfold Ensures word
  split
  · next a t h =>
    split at h
    · cases h
      obtain ⟨hword, hrest⟩ := List.forall_mem_cons.1 hs
      exact ⟨hrest, hword⟩
    · cases h
  · trivial

/-- What follows a function's name is plain if everything is. -/
theorem call?_plain {s rest : List Lexeme} {name : String} (hs : ∀ lexeme ∈ s, lexeme.Plain)
    (hcall : factor.call? s = some (name, rest)) : ∀ lexeme ∈ rest, lexeme.Plain := by
  unfold factor.call? at hcall
  split at hcall
  · split at hcall
    · cases hcall
      exact (List.forall_mem_cons.1 (List.forall_mem_cons.1 hs).2).2
    · cases hcall
  · cases hcall

theorem reads_finish : Reads finish fun _ => True := by
  intro s hs
  cases s with
  | nil => exact ⟨hs, trivial⟩
  | cons => trivial

/-- What all readers do that are given so many steps. -/
structure Readers (parameters : List String) (bound : ℕ) : Prop where
  type : Reads (type parameters bound) Steady
  segment : ∀ name, '<' ∉ name.toList → Reads (segment parameters bound name) SteadySegment
  segments : Reads (segments parameters bound) fun more => ∀ segment ∈ more, SteadySegment segment
  arguments : ∀ close, Reads (arguments parameters bound close)
    fun exprs => ∀ expr ∈ exprs, SteadyExpr expr
  sum : Reads (sum parameters bound) SteadyExpr
  moreSum : ∀ sofar, SteadyExpr sofar → Reads (moreSum parameters bound sofar) SteadyExpr
  product : Reads (product parameters bound) SteadyExpr
  moreProduct : ∀ sofar, SteadyExpr sofar → Reads (moreProduct parameters bound sofar) SteadyExpr
  factor : Reads (factor parameters bound) SteadyExpr

theorem steady_orNull {r : TypeRef} (h : Steady r) : Steady r.orNull := by
  obtain ⟨kind, nullable⟩ := r
  intro inner
  have hr := h inner
  cases kind <;> exact hr

section Step

variable {parameters : List String} {bound : ℕ} (h : Readers parameters bound)

include h

theorem reads_type : Reads (type parameters (bound + 1)) Steady := by
  unfold type
  refine (reads_eat '?').bind fun _ _ => .ite ?_ ?_
  · exact h.type.bind fun r hr => .pure (steady_orNull hr)
  refine (reads_eat '[').bind fun _ _ => .ite ?_ ?_
  · refine h.type.bind fun element helement => (reads_expect ';').bind fun _ _ => ?_
    refine h.sum.bind fun size hsize => (reads_expect ']').bind fun _ _ => .pure fun inner => ?_
    rw [TypeRef.array, TypeRef.ofKind, TypeRef.isStable, helement inner, hsize inner]
    rfl
  refine reads_word.bind fun name hname => reads_get.bind fun next _ => .ite ?_ (.ite ?_ ?_)
  · refine (reads_expect '<').bind fun _ _ => h.type.bind fun r hr => ?_
    exact (reads_expect '>').bind fun _ _ => .pure (steady_orNull hr)
  · exact .pure fun _ => rfl
  refine (h.segment name hname).bind fun first hfirst => h.segments.bind fun more hmore => ?_
  split
  · refine .pure fun inner => ?_
    simp [TypeRef.ofKind, TypeRef.isStable, hfirst.1, hfirst.2 inner]
  · exact .pure
      fun inner => isStableSegments_of_steady (List.forall_mem_cons.2 ⟨hfirst, hmore⟩) inner false

theorem reads_segment (name : String) (hname : '<' ∉ name.toList) :
    Reads (segment parameters (bound + 1) name) SteadySegment := by
  unfold segment
  refine (reads_eat '<').bind fun _ _ => .ite ?_ (.pure ⟨hname, fun _ => rfl⟩)
  exact (h.arguments '>').bind fun exprs hexprs => .pure ⟨hname, isStableExprs_of_steady hexprs⟩

theorem reads_segments :
    Reads (segments parameters (bound + 1))
      fun more => ∀ segment ∈ more, SteadySegment segment := by
  unfold segments
  refine (reads_eat '.').bind fun _ _ => .ite ?_ (.pure (List.forall_mem_nil _))
  refine reads_word.bind fun name hname => (h.segment name hname).bind fun first hfirst => ?_
  exact h.segments.bind fun more hmore => .pure (List.forall_mem_cons.2 ⟨hfirst, hmore⟩)

theorem reads_arguments (close : Char) :
    Reads (arguments parameters (bound + 1) close)
      fun exprs => ∀ expr ∈ exprs, SteadyExpr expr := by
  unfold arguments
  refine h.sum.bind fun first hfirst => (reads_eat close).bind fun _ _ => .ite ?_ ?_
  · exact .pure (List.forall_mem_singleton.2 hfirst)
  · refine (reads_expect ',').bind fun _ _ => (h.arguments close).bind fun more hmore => ?_
    exact .pure (List.forall_mem_cons.2 ⟨hfirst, hmore⟩)

theorem reads_moreSum (sofar : Expr) (hsofar : SteadyExpr sofar) :
    Reads (moreSum parameters (bound + 1) sofar) SteadyExpr := by
  have hmore : ∀ name : String, Reads (do
      moreSum parameters bound (sofar ++ (← product parameters bound) ++ [.operator name]))
      SteadyExpr :=
    fun name => h.product.bind fun operand hoperand =>
      h.moreSum _ ((hsofar.append hoperand).append (steadyExpr_operator name))
  unfold moreSum
  refine (reads_eat '+').bind fun _ _ => .ite (hmore "+") ?_
  exact (reads_eat '-').bind fun _ _ => .ite (hmore "-") (.pure hsofar)

theorem reads_moreProduct (sofar : Expr) (hsofar : SteadyExpr sofar) :
    Reads (moreProduct parameters (bound + 1) sofar) SteadyExpr := by
  have hmore : ∀ name : String, Reads (do
      moreProduct parameters bound (sofar ++ (← factor parameters bound) ++ [.operator name]))
      SteadyExpr :=
    fun name => h.factor.bind fun operand hoperand =>
      h.moreProduct _ ((hsofar.append hoperand).append (steadyExpr_operator name))
  unfold moreProduct
  refine (reads_eat '*').bind fun _ _ => .ite (hmore "*") ?_
  refine (reads_eat '/').bind fun _ _ => .ite (hmore "/") ?_
  exact (reads_eat '%').bind fun _ _ => .ite (hmore "%") (.pure hsofar)

theorem reads_factor : Reads (factor parameters (bound + 1)) SteadyExpr := by
  unfold factor
  refine reads_get.bind fun s hs => ?_
  split
  · have hrest := (List.forall_mem_cons.1 hs).2
    exact (reads_set hrest).bind fun _ _ => .pure fun _ => rfl
  · have hrest := (List.forall_mem_cons.1 hs).2
    exact (reads_set hrest).bind fun _ _ => .pure fun _ => rfl
  · have hrest := (List.forall_mem_cons.1 hs).2
    refine (reads_set hrest).bind fun _ _ => h.sum.bind fun expr hexpr => ?_
    exact (reads_expect ')').bind fun _ _ => .pure hexpr
  · have hrest := (List.forall_mem_cons.1 hs).2
    refine (reads_set hrest).bind fun _ _ => h.factor.bind fun expr hexpr => .pure ?_
    have hzero : SteadyExpr [.number (.zero false)] := fun _ => rfl
    exact (hzero.append hexpr).append (steadyExpr_operator "-")
  · split
    · next name rest hcall =>
      refine (reads_set (call?_plain hs hcall)).bind
        fun _ _ => (h.arguments ')').bind fun exprs hexprs => ?_
      exact .pure ((steadyExpr_flatten hexprs).append (steadyExpr_operator name))
    · refine h.type.bind fun r hr => ?_
      split
      · exact .pure fun _ => rfl
      · refine .pure fun inner => ?_
        rw [isStableExpr, isStableToken, hr inner]
        rfl

end Step

theorem readers (parameters : List String) (bound : ℕ) : Readers parameters bound := by
  induction bound with
  | zero =>
    exact ⟨.throw _, fun _ _ => .throw _, .throw _, fun _ => .throw _, .throw _,
      fun _ _ => .throw _, .throw _, fun _ _ => .throw _, .throw _⟩
  | succ bound ih =>
    refine ⟨reads_type ih, reads_segment ih, reads_segments ih, reads_arguments ih, ?_,
      reads_moreSum ih, ?_, reads_moreProduct ih, reads_factor ih⟩
    · exact ih.product.bind ih.moreSum
    · exact ih.factor.bind ih.moreProduct

end Parsing

/-- **A reference that is read from a text is stable.** -/
theorem TypeRef.isStable_of_parse {text : String} {parameters : List String} {r : TypeRef}
    (h : parse text parameters = .ok r) (inner : Bool) : r.isStable inner = true := by
  unfold parse Parsing.whole at h
  split at h
  · cases h
  · next lexemes hlex =>
    have hreads : Parsing.Reads (do
        let result ← Parsing.type parameters (Parsing.enoughSteps lexemes)
        Parsing.finish
        return result) Steady :=
      (Parsing.readers parameters _).type.bind
        fun r hr => Parsing.reads_finish.bind fun _ _ => .pure hr
    dsimp only at h
    split at h
    · next result rest hrun =>
      obtain rfl := Except.ok.inj h
      exact ((hreads lexemes (Lexeme.lexWithin_plain hlex)).of_ok hrun).2 inner
    · cases h

end Wireform
