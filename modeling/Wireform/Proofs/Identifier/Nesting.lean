import Wireform.Proofs.Expression.Substitution
import Wireform.Proofs.Identifier.Grammar

/-!
# Expressions inside types

The arguments and sizes in a type are expressions, which may have types in them, and so on. Each
of them has a derivation of its own inside that of the type, and the tokens that it means stand at
its place in the reference.

* `TypeRef.Holds`: an expression in a reference, at any depth.
* `TypeTree.sums`, `SumTree.inner`: the derivations of expressions inside a derivation.
* `TypeTree.holds`, `SumTree.embeds`: **what they mean is in the reference, or in a
  type of the expression.**
-/

namespace Wireform

/-- An expression in a reference, at any depth. -/
inductive TypeRef.Holds : TypeRef → Expr → Prop where
  | direct {r : TypeRef} {expr : Expr} (h : expr ∈ r.exprs) : Holds r expr
  | part {r part : TypeRef} {expr : Expr} (h : part ∈ r.parts)
      (hexpr : Holds part expr) : Holds r expr
  | inside {r q : TypeRef} {outer expr : Expr} (h : outer ∈ r.exprs) (hq : .type q ∈ outer)
      (hexpr : Holds q expr) :
      Holds r expr

/-- An expression in one of the types of another one. -/
def Embeds (outer expr : Expr) : Prop := ∃ q : TypeRef, .type q ∈ outer ∧ q.Holds expr

theorem Embeds.mono {outer more expr : Expr} (h : Embeds outer expr) (hsub : outer ⊆ more) :
    Embeds more expr := by
  obtain ⟨q, hq, hexpr⟩ := h
  exact ⟨q, hsub hq, hexpr⟩

/-- An expression is one of some expressions, or in one of their types. -/
def Among (outers : List Expr) (expr : Expr) : Prop :=
  ∃ outer ∈ outers, outer = expr ∨ Embeds outer expr

theorem Among.mono {outers more : List Expr} {expr : Expr} (h : Among outers expr)
    (hsub : outers ⊆ more) :
    Among more expr := by
  obtain ⟨outer, houter, hexpr⟩ := h
  exact ⟨outer, hsub houter, hexpr⟩

theorem TypeRef.holds_of_among {r : TypeRef} {expr : Expr} (h : Among r.exprs expr) :
    r.Holds expr := by
  obtain ⟨outer, houter, rfl | ⟨q, hq, hexpr⟩⟩ := h
  · exact .direct houter
  · exact .inside houter hq hexpr

theorem TypeRef.Holds.orNull {r : TypeRef} {expr : Expr} (h : r.Holds expr) :
    r.orNull.Holds expr := by
  have hexprs : r.orNull.exprs = r.exprs := by
    obtain ⟨kind, nullable⟩ := r
    cases kind <;> rfl
  have hparts : r.orNull.parts = r.parts := by
    obtain ⟨kind, nullable⟩ := r
    cases kind <;> rfl
  cases h with
  | direct h =>
    rw [← hexprs] at h
    exact .direct h
  | part h hexpr =>
    rw [← hparts] at h
    exact .part h hexpr
  | inside h hq hexpr =>
    rw [← hexprs] at h
    exact .inside h hq hexpr

namespace Grammar

mutual

/-- The arguments and sizes inside a type, at any depth. -/
def TypeTree.sums : TypeTree → List SumTree
  | .nullable inner => inner.sums
  | .array element size => element.sums ++ size :: size.inner
  | .option inner => inner.sums
  | .parameter _ => []
  | .path first more => first.sums ++ more.sums

/-- The arguments behind a name, and what is inside them. -/
def SegmentTree.sums : SegmentTree → List SumTree
  | .plain _ => []
  | .applied _ arguments => arguments.sums

/-- The arguments behind some names, and what is inside them. -/
def SegmentsTree.sums : SegmentsTree → List SumTree
  | .nil => []
  | .cons first rest => first.sums ++ rest.sums

/-- Some expressions, and what is inside their types. -/
def SumsTree.sums : SumsTree → List SumTree
  | .last expr => expr :: expr.inner
  | .cons expr rest => expr :: expr.inner ++ rest.sums

/-- The arguments and sizes inside the types of an expression. -/
def SumTree.inner : SumTree → List SumTree
  | .mk first more => first.inner ++ more.inner

/-- The arguments and sizes inside the types of further products. -/
def SumRest.inner : SumRest → List SumTree
  | .nil => []
  | .cons _ operand rest => operand.inner ++ rest.inner

/-- The arguments and sizes inside the types of a product. -/
def ProductTree.inner : ProductTree → List SumTree
  | .mk first more => first.inner ++ more.inner

/-- The arguments and sizes inside the types of further factors. -/
def ProductRest.inner : ProductRest → List SumTree
  | .nil => []
  | .cons _ operand rest => operand.inner ++ rest.inner

/-- The arguments and sizes inside the types of a factor. The arguments of a function are no
expressions of their own. -/
def FactorTree.inner : FactorTree → List SumTree
  | .number _ => []
  | .string _ => []
  | .group inner => inner.inner
  | .negation operand => operand.inner
  | .call _ arguments => arguments.inner
  | .type reference => reference.sums

/-- The arguments and sizes inside the types of some expressions. -/
def SumsTree.inner : SumsTree → List SumTree
  | .last expr => expr.inner
  | .cons expr rest => expr.inner ++ rest.inner

end

theorem SumRest.subset_tokensAfter (rest : SumRest) (sofar : Expr) :
    sofar ⊆ rest.tokensAfter sofar := by
  match rest with
  | .nil => exact List.Subset.refl _
  | .cons _ operand more =>
    intro token htoken
    refine more.subset_tokensAfter _ ?_
    exact List.mem_append_left _ (List.mem_append_left _ htoken)

theorem ProductRest.subset_tokensAfter (rest : ProductRest) (sofar : Expr) :
    sofar ⊆ rest.tokensAfter sofar := by
  match rest with
  | .nil => exact List.Subset.refl _
  | .cons _ operand more =>
    intro token htoken
    refine more.subset_tokensAfter _ ?_
    exact List.mem_append_left _ (List.mem_append_left _ htoken)

variable {parameters : List String} {sum : SumTree}

theorem pathReference_exprs (first : PathSegment) (more : List PathSegment) :
    (pathReference first more).exprs =
      (first :: more).flatMap fun segment => segment.arguments.getD [] := by
  cases more with
  | nil => exact (List.append_nil _).symm
  | cons second rest => rfl

mutual

/-- **What is inside a type** means expressions in its reference. -/
theorem TypeTree.holds (tree : TypeTree) (hproper : tree.Proper parameters) (h : sum ∈ tree.sums) :
    sum.Proper parameters ∧ tree.reference.Holds sum.tokens := by
  cases tree with
  | nullable inner =>
    obtain ⟨hsum, hholds⟩ := inner.holds hproper h
    exact ⟨hsum, hholds.orNull⟩
  | array element size =>
    have hexprs : (TypeTree.array element size).reference.exprs = [size.tokens] := rfl
    rcases List.mem_append.1 h with h | h
    · obtain ⟨hsum, hholds⟩ := element.holds hproper.1 h
      exact ⟨hsum, .part List.mem_cons_self hholds⟩
    rcases List.mem_cons.1 h with rfl | h
    · refine ⟨hproper.2, .direct ?_⟩
      rw [hexprs]
      exact List.mem_cons_self
    · obtain ⟨hsum, q, hq, hholds⟩ := size.embeds hproper.2 h
      refine ⟨hsum, .inside ?_ hq hholds⟩
      rw [hexprs]
      exact List.mem_cons_self
  | option inner =>
    obtain ⟨hsum, hholds⟩ := inner.holds hproper h
    exact ⟨hsum, hholds.orNull⟩
  | parameter name => cases h
  | path first more =>
    have hexprs := pathReference_exprs first.segment more.segments
    rcases List.mem_append.1 h with h | h
    · obtain ⟨hsum, hamong⟩ := first.among hproper.2.1 h
      refine ⟨hsum, TypeRef.holds_of_among (hamong.mono ?_)⟩
      rw [TypeTree.reference, hexprs]
      exact List.subset_append_left _ _
    · obtain ⟨hsum, hamong⟩ := more.among hproper.2.2 h
      refine ⟨hsum, TypeRef.holds_of_among (hamong.mono ?_)⟩
      rw [TypeTree.reference, hexprs]
      exact List.subset_append_right _ _

theorem SegmentTree.among (tree : SegmentTree) (hproper : tree.Proper parameters)
    (h : sum ∈ tree.sums) :
    sum.Proper parameters ∧ Among (tree.segment.arguments.getD []) sum.tokens := by
  cases tree with
  | plain name => cases h
  | applied name arguments => exact arguments.among hproper h

theorem SegmentsTree.among (tree : SegmentsTree) (hproper : tree.Proper parameters)
    (h : sum ∈ tree.sums) :
    sum.Proper parameters ∧ Among (tree.segments.flatMap fun segment => segment.arguments.getD [])
      sum.tokens := by
  cases tree with
  | nil => cases h
  | cons first rest =>
    rcases List.mem_append.1 h with h | h
    · obtain ⟨hsum, hamong⟩ := first.among hproper.1 h
      exact ⟨hsum, hamong.mono (List.subset_append_left _ _)⟩
    · obtain ⟨hsum, hamong⟩ := rest.among hproper.2 h
      exact ⟨hsum, hamong.mono (List.subset_append_right _ _)⟩

theorem SumsTree.among (tree : SumsTree) (hproper : tree.Proper parameters) (h : sum ∈ tree.sums) :
    sum.Proper parameters ∧ Among tree.exprs sum.tokens := by
  cases tree with
  | last expr =>
    rcases List.mem_cons.1 h with rfl | h
    · exact ⟨hproper, _, List.mem_cons_self, .inl rfl⟩
    · obtain ⟨hsum, hembeds⟩ := expr.embeds hproper h
      exact ⟨hsum, _, List.mem_cons_self, .inr hembeds⟩
  | cons expr rest =>
    rcases List.mem_cons.1 h with rfl | h
    · exact ⟨hproper.1, _, List.mem_cons_self, .inl rfl⟩
    rcases List.mem_append.1 h with h | h
    · obtain ⟨hsum, hembeds⟩ := expr.embeds hproper.1 h
      exact ⟨hsum, _, List.mem_cons_self, .inr hembeds⟩
    · obtain ⟨hsum, hamong⟩ := rest.among hproper.2 h
      exact ⟨hsum, hamong.mono (List.subset_cons_self _ _)⟩

/-- **What is inside an expression** means expressions in its types. -/
theorem SumTree.embeds (tree : SumTree) (hproper : tree.Proper parameters) (h : sum ∈ tree.inner) :
    sum.Proper parameters ∧ Embeds tree.tokens sum.tokens := by
  obtain ⟨first, more⟩ := tree
  rcases List.mem_append.1 h with h | h
  · obtain ⟨hsum, hembeds⟩ := first.embeds hproper.1 h
    exact ⟨hsum, hembeds.mono (more.subset_tokensAfter _)⟩
  · exact more.embeds hproper.2 _ h

theorem SumRest.embeds (tree : SumRest) (hproper : tree.Proper parameters) (sofar : Expr)
    (h : sum ∈ tree.inner) :
    sum.Proper parameters ∧ Embeds (tree.tokensAfter sofar) sum.tokens := by
  cases tree with
  | nil => cases h
  | cons operator operand rest =>
    rcases List.mem_append.1 h with h | h
    · obtain ⟨hsum, hembeds⟩ := operand.embeds hproper.1 h
      refine ⟨hsum, hembeds.mono fun token htoken => rest.subset_tokensAfter _ ?_⟩
      exact List.mem_append_left _ (List.mem_append_right _ htoken)
    · exact rest.embeds hproper.2 _ h

theorem ProductTree.embeds (tree : ProductTree) (hproper : tree.Proper parameters)
    (h : sum ∈ tree.inner) :
    sum.Proper parameters ∧ Embeds tree.tokens sum.tokens := by
  obtain ⟨first, more⟩ := tree
  rcases List.mem_append.1 h with h | h
  · obtain ⟨hsum, hembeds⟩ := first.embeds hproper.1 h
    exact ⟨hsum, hembeds.mono (more.subset_tokensAfter _)⟩
  · exact more.embeds hproper.2 _ h

theorem ProductRest.embeds (tree : ProductRest) (hproper : tree.Proper parameters) (sofar : Expr)
    (h : sum ∈ tree.inner) : sum.Proper parameters ∧
    Embeds (tree.tokensAfter sofar) sum.tokens := by
  cases tree with
  | nil => cases h
  | cons operator operand rest =>
    rcases List.mem_append.1 h with h | h
    · obtain ⟨hsum, hembeds⟩ := operand.embeds hproper.1 h
      refine ⟨hsum, hembeds.mono fun token htoken => rest.subset_tokensAfter _ ?_⟩
      exact List.mem_append_left _ (List.mem_append_right _ htoken)
    · exact rest.embeds hproper.2 _ h

theorem FactorTree.embeds (tree : FactorTree) (hproper : tree.Proper parameters)
    (h : sum ∈ tree.inner) :
    sum.Proper parameters ∧ Embeds tree.tokens sum.tokens := by
  cases tree with
  | number value => cases h
  | string text => cases h
  | group inner => exact inner.embeds hproper h
  | negation operand =>
    obtain ⟨hsum, hembeds⟩ := operand.embeds hproper h
    refine ⟨hsum, hembeds.mono fun token htoken => ?_⟩
    exact List.mem_cons_of_mem _ (List.mem_append_left _ htoken)
  | call function arguments =>
    obtain ⟨hsum, hembeds⟩ := arguments.embeds hproper.2 h
    exact ⟨hsum, hembeds.mono (List.subset_append_left _ _)⟩
  | type reference =>
    obtain ⟨hsum, hholds⟩ := reference.holds hproper h
    refine ⟨hsum, reference.reference, ?_, hholds⟩
    -- a parameter alone has nothing inside
    unfold FactorTree.tokens referenceTokens
    split
    · next name heq =>
      rw [heq] at hholds
      cases hholds with
      | direct h => cases h
      | part h _ => cases h
      | inside h _ _ => cases h
    · exact List.mem_cons_self

theorem SumsTree.embeds (tree : SumsTree) (hproper : tree.Proper parameters)
    (h : sum ∈ tree.inner) :
    sum.Proper parameters ∧ Embeds tree.exprs.flatten sum.tokens := by
  cases tree with
  | last expr =>
    obtain ⟨hsum, hembeds⟩ := expr.embeds hproper h
    exact ⟨hsum, hembeds.mono (List.subset_append_left _ _)⟩
  | cons expr rest =>
    rcases List.mem_append.1 h with h | h
    · obtain ⟨hsum, hembeds⟩ := expr.embeds hproper.1 h
      exact ⟨hsum, hembeds.mono (List.subset_append_left _ _)⟩
    · obtain ⟨hsum, hembeds⟩ := rest.embeds hproper.2 h
      exact ⟨hsum, hembeds.mono (List.subset_append_right _ _)⟩

end

end Grammar

end Wireform
