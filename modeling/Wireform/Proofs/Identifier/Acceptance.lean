import Wireform.Proofs.Identifier.Derivation

/-!
# Identifier text is read by its grammar

Derivations are unique: from the first lexemes on, there is only one rule that can derive a
reference or a factor, and a tree ends where nothing comes next that it would go on with.

* `TypeTree.eq_of_lexemes`, `SumTree.eq_of_lexemes`: trees of the same lexemes are the same.
* `accepts_grammar`: lexemes are read as a reference, or as an expression, exactly if a proper tree
  derives all of them, and the result is what it means.
* `TypeRef.parse_eq_ok`, `Expr.parse_eq_ok`: the same for texts.
-/

namespace Wireform

open Parsing

namespace Grammar

variable {parameters : List String}

section Starts

/-- Which rule a reference is derived by. -/
inductive TypeRule where
  | nullable | array | option | parameter | path

/-- Which rule a factor is derived by. -/
inductive FactorRule where
  | number | string | group | negation | call | type

/-- The rule at the top. -/
def TypeTree.rule : TypeTree → TypeRule
  | .nullable _ => .nullable
  | .array .. => .array
  | .option _ => .option
  | .parameter _ => .parameter
  | .path .. => .path

/-- The rule at the top. -/
def FactorTree.rule : FactorTree → FactorRule
  | .number _ => .number
  | .string _ => .string
  | .group _ => .group
  | .negation _ => .negation
  | .call .. => .call
  | .type _ => .type

/-- The only rule that can derive a reference from these lexemes on. -/
def typeRule (parameters : List String) : List Lexeme → TypeRule
  | .word name :: s =>
    if name = "Option" && startsWith '<' s then .option
    else if parameters.contains name && !startsWith '<' s && !startsWith '.' s then .parameter
    else .path
  | s => if startsWith '?' s then .nullable else .array

/-- The only rule that can derive a factor from these lexemes on. -/
def factorRule : List Lexeme → FactorRule
  | .number _ :: _ => .number
  | .string _ :: _ => .string
  | .mark '(' :: _ => .group
  | .mark '-' :: _ => .negation
  | s => if (factor.call? s).isSome then .call else .type

variable {rest : List Lexeme}

theorem TypeTree.typeRule_eq (tree : TypeTree) (hproper : tree.Proper parameters)
    (hclear : Clear afterType rest) :
    typeRule parameters (tree.lexemes ++ rest) = tree.rule := by
  cases tree with
  | nullable inner => rfl
  | array element size => rfl
  | option inner => rfl
  | parameter name =>
    have hname : parameters.contains name = true := List.contains_iff_mem.2 hproper
    have hopen : startsWith '<' rest = false := hclear.startsWith (by decide)
    have hpoint : startsWith '.' rest = false := hclear.startsWith (by decide)
    rw [TypeTree.lexemes, List.singleton_append, typeRule, hopen, hpoint, hname, Bool.and_false,
      if_neg (by simp)]
    rfl
  | path first more =>
    rw [TypeTree.Proper] at hproper
    obtain ⟨name, s, hs⟩ := exists_segment_lexemes first (more.lexemes ++ rest)
    obtain ⟨hoption, hparameter⟩ := words_of_startsPath hproper.1 hclear hs
    rw [TypeTree.lexemes, List.append_assoc, hs, typeRule, hoption, hparameter]
    rfl

theorem FactorTree.factorRule_eq (tree : FactorTree) (hproper : tree.Proper parameters)
    (hclear : Clear afterFactor rest) : factorRule (tree.lexemes ++ rest) = tree.rule := by
  cases tree with
  | number value => rfl
  | string text => rfl
  | group inner => rfl
  | negation operand => rfl
  | call function operands =>
    rw [FactorTree.Proper] at hproper
    have hcall :
        (factor.call? ((FactorTree.call function operands).lexemes ++ rest)).isSome = true :=
      congrArg Option.isSome (if_pos (List.contains_iff_mem.2 hproper.1))
    exact if_pos hcall
  | type reference =>
    have hstarts : StartsType (reference.lexemes ++ rest) := startsType reference hclear
    rw [FactorTree.lexemes, factorRule, hstarts.call?_eq_none]
    · rfl
    all_goals
      intros
      rename_i heq
      rw [heq] at hstarts
      cases hstarts

end Starts

theorem SumOperator.mark_injective {operator operator' : SumOperator}
    (h : operator.mark = operator'.mark) :
    operator = operator' := by
  cases operator <;> cases operator' <;> simp_all [SumOperator.mark]

theorem ProductOperator.mark_injective {operator operator' : ProductOperator}
    (h : operator.mark = operator'.mark) :
    operator = operator' := by
  cases operator <;> cases operator' <;> simp_all [ProductOperator.mark]

theorem SumOperator.mark_mem (operator : SumOperator) : operator.mark ∈ afterSum := by
  cases operator <;> decide

theorem ProductOperator.mark_mem (operator : ProductOperator) : operator.mark ∈ afterProduct := by
  cases operator <;> decide

mutual

theorem TypeTree.eq_of_lexemes {rest rest' : List Lexeme} (tree tree' : TypeTree)
    (hproper : tree.Proper parameters) (hproper' : tree'.Proper parameters)
    (hclear : Clear afterType rest) (hclear' : Clear afterType rest')
    (h : tree.lexemes ++ rest = tree'.lexemes ++ rest') : tree = tree' ∧ rest = rest' := by
  have hrule : tree.rule = tree'.rule := by
    rw [← tree.typeRule_eq hproper hclear, h, tree'.typeRule_eq hproper' hclear']
  cases tree with
  | nullable inner =>
    cases tree' with
    | nullable inner' =>
      obtain ⟨rfl, rfl⟩ :=
        inner.eq_of_lexemes inner' hproper hproper' hclear hclear' (List.cons.inj h).2
      exact ⟨rfl, rfl⟩
    | _ => cases hrule
  | array element size =>
    cases tree' with
    | array element' size' =>
      rw [TypeTree.Proper] at hproper hproper'
      simp only [TypeTree.lexemes, List.cons_append, List.append_assoc, List.nil_append] at h
      obtain ⟨rfl, hsize⟩ := element.eq_of_lexemes element' hproper.1 hproper'.1 (.mark (by decide))
        (.mark (by decide)) (List.cons.inj h).2
      obtain ⟨rfl, hrest⟩ := size.eq_of_lexemes size' hproper.2 hproper'.2 (.mark (by decide))
        (.mark (by decide)) (List.cons.inj hsize).2
      exact ⟨rfl, (List.cons.inj hrest).2⟩
    | _ => cases hrule
  | option inner =>
    cases tree' with
    | option inner' =>
      simp only [TypeTree.lexemes, List.cons_append, List.append_assoc, List.nil_append] at h
      obtain ⟨rfl, hrest⟩ :=
        inner.eq_of_lexemes inner' hproper hproper' (.mark (by decide)) (.mark (by decide))
        (List.cons.inj (List.cons.inj h).2).2
      exact ⟨rfl, (List.cons.inj hrest).2⟩
    | _ => cases hrule
  | parameter name =>
    cases tree' with
    | parameter name' =>
      cases h
      exact ⟨rfl, rfl⟩
    | _ => cases hrule
  | path first more =>
    cases tree' with
    | path first' more' =>
      rw [TypeTree.Proper] at hproper hproper'
      rw [TypeTree.lexemes, TypeTree.lexemes, List.append_assoc, List.append_assoc] at h
      obtain ⟨rfl, hmore⟩ :=
        first.eq_of_lexemes first' hproper.2.1 hproper'.2.1 (clear_segments more hclear)
        (clear_segments more' hclear') h
      obtain ⟨rfl, rfl⟩ := more.eq_of_lexemes more' hproper.2.2 hproper'.2.2 hclear hclear' hmore
      exact ⟨rfl, rfl⟩
    | _ => cases hrule
termination_by structural tree

theorem SegmentTree.eq_of_lexemes {rest rest' : List Lexeme} (tree tree' : SegmentTree)
    (hproper : tree.Proper parameters) (hproper' : tree'.Proper parameters)
    (hclear : Clear afterSegment rest) (hclear' : Clear afterSegment rest')
    (h : tree.lexemes ++ rest = tree'.lexemes ++ rest') :
    tree = tree' ∧ rest = rest' := by
  cases tree with
  | plain name =>
    cases tree' with
    | plain name' =>
      cases h
      exact ⟨rfl, rfl⟩
    | applied name' arguments' =>
      cases h
      exact absurd rfl (hclear '<' (by decide))
  | applied name arguments =>
    cases tree' with
    | plain name' =>
      cases h
      exact absurd rfl ( hclear' '<' (by decide))
    | applied name' arguments' =>
      simp only [SegmentTree.lexemes, List.cons_append, List.append_assoc, List.nil_append] at h
      obtain ⟨hname, harguments⟩ := List.cons.inj h
      cases hname
      obtain ⟨rfl, rfl⟩ :=
        arguments.eq_of_lexemes arguments' hproper hproper' (by decide) (List.cons.inj harguments).2
      exact ⟨rfl, rfl⟩
termination_by structural tree

theorem SegmentsTree.eq_of_lexemes {rest rest' : List Lexeme} (tree tree' : SegmentsTree)
    (hproper : tree.Proper parameters) (hproper' : tree'.Proper parameters)
    (hclear : Clear afterType rest) (hclear' : Clear afterType rest')
    (h : tree.lexemes ++ rest = tree'.lexemes ++ rest') :
    tree = tree' ∧ rest = rest' := by
  cases tree with
  | nil =>
    cases tree' with
    | nil => exact ⟨rfl, h⟩
    | cons first' more' =>
      obtain rfl : rest = _ := h
      exact absurd rfl (hclear '.' (by decide))
  | cons first more =>
    cases tree' with
    | nil =>
      obtain rfl : _ = rest' := h
      exact absurd rfl ( hclear' '.' (by decide))
    | cons first' more' =>
      rw [SegmentsTree.Proper] at hproper hproper'
      simp only [SegmentsTree.lexemes, List.cons_append, List.append_assoc] at h
      obtain ⟨rfl, hmore⟩ :=
        first.eq_of_lexemes first' hproper.1 hproper'.1 (clear_segments more hclear)
        (clear_segments more' hclear') (List.cons.inj h).2
      obtain ⟨rfl, rfl⟩ := more.eq_of_lexemes more' hproper.2 hproper'.2 hclear hclear' hmore
      exact ⟨rfl, rfl⟩
termination_by structural tree

theorem SumsTree.eq_of_lexemes {rest rest' : List Lexeme} {close : Char} (tree tree' : SumsTree)
    (hproper : tree.Proper parameters) (hproper' : tree'.Proper parameters)
    (hclose : close ∉ ',' :: afterSum)
    (h : tree.lexemes ++ .mark close :: rest = tree'.lexemes ++ .mark close :: rest') :
    tree = tree' ∧ rest = rest' := by
  have hcomma : close ≠ ',' := List.ne_of_not_mem_cons hclose
  have hclose' : close ∉ afterSum := List.not_mem_of_not_mem_cons hclose
  cases tree with
  | last expr =>
    cases tree' with
    | last expr' =>
      obtain ⟨rfl, hrest⟩ :=
        expr.eq_of_lexemes expr' hproper hproper' (.mark hclose') (.mark hclose') h
      exact ⟨rfl, (List.cons.inj hrest).2⟩
    | cons expr' more' =>
      rw [SumsTree.Proper] at hproper'
      rw [SumsTree.lexemes, SumsTree.lexemes, List.append_assoc] at h
      obtain ⟨-, hrest⟩ :=
        expr.eq_of_lexemes expr' hproper hproper'.1 (.mark hclose') (.mark (by decide)) h
      cases hrest
      exact absurd rfl hcomma
  | cons expr more =>
    cases tree' with
    | last expr' =>
      rw [SumsTree.Proper] at hproper
      rw [SumsTree.lexemes, SumsTree.lexemes, List.append_assoc] at h
      obtain ⟨-, hrest⟩ :=
        expr.eq_of_lexemes expr' hproper.1 hproper' (.mark (by decide)) (.mark hclose') h
      cases hrest
      exact absurd rfl hcomma
    | cons expr' more' =>
      rw [SumsTree.Proper] at hproper hproper'
      rw [SumsTree.lexemes, SumsTree.lexemes, List.append_assoc, List.append_assoc] at h
      obtain ⟨rfl, hmore⟩ :=
        expr.eq_of_lexemes expr' hproper.1 hproper'.1 (.mark (by decide)) (.mark (by decide)) h
      obtain ⟨rfl, rfl⟩ :=
        more.eq_of_lexemes more' hproper.2 hproper'.2 hclose (List.cons.inj hmore).2
      exact ⟨rfl, rfl⟩
termination_by structural tree

theorem SumTree.eq_of_lexemes {rest rest' : List Lexeme} (tree tree' : SumTree)
    (hproper : tree.Proper parameters) (hproper' : tree'.Proper parameters)
    (hclear : Clear afterSum rest) (hclear' : Clear afterSum rest')
    (h : tree.lexemes ++ rest = tree'.lexemes ++ rest') : tree = tree' ∧ rest = rest' := by
  obtain ⟨first, more⟩ := tree
  obtain ⟨first', more'⟩ := tree'
  rw [SumTree.Proper] at hproper hproper'
  rw [SumTree.lexemes, SumTree.lexemes, List.append_assoc, List.append_assoc] at h
  obtain ⟨rfl, hmore⟩ := first.eq_of_lexemes first' hproper.1 hproper'.1 (clear_sumRest more hclear)
    (clear_sumRest more' hclear') h
  obtain ⟨rfl, rfl⟩ := more.eq_of_lexemes more' hproper.2 hproper'.2 hclear hclear' hmore
  exact ⟨rfl, rfl⟩
termination_by structural tree

theorem SumRest.eq_of_lexemes {rest rest' : List Lexeme} (tree tree' : SumRest)
    (hproper : tree.Proper parameters) (hproper' : tree'.Proper parameters)
    (hclear : Clear afterSum rest) (hclear' : Clear afterSum rest')
    (h : tree.lexemes ++ rest = tree'.lexemes ++ rest') : tree = tree' ∧ rest = rest' := by
  cases tree with
  | nil =>
    cases tree' with
    | nil => exact ⟨rfl, h⟩
    | cons operator' operand' more' =>
      obtain rfl : rest = _ := h
      exact absurd rfl (hclear _ operator'.mark_mem)
  | cons operator operand more =>
    cases tree' with
    | nil =>
      obtain rfl : _ = rest' := h
      exact absurd rfl (hclear' _ operator.mark_mem)
    | cons operator' operand' more' =>
      rw [SumRest.Proper] at hproper hproper'
      simp only [SumRest.lexemes, List.cons_append, List.append_assoc] at h
      obtain ⟨hmark, hoperand⟩ := List.cons.inj h
      obtain rfl : operator = operator' := SumOperator.mark_injective (Lexeme.mark.inj hmark)
      obtain ⟨rfl, hmore⟩ :=
        operand.eq_of_lexemes operand' hproper.1 hproper'.1 (clear_sumRest more hclear)
        (clear_sumRest more' hclear') hoperand
      obtain ⟨rfl, rfl⟩ := more.eq_of_lexemes more' hproper.2 hproper'.2 hclear hclear' hmore
      exact ⟨rfl, rfl⟩
termination_by structural tree

theorem ProductTree.eq_of_lexemes {rest rest' : List Lexeme} (tree tree' : ProductTree)
    (hproper : tree.Proper parameters) (hproper' : tree'.Proper parameters)
    (hclear : Clear afterProduct rest) (hclear' : Clear afterProduct rest')
    (h : tree.lexemes ++ rest = tree'.lexemes ++ rest') :
    tree = tree' ∧ rest = rest' := by
  obtain ⟨first, more⟩ := tree
  obtain ⟨first', more'⟩ := tree'
  rw [ProductTree.Proper] at hproper hproper'
  rw [ProductTree.lexemes, ProductTree.lexemes, List.append_assoc, List.append_assoc] at h
  obtain ⟨rfl, hmore⟩ :=
    first.eq_of_lexemes first' hproper.1 hproper'.1 (clear_productRest more hclear)
    (clear_productRest more' hclear') h
  obtain ⟨rfl, rfl⟩ := more.eq_of_lexemes more' hproper.2 hproper'.2 hclear hclear' hmore
  exact ⟨rfl, rfl⟩
termination_by structural tree

theorem ProductRest.eq_of_lexemes {rest rest' : List Lexeme} (tree tree' : ProductRest)
    (hproper : tree.Proper parameters) (hproper' : tree'.Proper parameters)
    (hclear : Clear afterProduct rest) (hclear' : Clear afterProduct rest')
    (h : tree.lexemes ++ rest = tree'.lexemes ++ rest') :
    tree = tree' ∧ rest = rest' := by
  cases tree with
  | nil =>
    cases tree' with
    | nil => exact ⟨rfl, h⟩
    | cons operator' operand' more' =>
      obtain rfl : rest = _ := h
      exact absurd rfl (hclear _ operator'.mark_mem)
  | cons operator operand more =>
    cases tree' with
    | nil =>
      obtain rfl : _ = rest' := h
      exact absurd rfl (hclear' _ operator.mark_mem)
    | cons operator' operand' more' =>
      rw [ProductRest.Proper] at hproper hproper'
      simp only [ProductRest.lexemes, List.cons_append, List.append_assoc] at h
      obtain ⟨hmark, hoperand⟩ := List.cons.inj h
      obtain rfl : operator = operator' := ProductOperator.mark_injective (Lexeme.mark.inj hmark)
      obtain ⟨rfl, hmore⟩ :=
        operand.eq_of_lexemes operand' hproper.1 hproper'.1 (clear_productRest more hclear)
        (clear_productRest more' hclear') hoperand
      obtain ⟨rfl, rfl⟩ := more.eq_of_lexemes more' hproper.2 hproper'.2 hclear hclear' hmore
      exact ⟨rfl, rfl⟩
termination_by structural tree

theorem FactorTree.eq_of_lexemes {rest rest' : List Lexeme} (tree tree' : FactorTree)
    (hproper : tree.Proper parameters) (hproper' : tree'.Proper parameters)
    (hclear : Clear afterFactor rest) (hclear' : Clear afterFactor rest')
    (h : tree.lexemes ++ rest = tree'.lexemes ++ rest') :
    tree = tree' ∧ rest = rest' := by
  have hrule : tree.rule = tree'.rule := by
    rw [← tree.factorRule_eq hproper hclear, h, tree'.factorRule_eq hproper' hclear']
  cases tree with
  | number value =>
    cases tree' with
    | number value' =>
      cases h
      exact ⟨rfl, rfl⟩
    | _ => cases hrule
  | string text =>
    cases tree' with
    | string text' =>
      cases h
      exact ⟨rfl, rfl⟩
    | _ => cases hrule
  | group inner =>
    cases tree' with
    | group inner' =>
      simp only [FactorTree.lexemes, List.cons_append, List.append_assoc, List.nil_append] at h
      obtain ⟨rfl, hrest⟩ :=
        inner.eq_of_lexemes inner' hproper hproper' (.mark (by decide)) (.mark (by decide))
        (List.cons.inj h).2
      exact ⟨rfl, (List.cons.inj hrest).2⟩
    | _ => cases hrule
  | negation operand =>
    cases tree' with
    | negation operand' =>
      obtain ⟨rfl, rfl⟩ :=
        operand.eq_of_lexemes operand' hproper hproper' hclear hclear' (List.cons.inj h).2
      exact ⟨rfl, rfl⟩
    | _ => cases hrule
  | call function operands =>
    cases tree' with
    | call function' operands' =>
      rw [FactorTree.Proper] at hproper hproper'
      simp only [FactorTree.lexemes, List.cons_append, List.append_assoc, List.nil_append] at h
      obtain ⟨hname, hoperands⟩ := List.cons.inj h
      cases hname
      obtain ⟨rfl, rfl⟩ := operands.eq_of_lexemes operands' hproper.2 hproper'.2 (by decide)
        (List.cons.inj hoperands).2
      exact ⟨rfl, rfl⟩
    | _ => cases hrule
  | type reference =>
    cases tree' with
    | type reference' =>
      obtain ⟨rfl, rfl⟩ :=
        reference.eq_of_lexemes reference' hproper hproper' hclear.type hclear'.type h
      exact ⟨rfl, rfl⟩
    | _ => cases hrule
termination_by structural tree

end

/-- A derivation of these lexemes as a reference. -/
def TypeTree.Derives (parameters : List String) (lexemes : List Lexeme) (tree : TypeTree) : Prop :=
  tree.Proper parameters ∧ tree.lexemes = lexemes

/-- A derivation of these lexemes as an expression. -/
def SumTree.Derives (parameters : List String) (lexemes : List Lexeme) (tree : SumTree) : Prop :=
  tree.Proper parameters ∧ tree.lexemes = lexemes

end Grammar

open Grammar

namespace Parsing

variable {α : Type} {parameters : List String} {lexemes : List Lexeme}

/-- All lexemes, read by a reader that is given a bound on its steps. -/
def readAll (read : ℕ → Parsing α) (lexemes : List Lexeme) : Except SyntaxFault α :=
  match read (enoughSteps lexemes) lexemes with
  | .ok result [] => .ok result
  | .ok _ (next :: _) => .error (.trailing next)
  | .error fault _ => .error fault

/-- A text is read as its lexemes are. -/
theorem whole_eq (read : ℕ → Parsing α) (text : String) :
    whole read text = (lex text >>= readAll read).mapError (.malformed text) := by
  unfold whole
  cases hlex : lex text with
  | error fault => rfl
  | ok lexemes =>
    change _ = (readAll read lexemes).mapError _
    unfold readAll
    cases hread : read (enoughSteps lexemes) lexemes with
    | ok result rest =>
      dsimp only [EStateM.run]
      rw [bind_of_ok hread]
      cases rest <;> rfl
    | error fault rest =>
      dsimp only [EStateM.run]
      rw [bind_of_error hread]
      rfl

theorem whole_eq_ok {read : ℕ → Parsing α} {text : String} {a : α} :
    whole read text = .ok a ↔ ∃ lexemes, lex text = .ok lexemes ∧ readAll read lexemes = .ok a := by
  rw [whole_eq]
  cases hlex : lex text with
  | error fault => simp [Except.mapError, bind, Except.bind]
  | ok lexemes =>
    change (readAll read lexemes).mapError _ = _ ↔ _
    cases hread : readAll read lexemes <;> simp [Except.mapError, hread]

theorem readAll_eq_ok {read : ℕ → Parsing α} {a : α} :
    readAll read lexemes = .ok a ↔ read (enoughSteps lexemes) lexemes = .ok a [] := by
  unfold readAll
  split <;> simp [*]

theorem readAll_type_eq_ok {r : TypeRef} :
    readAll (type parameters) lexemes = .ok r ↔
      ∃ tree : TypeTree, tree.Derives parameters lexemes ∧ tree.reference = r := by
  rw [readAll_eq_ok]
  constructor
  · intro h
    obtain ⟨tree, hproper, hlexemes, hreference⟩ := Ensures.of_ok (derives parameters _).type h
    exact ⟨tree, ⟨hproper, by rw [hlexemes, List.append_nil]⟩, hreference⟩
  · rintro ⟨tree, ⟨hproper, rfl⟩, rfl⟩
    have hbound : tree.height ≤ enoughSteps tree.lexemes := by
      have := tree.height_le
      unfold enoughSteps
      omega
    have h := type_lexemes tree hproper hbound .nil
    rwa [List.append_nil] at h

theorem readAll_sum_eq_ok {expr : Expr} :
    readAll (sum parameters) lexemes = .ok expr ↔
      ∃ tree : SumTree, tree.Derives parameters lexemes ∧ tree.tokens = expr := by
  rw [readAll_eq_ok]
  constructor
  · intro h
    obtain ⟨tree, hproper, hlexemes, htokens⟩ := Ensures.of_ok (derives parameters _).sum h
    exact ⟨tree, ⟨hproper, by rw [hlexemes, List.append_nil]⟩, htokens⟩
  · rintro ⟨tree, ⟨hproper, rfl⟩, rfl⟩
    have hbound : tree.height ≤ enoughSteps tree.lexemes := by
      have := tree.height_le
      unfold enoughSteps
      omega
    have h := sum_lexemes tree hproper hbound .nil
    rwa [List.append_nil] at h

example : readAll (sum ["n"]) [.mark '-', .word "n", .mark '*', .word "n"] =
    .ok [.number (.zero false), .parameter "n", .operator "-", .parameter "n", .operator "*"] := by
  rfl

end Parsing

open Parsing

theorem TypeRef.parse_eq_ok {text : String} {parameters : List String} {r : TypeRef} :
    TypeRef.parse text parameters = .ok r ↔ ∃ lexemes, lex text = .ok lexemes ∧
      ∃ tree : TypeTree, tree.Derives parameters lexemes ∧ tree.reference = r := by
  simp only [TypeRef.parse, whole_eq_ok, readAll_type_eq_ok]

theorem Expr.parse_eq_ok {text : String} {parameters : List String} {expr : Expr} :
    Expr.parse text parameters = .ok expr ↔ ∃ lexemes, lex text = .ok lexemes ∧
      ∃ tree : SumTree, tree.Derives parameters lexemes ∧ tree.tokens = expr := by
  simp only [Expr.parse, whole_eq_ok, readAll_sum_eq_ok]

/-- **The readers accept exactly the grammar.** All of some lexemes are read as a reference exactly
if they have a derivation as one, they have at most one, and the result is what it means; the same
holds for expressions, and a text is read as its lexemes are. -/
theorem accepts_grammar (parameters : List String) (lexemes : List Lexeme) :
    ((∀ r, readAll (type parameters) lexemes = .ok r ↔
        ∃ tree : TypeTree, tree.Derives parameters lexemes ∧ tree.reference = r) ∧
      ∀ tree tree' : TypeTree, tree.Derives parameters lexemes →
        tree'.Derives parameters lexemes → tree = tree') ∧
    ((∀ expr, readAll (sum parameters) lexemes = .ok expr ↔
        ∃ tree : SumTree, tree.Derives parameters lexemes ∧ tree.tokens = expr) ∧
      ∀ tree tree' : SumTree, tree.Derives parameters lexemes →
        tree'.Derives parameters lexemes → tree = tree') ∧
    ∀ text,
      TypeRef.parse text parameters =
        (lex text >>= readAll (type parameters)).mapError (.malformed text) ∧
      Expr.parse text parameters =
        (lex text >>= readAll (sum parameters)).mapError (.malformed text) := by
  refine ⟨⟨fun r => readAll_type_eq_ok, fun tree tree' h h' => ?_⟩,
    ⟨fun expr => readAll_sum_eq_ok, fun tree tree' h h' => ?_⟩,
    fun text => ⟨whole_eq (type parameters) text, whole_eq (sum parameters) text⟩⟩
  · have hlexemes : tree.lexemes ++ [] = tree'.lexemes ++ [] := by rw [h.2, h'.2]
    exact (tree.eq_of_lexemes tree' h.1 h'.1 .nil .nil hlexemes).1
  · have hlexemes : tree.lexemes ++ [] = tree'.lexemes ++ [] := by rw [h.2, h'.2]
    exact (tree.eq_of_lexemes tree' h.1 h'.1 .nil .nil hlexemes).1

end Wireform
