import Wireform.Expression.Evaluation
import Wireform.Proofs.Ensures

/-!
# The height of the stack

An operator takes as many operands as it has places for and leaves one. So how high the
stack is after some tokens depends on how high it was and on the names of the operators, not
on what the operands are.

* `height?`: the height after some tokens, unless an operator lacks operands.
* `height?_of_run`: **a run that gets through leaves a stack of that height.**
* `height?_of_evaluate`: an expression that leaves an operand leaves just one.
* `exists_value_of_height`: arithmetic of the right height leaves a number.
-/

namespace Wireform.Expression

/-- The height of the stack after a token. -/
def heightAfter? (height : ℕ) : Token → Option ℕ
  | .operator name =>
    match Operator.ofName? name with
    | some operator => if operator.arity ≤ height then some (height - operator.arity + 1) else none
    | none => none
  | _ => some (height + 1)

/-- The height of the stack after some tokens. -/
def height? : ℕ → Expr → Option ℕ
  | height, [] => some height
  | height, token :: rest => (heightAfter? height token).bind (height? · rest)

/-! ### Some tokens after others -/

theorem height?_append (height : ℕ) (expr more : Expr) :
    height? height (expr ++ more) = (height? height expr).bind (height? · more) := by
  induction expr generalizing height with
  | nil => rfl
  | cons token rest ih =>
    simp only [List.cons_append, height?]
    cases heightAfter? height token with
    | none => rfl
    | some after => exact ih after

theorem height?_operator {height : ℕ} {name : String} {operator : Operator}
    (hname : Operator.ofName? name = some operator) (harity : operator.arity ≤ height) :
    height? height [.operator name] = some (height - operator.arity + 1) := by
  simp only [height?, heightAfter?, hname, if_pos harity, Option.bind_some]

/-- An operator that is reached finds its operands. -/
theorem exists_arity_le {height after : ℕ} {before rest : Expr} {name : String}
    (h : height? height (before ++ .operator name :: rest) = some after) :
    ∃ operator mid, Operator.ofName? name = some operator ∧ height? height before = some mid ∧
      operator.arity ≤ mid := by
  rw [height?_append] at h
  obtain ⟨mid, hmid, hrest⟩ := Option.bind_eq_some_iff.1 h
  obtain ⟨next, hnext, -⟩ := Option.bind_eq_some_iff.1 hrest
  unfold heightAfter? at hnext
  dsimp only at hnext
  cases hname : Operator.ofName? name with
  | none =>
    rw [hname] at hnext
    cases hnext
  | some operator =>
    rw [hname] at hnext
    dsimp only at hnext
    by_cases harity : operator.arity ≤ mid
    · exact ⟨operator, mid, rfl, hmid, harity⟩
    · rw [if_neg harity] at hnext
      cases hnext

/-! ### Runs -/

variable {σ : Type} {sizeOf : TypeRef → Compiling σ Size} {bindings : Bindings}
  {stack out : List Operand} {s t : σ}

theorem height_applyOperator {name : String} {operator : Operator}
    (h : applyOperator sizeOf name operator stack s = .ok out t) :
    operator.arity ≤ stack.length ∧ out.length = stack.length - operator.arity + 1 := by
  unfold applyOperator at h
  split at h
  · obtain ⟨a, mid, -, h⟩ := exists_of_bind_ok h
    obtain ⟨b, mid', -, h⟩ := exists_of_bind_ok h
    cases h
    simp [Operator.arity]
  · obtain ⟨a, mid, -, h⟩ := exists_of_bind_ok h
    cases h
    simp [Operator.arity]
  · obtain ⟨size, mid, -, h⟩ := exists_of_bind_ok h
    cases h
    simp [Operator.arity]
  · cases h

theorem heightAfter?_of_step {token : Token} (h : step sizeOf bindings stack token s = .ok out t) :
    heightAfter? stack.length token = some out.length := by
  cases token with
  | number value =>
    cases h
    rfl
  | string text =>
    cases h
    rfl
  | type reference =>
    cases h
    rfl
  | parameter name =>
    cases hbound : bindings.get? name with
    | none =>
      simp only [step, hbound] at h
      cases h
    | some bound =>
      simp only [step, hbound] at h
      cases h
      rfl
  | operator name =>
    cases hname : Operator.ofName? name with
    | none =>
      simp only [step, hname] at h
      cases h
    | some operator =>
      simp only [step, hname] at h
      obtain ⟨harity, hlength⟩ := height_applyOperator h
      simp only [heightAfter?, hname, if_pos harity, hlength]

/-- **A run that gets through** leaves a stack of the height that its tokens tell. -/
theorem height?_of_run {expr : Expr} (h : run sizeOf bindings stack expr s = .ok out t) :
    height? stack.length expr = some out.length := by
  induction expr generalizing stack s with
  | nil =>
    cases h
    rfl
  | cons token rest ih =>
    obtain ⟨next, mid, hstep, hrest⟩ := exists_of_bind_ok h
    rw [height?, heightAfter?_of_step hstep]
    exact ih hrest

/-- An expression that leaves an operand leaves just one. -/
theorem height?_of_evaluate {expr : Expr} {operand : Operand}
    (h : evaluate sizeOf bindings expr s = .ok operand t) :
    height? 0 expr = some 1 := by
  obtain ⟨stack, mid, hrun, hresult⟩ := exists_of_bind_ok h
  have hheight := height?_of_run hrun
  split at hresult
  · exact hheight
  · cases hresult

/-! ### Numbers only -/

/-- A number, or an operator that takes numbers. -/
def IsArithmetic : Token → Prop
  | .number _ => True
  | .operator name => name ≠ "sizeof"
  | _ => False

/-- A number and nothing else. -/
def IsNumber (operand : Operand) : Prop := ∃ value, operand = .number value

theorem eq_sizeof_of_ofName? {name : String} (h : Operator.ofName? name = some .sizeof) :
    name = "sizeof" := by
  unfold Operator.ofName? at h
  split at h <;> first | rfl | cases h

/-- An operator that takes numbers and finds all its operands leaves a number. -/
theorem exists_applyOperator {name : String} {operator : Operator} (hoperator : operator ≠ .sizeof)
    (hstack : ∀ operand ∈ stack, IsNumber operand) (harity : operator.arity ≤ stack.length) :
    ∃ out, applyOperator sizeOf name operator stack s = .ok out s ∧
      ∀ operand ∈ out, IsNumber operand := by
  cases operator with
  | unary op =>
    match stack, harity with
    | a :: rest, _ =>
      obtain ⟨x, rfl⟩ := hstack a List.mem_cons_self
      refine ⟨.number (op.apply x) :: rest, rfl, ?_⟩
      intro operand hoperand
      rcases List.mem_cons.1 hoperand with rfl | hmem
      · exact ⟨_, rfl⟩
      · exact hstack operand (List.mem_cons_of_mem _ hmem)
  | binary op =>
    match stack, harity with
    | b :: a :: rest, _ =>
      obtain ⟨y, rfl⟩ := hstack b List.mem_cons_self
      obtain ⟨x, rfl⟩ := hstack a (List.mem_cons_of_mem _ List.mem_cons_self)
      refine ⟨.number (op.apply x y) :: rest, rfl, ?_⟩
      intro operand hoperand
      rcases List.mem_cons.1 hoperand with rfl | hmem
      · exact ⟨_, rfl⟩
      · exact hstack operand (List.mem_cons_of_mem _ (List.mem_cons_of_mem _ hmem))
  | sizeof => exact absurd rfl hoperator

theorem exists_step_of_height {token : Token} (htoken : IsArithmetic token)
    (hstack : ∀ operand ∈ stack, IsNumber operand) {height : ℕ}
    (h : heightAfter? stack.length token = some height) :
    ∃ out, step sizeOf bindings stack token s = .ok out s ∧ ∀ operand ∈ out, IsNumber operand := by
  cases token with
  | number value =>
    refine ⟨.number value :: stack, rfl, ?_⟩
    intro operand hoperand
    rcases List.mem_cons.1 hoperand with rfl | hmem
    · exact ⟨value, rfl⟩
    · exact hstack operand hmem
  | operator name =>
    unfold heightAfter? at h
    dsimp only at h
    cases hname : Operator.ofName? name with
    | none =>
      rw [hname] at h
      cases h
    | some operator =>
      rw [hname] at h
      dsimp only at h
      by_cases harity : operator.arity ≤ stack.length
      · have hoperator : operator ≠ .sizeof := by
          rintro rfl
          exact htoken (eq_sizeof_of_ofName? hname)
        simp only [step, hname]
        exact exists_applyOperator hoperator hstack harity
      · rw [if_neg harity] at h
        cases h
  | _ => exact htoken.elim

theorem exists_run_of_height {expr : Expr} (hexpr : ∀ token ∈ expr, IsArithmetic token)
    (hstack : ∀ operand ∈ stack, IsNumber operand) {height : ℕ}
    (h : height? stack.length expr = some height) :
    ∃ out, run sizeOf bindings stack expr s = .ok out s ∧ ∀ operand ∈ out, IsNumber operand := by
  induction expr generalizing stack with
  | nil => exact ⟨stack, rfl, hstack⟩
  | cons token rest ih =>
    obtain ⟨mid, hmid, hrest⟩ := Option.bind_eq_some_iff.1 h
    obtain ⟨next, hstep, hnext⟩ :=
      exists_step_of_height (hexpr token List.mem_cons_self) hstack hmid
    obtain rfl := Option.some.inj (hmid.symm.trans (heightAfter?_of_step hstep))
    obtain ⟨out, hrun, hout⟩ :=
      ih (fun other ho => hexpr other (List.mem_cons_of_mem _ ho)) hnext hrest
    refine ⟨out, ?_, hout⟩
    rw [run, bind_of_ok hstep]
    exact hrun

/-- **An expression of numbers has a value** if no operator lacks operands and one is left. -/
theorem exists_value_of_height {expr : Expr} (hexpr : ∀ token ∈ expr, IsArithmetic token)
    (h : height? 0 expr = some 1) :
    ∃ value, evaluate sizeOf bindings expr s = .ok (.number value) s := by
  obtain ⟨out, hrun, hout⟩ := exists_run_of_height hexpr (List.forall_mem_nil IsNumber) h
  have hlength : height? 0 expr = some out.length := height?_of_run hrun
  obtain ⟨operand, rfl⟩ := List.length_eq_one_iff.1 (Option.some.inj (hlength.symm.trans h))
  obtain ⟨value, rfl⟩ := hout operand List.mem_cons_self
  exact ⟨value, bind_of_ok hrun⟩

end Wireform.Expression
