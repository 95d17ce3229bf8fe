import Wireform.Proofs.Expression.Infix
import Wireform.Proofs.Identifier.Acceptance
import Wireform.Proofs.Identifier.Spacing

/-!
# Precedence and parentheses

A text gives an infix tree if its parentheses leave no other: an operand needs them if its own
operator binds less strongly than the one next to it, and a right operand also if it binds as
strongly. Such a text is read as the tokens of the tree, so it has the value of the tree.

* `Written`: the lexemes that give a tree, with as many parentheses as it needs or more.
* `Written.derivable`: the grammar derives them, and they mean the tokens of the tree.
* `Infix.evaluate_parse`: **what a text is evaluated to is the value of the tree that it gives.**
-/

namespace Wireform

open Parsing Grammar

/-- The mark between two operands, and how strongly it binds them; `min` and `max` are called. -/
def BinaryOperator.sign? : BinaryOperator → Option (Char × ℕ)
  | .plus => some ('+', 0)
  | .minus => some ('-', 0)
  | .times => some ('*', 1)
  | .divide => some ('/', 1)
  | .remainder => some ('%', 1)
  | .min => none
  | .max => none

/-- How strongly a minus sign in front of its operand binds it. -/
def signLevel : ℕ := 2

/-- The lexemes that give a tree where every operator binds at least so strongly. A type is given by
its own lexemes; a parameter that stands alone is no type. -/
inductive Written (parameters : List String) : ℕ → Infix → List Lexeme → Prop
  | number {level : ℕ} (value : Binary64) : Written parameters level (.number value) [.number value]
  | string {level : ℕ} (text : String) : Written parameters level (.string text) [.string text]
  | parameter {level : ℕ} {name : String} (h : name ∈ parameters) :
      Written parameters level (.parameter name) [.word name]
  | type {level : ℕ} {reference : TypeRef} {lexemes : List Lexeme}
      (hread : readAll (type parameters) lexemes = .ok reference)
      (hbare : ∀ name, reference ≠ .parameter name) :
      Written parameters level (.type reference) lexemes
  | negation {level : ℕ} {operand : Infix} {lexemes : List Lexeme} (hlevel : level ≤ signLevel)
      (h : Written parameters signLevel operand lexemes) :
      Written parameters level (.negation operand) (.mark '-' :: lexemes)
  | between {level strength : ℕ} {operator : BinaryOperator} {symbol : Char} {left right : Infix}
      {before after : List Lexeme} (hsign : operator.sign? = some (symbol, strength))
      (hlevel : level ≤ strength) (hleft : Written parameters strength left before)
      (hright : Written parameters (strength + 1) right after) :
      Written parameters level (.binary operator left right) (before ++ .mark symbol :: after)
  | call {level : ℕ} {operator : BinaryOperator} {left right : Infix} {before after : List Lexeme}
      (hsign : operator.sign? = none) (hleft : Written parameters 0 left before)
      (hright : Written parameters 0 right after) :
      Written parameters level (.binary operator left right)
        (.word operator.name :: .mark '(' :: (before ++ .mark ',' :: after) ++ [.mark ')'])
  | unary {level : ℕ} {operator : UnaryOperator} {operand : Infix} {lexemes : List Lexeme}
      (h : Written parameters 0 operand lexemes) :
      Written parameters level (.unary operator operand)
        (.word operator.name :: .mark '(' :: lexemes ++ [.mark ')'])
  | sizeOf {level : ℕ} {operand : Infix} {lexemes : List Lexeme}
      (h : Written parameters 0 operand lexemes) :
      Written parameters level (.sizeOf operand)
        (.word "sizeof" :: .mark '(' :: lexemes ++ [.mark ')'])
  | group {level : ℕ} {inner : Infix} {lexemes : List Lexeme}
      (h : Written parameters 0 inner lexemes) :
      Written parameters level inner (.mark '(' :: lexemes ++ [.mark ')'])

namespace Grammar

/-! ### One more operand at the end -/

/-- One more product behind a sum. -/
def SumRest.snoc : SumRest → SumOperator → ProductTree → SumRest
  | .nil, operator, operand => .cons operator operand .nil
  | .cons first found rest, operator, operand => .cons first found (rest.snoc operator operand)

/-- One more factor behind a product. -/
def ProductRest.snoc : ProductRest → ProductOperator → FactorTree → ProductRest
  | .nil, operator, operand => .cons operator operand .nil
  | .cons first found rest, operator, operand => .cons first found (rest.snoc operator operand)

theorem SumRest.lexemes_snoc (rest : SumRest) (operator : SumOperator) (operand : ProductTree) :
    (rest.snoc operator operand).lexemes = rest.lexemes ++
      .mark operator.mark :: operand.lexemes := by
  match rest with
  | .nil => simp only [snoc, lexemes, List.append_nil, List.nil_append]
  | .cons _ _ rest =>
    simp only [snoc, lexemes, rest.lexemes_snoc operator operand, List.cons_append,
      List.append_assoc]

theorem SumRest.tokensAfter_snoc (rest : SumRest) (operator : SumOperator) (operand : ProductTree)
    (sofar : Expr) :
    (rest.snoc operator operand).tokensAfter sofar =
      rest.tokensAfter sofar ++ operand.tokens ++ [.operator operator.name] := by
  match rest with
  | .nil => simp only [snoc, tokensAfter]
  | .cons _ _ rest => exact rest.tokensAfter_snoc operator operand _

theorem ProductRest.lexemes_snoc (rest : ProductRest) (operator : ProductOperator)
    (operand : FactorTree) :
    (rest.snoc operator operand).lexemes = rest.lexemes ++
      .mark operator.mark :: operand.lexemes := by
  match rest with
  | .nil => simp only [snoc, lexemes, List.append_nil, List.nil_append]
  | .cons _ _ rest =>
    simp only [snoc, lexemes, rest.lexemes_snoc operator operand, List.cons_append,
      List.append_assoc]

theorem ProductRest.tokensAfter_snoc (rest : ProductRest) (operator : ProductOperator)
    (operand : FactorTree) (sofar : Expr) : (rest.snoc operator operand).tokensAfter sofar =
      rest.tokensAfter sofar ++ operand.tokens ++ [.operator operator.name] := by
  match rest with
  | .nil => simp only [snoc, tokensAfter]
  | .cons _ _ rest => exact rest.tokensAfter_snoc operator operand _

variable {parameters : List String}

theorem SumRest.proper_snoc {rest : SumRest} (hrest : rest.Proper parameters)
    (operator : SumOperator) {operand : ProductTree} (hoperand : operand.Proper parameters) :
    (rest.snoc operator operand).Proper parameters := by
  match rest with
  | .nil => exact ⟨hoperand, trivial⟩
  | .cons _ _ rest => exact ⟨hrest.1, SumRest.proper_snoc hrest.2 operator hoperand⟩

theorem ProductRest.proper_snoc {rest : ProductRest} (hrest : rest.Proper parameters)
    (operator : ProductOperator) {operand : FactorTree} (hoperand : operand.Proper parameters) :
    (rest.snoc operator operand).Proper parameters := by
  match rest with
  | .nil => exact ⟨hoperand, trivial⟩
  | .cons _ _ rest => exact ⟨hrest.1, ProductRest.proper_snoc hrest.2 operator hoperand⟩

/-! ### Derivations, by how strongly their operators bind -/

/-- Some lexemes are derived as a sum, as a product or as a factor, and mean some tokens. -/
def Derivable (parameters : List String) : ℕ → List Lexeme → Expr → Prop
  | 0, lexemes, tokens => ∃ tree : SumTree, tree.Derives parameters lexemes ∧ tree.tokens = tokens
  | 1, lexemes, tokens =>
    ∃ tree : ProductTree, tree.Proper parameters ∧ tree.lexemes = lexemes ∧ tree.tokens = tokens
  | _ + 2, lexemes, tokens =>
    ∃ tree : FactorTree, tree.Proper parameters ∧ tree.lexemes = lexemes ∧ tree.tokens = tokens

variable {lexemes more : List Lexeme} {tokens others : Expr}

theorem Derivable.of_product (h : Derivable parameters 1 lexemes tokens) {level : ℕ}
    (hlevel : level ≤ 1) :
    Derivable parameters level lexemes tokens := by
  match level, hlevel with
  | 0, _ =>
    obtain ⟨tree, hproper, rfl, rfl⟩ := h
    exact ⟨.mk tree .nil, ⟨⟨hproper, trivial⟩, List.append_nil _⟩, rfl⟩
  | 1, _ => exact h

theorem Derivable.of_factor (h : Derivable parameters 2 lexemes tokens) (level : ℕ) :
    Derivable parameters level lexemes tokens := by
  by_cases hlevel : level ≤ 1
  · obtain ⟨tree, hproper, rfl, rfl⟩ := h
    have hproduct : Derivable parameters 1 tree.lexemes tree.tokens :=
      ⟨.mk tree .nil, ⟨hproper, trivial⟩, List.append_nil _, rfl⟩
    exact hproduct.of_product hlevel
  · obtain ⟨more, rfl⟩ := Nat.exists_eq_add_of_le' (Nat.lt_of_not_le hlevel)
    exact h

theorem Derivable.sum (h : Derivable parameters 0 lexemes tokens) (operator : SumOperator)
    (hmore : Derivable parameters 1 more others) :
    Derivable parameters 0 (lexemes ++ .mark operator.mark :: more)
      (tokens ++ others ++ [.operator operator.name]) := by
  obtain ⟨⟨first, rest⟩, ⟨hproper, rfl⟩, rfl⟩ := h
  obtain ⟨operand, hoperand, rfl, rfl⟩ := hmore
  refine ⟨.mk first (rest.snoc operator operand),
    ⟨⟨hproper.1, SumRest.proper_snoc hproper.2 operator hoperand⟩, ?_⟩, ?_⟩
  · simp only [SumTree.lexemes, SumRest.lexemes_snoc, List.append_assoc]
  · simp only [SumTree.tokens, SumRest.tokensAfter_snoc]

theorem Derivable.product (h : Derivable parameters 1 lexemes tokens) (operator : ProductOperator)
    (hmore : Derivable parameters 2 more others) :
    Derivable parameters 1 (lexemes ++ .mark operator.mark :: more)
      (tokens ++ others ++ [.operator operator.name]) := by
  obtain ⟨⟨first, rest⟩, hproper, rfl, rfl⟩ := h
  obtain ⟨operand, hoperand, rfl, rfl⟩ := hmore
  refine ⟨.mk first (rest.snoc operator operand),
    ⟨hproper.1, ProductRest.proper_snoc hproper.2 operator hoperand⟩, ?_, ?_⟩
  · simp only [ProductTree.lexemes, ProductRest.lexemes_snoc, List.append_assoc]
  · simp only [ProductTree.tokens, ProductRest.tokensAfter_snoc]

/-- A call of a function with one operand. -/
theorem Derivable.call {function : String} (hfunction : function ∈ functions)
    (h : Derivable parameters 0 lexemes tokens) :
    Derivable parameters 2 (.word function :: .mark '(' :: lexemes ++ [.mark ')'])
      (tokens ++ [.operator function]) := by
  obtain ⟨tree, ⟨hproper, rfl⟩, rfl⟩ := h
  refine ⟨.call function (.last tree), ⟨hfunction, hproper⟩, rfl, ?_⟩
  simp only [FactorTree.tokens, SumsTree.exprs, List.flatten_cons, List.flatten_nil,
    List.append_nil]

/-- A call of a function with two operands. -/
theorem Derivable.callBoth {function : String} (hfunction : function ∈ functions)
    (h : Derivable parameters 0 lexemes tokens) (hmore : Derivable parameters 0 more others) :
    Derivable parameters 2
      (.word function :: .mark '(' :: (lexemes ++ .mark ',' :: more) ++ [.mark ')'])
      (tokens ++ others ++ [.operator function]) := by
  obtain ⟨tree, ⟨hproper, rfl⟩, rfl⟩ := h
  obtain ⟨last, ⟨hlast, rfl⟩, rfl⟩ := hmore
  refine ⟨.call function (.cons tree (.last last)), ⟨hfunction, hproper, hlast⟩, rfl, ?_⟩
  simp only [FactorTree.tokens, SumsTree.exprs, List.flatten_cons, List.flatten_nil,
    List.append_nil]

end Grammar

variable {parameters : List String} {level : ℕ} {e : Infix} {lexemes : List Lexeme}

/-- What may stand next to an operator may stand next to one that binds less strongly. -/
theorem Written.mono {strength : ℕ} (h : Written parameters strength e lexemes)
    (hle : level ≤ strength) :
    Written parameters level e lexemes := by
  cases h with
  | number value => exact .number value
  | string text => exact .string text
  | parameter h => exact .parameter h
  | type hread hbare => exact .type hread hbare
  | negation hlevel h => exact .negation (Nat.le_trans hle hlevel) h
  | between hsign hlevel hleft hright => exact .between hsign (Nat.le_trans hle hlevel) hleft hright
  | call hsign hleft hright => exact .call hsign hleft hright
  | unary h => exact .unary h
  | sizeOf h => exact .sizeOf h
  | group h => exact .group h

/-- **The grammar derives what is written**, and it means the tokens of the tree. -/
theorem Written.derivable (h : Written parameters level e lexemes) :
    Derivable parameters level lexemes e.tokens := by
  induction h with
  | number value => exact Derivable.of_factor ⟨.number value, trivial, rfl, rfl⟩ _
  | string text => exact Derivable.of_factor ⟨.string text, trivial, rfl, rfl⟩ _
  | @parameter _ name h => exact Derivable.of_factor ⟨.type (.parameter name), h, rfl, rfl⟩ _
  | type hread hbare =>
    obtain ⟨tree, ⟨hproper, hlexemes⟩, rfl⟩ := readAll_type_eq_ok.1 hread
    refine Derivable.of_factor ⟨.type tree, hproper, hlexemes, ?_⟩ _
    -- a reference that is no parameter alone is a token as it is
    unfold FactorTree.tokens referenceTokens
    split
    · next name heq => exact absurd heq (hbare name)
    · rfl
  | negation hlevel _ ih =>
    obtain ⟨tree, hproper, rfl, htokens⟩ := ih
    refine Derivable.of_factor ⟨.negation tree, hproper, rfl, ?_⟩ _
    rw [FactorTree.tokens, htokens, Infix.tokens]
  | @between level strength operator symbol left right before after hsign hlevel _ _ ihl ihr =>
    cases operator with
    | plus =>
      cases hsign
      obtain rfl := Nat.le_zero.1 hlevel
      exact ihl.sum .plus ihr
    | minus =>
      cases hsign
      obtain rfl := Nat.le_zero.1 hlevel
      exact ihl.sum .minus ihr
    | times =>
      cases hsign
      exact (ihl.product .times ihr).of_product hlevel
    | divide =>
      cases hsign
      exact (ihl.product .divide ihr).of_product hlevel
    | remainder =>
      cases hsign
      exact (ihl.product .remainder ihr).of_product hlevel
    | min => cases hsign
    | max => cases hsign
  | @call level operator _ _ _ _ hsign _ _ ihl ihr =>
    have hfunction : operator.name ∈ functions := by
      cases operator with
      | min => decide
      | max => decide
      | _ => cases hsign
    exact (Derivable.callBoth hfunction ihl ihr).of_factor _
  | @unary level operator _ _ _ ih =>
    have hfunction : operator.name ∈ functions := by cases operator <;> decide
    exact (Derivable.call hfunction ih).of_factor _
  | sizeOf _ ih => exact (Derivable.call (by decide) ih).of_factor _
  | group _ ih =>
    obtain ⟨tree, ⟨hproper, rfl⟩, htokens⟩ := ih
    exact Derivable.of_factor ⟨.group tree, hproper, rfl, htokens⟩ _

namespace Infix

open Expression

/-- The leaves of a tree have texts: a number and a string have a literal, a parameter is a word,
and a type that is no parameter alone has a text of its own. -/
def Spelled (parameters : List String) : Infix → Prop
  | .number value => ∃ text, lex text = .ok [.number value]
  | .string text => ∃ literal, lex literal = .ok [.string text]
  | .parameter name => name ∈ parameters ∧ lex name = .ok [.word name]
  | .type reference => (∃ text, TypeRef.parse text parameters = .ok reference) ∧
      ∀ name, reference ≠ .parameter name
  | .negation operand => operand.Spelled parameters
  | .unary _ operand => operand.Spelled parameters
  | .binary _ left right => left.Spelled parameters ∧ right.Spelled parameters
  | .sizeOf operand => operand.Spelled parameters

/-- A text gives a tree where every operator binds at least so strongly. -/
def HasText (parameters : List String) (level : ℕ) (e : Infix) (text : String) : Prop :=
  ∃ lexemes, lex text = .ok lexemes ∧ Written parameters level e lexemes

theorem HasText.group {text : String} (h : HasText parameters 0 e text) (level : ℕ) :
    HasText parameters level e ("(" ++ " " ++ text ++ " " ++ ")") := by
  obtain ⟨lexemes, hlex, hwritten⟩ := h
  have hopen : lex "(" = .ok [.mark '('] := rfl
  have hclose : lex ")" = .ok [.mark ')'] := rfl
  exact ⟨_, lex_append (lex_append hopen hlex) hclose, hwritten.group⟩

/-- Parentheses are put only where the operators of a tree bind too weakly. -/
theorem HasText.exists_level {strength : ℕ} {text : String}
    (h : HasText parameters strength e text) (level : ℕ) :
    ∃ text, HasText parameters level e text := by
  obtain ⟨lexemes, hlex, hwritten⟩ := h
  by_cases hlevel : level ≤ strength
  · exact ⟨text, lexemes, hlex, hwritten.mono hlevel⟩
  · exact ⟨_, HasText.group ⟨lexemes, hlex, hwritten.mono (Nat.zero_le _)⟩ level⟩

/-- The operands of a function stand in parentheses behind its name. -/
theorem lex_call {function text : String} {lexemes : List Lexeme}
    (hname : lex function = .ok [.word function]) (h : lex text = .ok lexemes) :
    lex (function ++ " " ++ "(" ++ " " ++ text ++ " " ++ ")") =
      .ok (.word function :: .mark '(' :: lexemes ++ [.mark ')']) := by
  have hopen : lex "(" = .ok [.mark '('] := rfl
  have hclose : lex ")" = .ok [.mark ')'] := rfl
  exact lex_append (lex_append (lex_append hname hopen) h) hclose

theorem lex_sign {operator : BinaryOperator} {symbol : Char} {strength : ℕ}
    (h : operator.sign? = some (symbol, strength)) : lex operator.name = .ok [.mark symbol] := by
  cases operator <;> cases h <;> rfl

/-- **Every tree has a text.** -/
theorem exists_text (h : e.Spelled parameters) (level : ℕ) :
    ∃ text, HasText parameters level e text := by
  induction e generalizing level with
  | number value =>
    obtain ⟨text, hlex⟩ := h
    exact ⟨text, _, hlex, .number value⟩
  | string text =>
    obtain ⟨literal, hlex⟩ := h
    exact ⟨literal, _, hlex, .string text⟩
  | parameter name => exact ⟨name, _, h.2, .parameter h.1⟩
  | type reference =>
    obtain ⟨⟨text, hparse⟩, hbare⟩ := h
    obtain ⟨lexemes, hlex, hread⟩ := whole_eq_ok.1 hparse
    exact ⟨text, lexemes, hlex, .type hread hbare⟩
  | negation operand ih =>
    obtain ⟨text, lexemes, hlex, hwritten⟩ := ih h signLevel
    have hminus : lex "-" = .ok [.mark '-'] := rfl
    have hplain : HasText parameters signLevel (.negation operand) ("-" ++ " " ++ text) :=
      ⟨_, lex_append hminus hlex, .negation (Nat.le_refl _) hwritten⟩
    exact hplain.exists_level level
  | unary operator operand ih =>
    obtain ⟨text, lexemes, hlex, hwritten⟩ := ih h 0
    have hname : lex operator.name = .ok [.word operator.name] := by cases operator <;> rfl
    exact ⟨_, _, lex_call hname hlex, .unary hwritten⟩
  | binary operator left right ihl ihr =>
    cases hsign : operator.sign? with
    | some sign =>
      obtain ⟨symbol, strength⟩ := sign
      obtain ⟨text, lexemes, hlex, hleft⟩ := ihl h.1 strength
      obtain ⟨more, others, hmore, hright⟩ := ihr h.2 (strength + 1)
      have hplain : HasText parameters strength (.binary operator left right)
          (text ++ " " ++ operator.name ++ " " ++ more) := by
        have hwhole := lex_append (lex_append hlex (lex_sign hsign)) hmore
        rw [List.append_assoc, List.singleton_append] at hwhole
        exact ⟨_, hwhole, .between hsign (Nat.le_refl _) hleft hright⟩
      exact hplain.exists_level level
    | none =>
      obtain ⟨text, lexemes, hlex, hleft⟩ := ihl h.1 0
      obtain ⟨more, others, hmore, hright⟩ := ihr h.2 0
      have hname : lex operator.name = .ok [.word operator.name] := by
        cases operator <;> first | rfl | cases hsign
      have hcomma : lex "," = .ok [.mark ','] := rfl
      have hoperands := lex_append (lex_append hlex hcomma) hmore
      rw [List.append_assoc, List.singleton_append] at hoperands
      exact ⟨_, _, lex_call hname hoperands, .call hsign hleft hright⟩
  | sizeOf operand ih =>
    obtain ⟨text, lexemes, hlex, hwritten⟩ := ih h 0
    have hname : lex "sizeof" = .ok [.word "sizeof"] := rfl
    exact ⟨_, _, lex_call hname hlex, .sizeOf hwritten⟩

/-- **What a text is evaluated to is the value of the tree that it gives**, for all bindings and
whatever tells the sizes of types, and no operator lacks operands on the way. There is such a text
for every tree whose leaves have texts. -/
theorem evaluate_parse (parameters : List String) (e : Infix) :
    (e.Spelled parameters → ∃ text, HasText parameters 0 e text) ∧
    ∀ text, HasText parameters 0 e text → ∃ expr, Expr.parse text parameters = .ok expr ∧
      (∀ {σ : Type} (sizer : TypeRef → Compiling σ Size) (bindings : Bindings),
        Expression.evaluate sizer bindings expr = e.evaluate sizer bindings) ∧
      ∀ {σ : Type} (sizer : TypeRef → Compiling σ Size) (bindings : Bindings) before name rest
        stack s t, expr = before ++ .operator name :: rest →
          run sizer bindings [] before s = .ok stack t →
          ∃ operator, Operator.ofName? name = some operator ∧ operator.arity ≤ stack.length := by
  refine ⟨fun h => exists_text h 0, ?_⟩
  rintro text ⟨lexemes, hlex, hwritten⟩
  obtain ⟨tree, hderives, htokens⟩ := hwritten.derivable
  refine ⟨e.tokens, Expr.parse_eq_ok.2 ⟨lexemes, hlex, tree, hderives, htokens⟩, ?_, ?_⟩
  · intro σ sizer bindings
    exact e.evaluate_tokens
  · intro σ sizer bindings before name rest stack s t hsplit hrun
    exact e.arity_le_of_run hsplit hrun

/-- The tree of `-floor(x / 3) * (sizeof([u8; 2]) - min(y, 2.5) % -1)`. -/
def slope : Infix :=
  .binary .times (.negation (.unary .floor (.binary .divide (.parameter "x") (.number (.ofNat 3)))))
    (.binary .minus (.sizeOf (.type (.array (.named "u8") [.number (.ofNat 2)])))
      (.binary .remainder (.binary .min (.parameter "y") (.number (Decimal.nearest false ⟨25, -1⟩)))
        (.negation (.number (.ofNat 1)))))

theorem slope_hasText :
    HasText ["x", "y"] 0 slope "-floor(x / 3) * (sizeof([u8; 2]) - min(y, 2.5) % -1)" := by
  have hx : Written ["x", "y"] 1 (.parameter "x") [.word "x"] := .parameter (by decide)
  have hy : Written ["x", "y"] 0 (.parameter "y") [.word "y"] := .parameter (by decide)
  have hbytes : Written ["x", "y"] 0 (.type (.array (.named "u8") [.number (.ofNat 2)]))
      [.mark '[', .word "u8", .mark ';', .number (.ofNat 2), .mark ']'] := .type rfl nofun
  have hquotient : Written ["x", "y"] 0 (.binary .divide (.parameter "x") (.number (.ofNat 3)))
      [.word "x", .mark '/', .number (.ofNat 3)] := .between rfl (by decide) hx (.number _)
  have hleft : Written ["x", "y"] 1
      (.negation (.unary .floor (.binary .divide (.parameter "x") (.number (.ofNat 3)))))
      [.mark '-', .word "floor", .mark '(', .word "x", .mark '/', .number (.ofNat 3), .mark ')'] :=
    .negation (by decide) hquotient.unary
  have hmin : Written ["x", "y"] 1
      (.binary .min (.parameter "y") (.number (Decimal.nearest false ⟨25, -1⟩)))
      [.word "min", .mark '(', .word "y", .mark ',',
        .number (Decimal.nearest false ⟨25, -1⟩), .mark ')'] :=
    .call rfl hy (.number _)
  have hremainder : Written ["x", "y"] 1 (.binary .remainder
      (.binary .min (.parameter "y") (.number (Decimal.nearest false ⟨25, -1⟩)))
      (.negation (.number (.ofNat 1)))) _ :=
    .between rfl (Nat.le_refl 1) hmin (.negation (Nat.le_refl 2) (.number _))
  have hdifference : Written ["x", "y"] 0
      (.binary .minus (.sizeOf (.type (.array (.named "u8") [.number (.ofNat 2)])))
      (.binary .remainder (.binary .min (.parameter "y") (.number (Decimal.nearest false ⟨25, -1⟩)))
        (.negation (.number (.ofNat 1))))) _ :=
    .between rfl (Nat.le_refl 0) hbytes.sizeOf hremainder
  have hslope : Written ["x", "y"] 0 slope _ := .between rfl (Nat.zero_le 1) hleft hdifference.group
  exact ⟨_, by decide +kernel, hslope⟩

theorem slope_spelled : slope.Spelled ["x", "y"] := by
  have hbytes : TypeRef.parse "[u8; 2]" ["x", "y"] =
      .ok (.array (.named "u8") [.number (.ofNat 2)]) :=
    whole_eq_ok.2 ⟨[.mark '[', .word "u8", .mark ';', .number (.ofNat 2), .mark ']'],
      by decide +kernel, rfl⟩
  exact ⟨⟨⟨by decide, rfl⟩, "3", by decide +kernel⟩, ⟨⟨_, hbytes⟩, nofun⟩,
    ⟨⟨by decide, rfl⟩, "2.5", by decide +kernel⟩, "1", by decide +kernel⟩

theorem slope_evaluate : (∃ text, HasText ["x", "y"] 0 slope text) ∧
    ∃ expr, Expr.parse "-floor(x / 3) * (sizeof([u8; 2]) - min(y, 2.5) % -1)" ["x", "y"] =
        .ok expr ∧
      ∀ sizer bindings, Expression.evaluate (σ := Unit) sizer bindings expr =
        slope.evaluate sizer bindings := by
  obtain ⟨htext, hmeaning⟩ := evaluate_parse ["x", "y"] slope
  obtain ⟨expr, hparse, hevaluate, -⟩ := hmeaning _ slope_hasText
  exact ⟨htext slope_spelled, expr, hparse, hevaluate⟩

end Infix

end Wireform
