import Wireform.Proofs.Ensures
import Wireform.Proofs.Identifier.Grammar

/-!
# What a tree derives is read

A reader stops where nothing comes next that it would go on with, so its lexemes are read with any
others behind them that start with none of these marks.

* `Clear`: none of some marks comes next.
* `type_lexemes`, `sum_lexemes`: the lexemes of a proper tree are read, with enough steps, and give
  what the tree means.
-/

namespace Wireform

open Grammar

namespace Parsing

section Marks

variable {s : List Lexeme} {symbol : Char}

theorem eat_mark (symbol : Char) (s : List Lexeme) :
    eat symbol (.mark symbol :: s) = .ok true s := by
  simp [eat]

theorem eat_of_head?_ne (h : s.head? ≠ some (.mark symbol)) : eat symbol s = .ok false s := by
  unfold eat
  split
  · next found rest =>
    rw [if_neg]
    rintro rfl
    exact h rfl
  · rfl

theorem expect_mark (symbol : Char) (s : List Lexeme) :
    expect symbol (.mark symbol :: s) = .ok () s :=
  bind_of_ok (eat_mark symbol s)

theorem startsWith_eq_false (h : s.head? ≠ some (.mark symbol)) : startsWith symbol s = false :=
  decide_eq_false h

/-- None of some marks comes next. -/
def Clear (marks : List Char) (s : List Lexeme) : Prop :=
  ∀ symbol ∈ marks, s.head? ≠ some (.mark symbol)

/-- What a name would go on with. -/
def afterSegment : List Char := ['<']

/-- What a reference would go on with. -/
def afterType : List Char := '.' :: afterSegment

/-- What a factor would go on with, or be a call with. -/
def afterFactor : List Char := '(' :: afterType

/-- What a product would go on with. -/
def afterProduct : List Char := '*' :: '/' :: '%' :: afterFactor

/-- What an expression would go on with. -/
def afterSum : List Char := '+' :: '-' :: afterProduct

namespace Clear

variable {marks : List Char}

theorem nil : Clear marks [] := fun _ _ h => nomatch h

theorem mark (h : symbol ∉ marks) : Clear marks (.mark symbol :: s) := by
  rintro found hmem heq
  obtain rfl : symbol = found := by simpa using heq
  exact h hmem

theorem tail (h : Clear (symbol :: marks) s) : Clear marks s :=
  fun found hmem => h found (List.mem_cons_of_mem _ hmem)

theorem segment (h : Clear afterType s) : Clear afterSegment s := h.tail

theorem type (h : Clear afterFactor s) : Clear afterType s := h.tail

theorem factor (h : Clear afterProduct s) : Clear afterFactor s := h.tail.tail.tail

theorem product (h : Clear afterSum s) : Clear afterProduct s := h.tail.tail

theorem eat (h : Clear marks s) (hmem : symbol ∈ marks) : eat symbol s = .ok false s :=
  eat_of_head?_ne (h symbol hmem)

theorem startsWith (h : Clear marks s) (hmem : symbol ∈ marks) : startsWith symbol s = false :=
  startsWith_eq_false (h symbol hmem)

end Clear

end Marks

section Trees

variable {parameters : List String} {rest : List Lexeme}

theorem clear_segments (more : SegmentsTree) (h : Clear afterType rest) :
    Clear afterSegment (more.lexemes ++ rest) := by
  cases more with
  | nil => exact h.segment
  | cons first more => exact .mark (by decide)

theorem clear_sumRest (more : SumRest) (h : Clear afterSum rest) :
    Clear afterProduct (more.lexemes ++ rest) := by
  cases more with
  | nil => exact h.product
  | cons operator operand more => cases operator <;> exact .mark (by decide)

theorem clear_productRest (more : ProductRest) (h : Clear afterProduct rest) :
    Clear afterFactor (more.lexemes ++ rest) := by
  cases more with
  | nil => exact h.factor
  | cons operator operand more => cases operator <;> exact .mark (by decide)

theorem get_run (s : List Lexeme) : (get : Parsing _) s = .ok s s := rfl

theorem set_run (s t : List Lexeme) : (set t : Parsing _) s = .ok ⟨⟩ t := rfl

theorem word_run (name : String) (s : List Lexeme) : word (.word name :: s) = .ok name s := rfl

/-- A reference starts in a way that no other factor does. -/
inductive StartsType : List Lexeme → Prop where
  | nullable (s : List Lexeme) : StartsType (.mark '?' :: s)
  | array (s : List Lexeme) : StartsType (.mark '[' :: s)
  | word (name : String) {s : List Lexeme} (h : s.head? ≠ some (.mark '(')) :
      StartsType (.word name :: s)

theorem startsType (tree : TypeTree) (h : Clear afterFactor rest) :
    StartsType (tree.lexemes ++ rest) := by
  have hcall : ∀ more : SegmentsTree, (more.lexemes ++ rest).head? ≠ some (.mark '(') := by
    intro more
    cases more with
    | nil => exact h '(' (by decide)
    | cons first more => simp [SegmentsTree.lexemes]
  cases tree with
  | nullable inner => exact .nullable _
  | array element size => exact .array _
  | option inner => exact .word _ (by simp)
  | parameter name => exact .word _ (h '(' (by decide))
  | path first more =>
    rw [TypeTree.lexemes, List.append_assoc]
    cases first with
    | plain name => exact .word _ (hcall more)
    | applied name arguments => exact .word _ (by simp)

theorem StartsType.call?_eq_none {s : List Lexeme} (h : StartsType s) : factor.call? s = none := by
  cases h with
  | nullable => rfl
  | array => rfl
  | word name hnext =>
    unfold factor.call?
    split
    · next heq =>
      cases heq
      exact absurd rfl hnext
    · rfl

theorem factor_of_type {bound : ℕ} {s : List Lexeme} {r : TypeRef} (hstarts : StartsType s)
    (h : type parameters bound s = .ok r rest) :
    factor parameters (bound + 1) s = .ok (referenceTokens r) rest := by
  have hcall := hstarts.call?_eq_none
  unfold factor
  rw [bind_of_ok (get_run s)]
  split
  · cases hstarts
  · cases hstarts
  · cases hstarts
  · cases hstarts
  · rw [hcall]
    dsimp only
    rw [bind_of_ok h]
    -- a parameter by itself is a token of its own
    obtain ⟨kind, nullable⟩ := r
    cases kind <;> cases nullable <;> rfl

/-- The first word of a path is neither `Option` before its argument nor a parameter alone. -/
theorem words_of_startsPath {first : SegmentTree} {more : SegmentsTree} {name : String}
    {s : List Lexeme} (hstarts : StartsPath parameters first more) (hclear : Clear afterType rest)
    (hs : first.lexemes ++ (more.lexemes ++ rest) = .word name :: s) :
    (name = "Option" && startsWith '<' s) = false ∧
      (parameters.contains name && !startsWith '<' s && !startsWith '.' s) = false := by
  cases first with
  | plain found =>
    obtain ⟨rfl, rfl⟩ : found = name ∧ more.lexemes ++ rest = s := by
      simpa [SegmentTree.lexemes] using hs
    have hopen : startsWith '<' (more.lexemes ++ rest) = false :=
      (clear_segments more hclear).startsWith (by decide)
    refine ⟨by rw [hopen, Bool.and_false], ?_⟩
    cases more with
    | nil =>
      have hname : parameters.contains found = false := by simpa [StartsPath] using hstarts
      rw [hname, Bool.false_and, Bool.false_and]
    | cons next more => simp [SegmentsTree.lexemes, startsWith]
  | applied found arguments =>
    obtain ⟨rfl, rfl⟩ : found = name ∧
      .mark '<' :: (arguments.lexemes ++ .mark '>' :: (more.lexemes ++ rest)) = s := by
      simpa [SegmentTree.lexemes] using hs
    have hname : found ≠ "Option" := hstarts
    simp [hname, startsWith]

theorem exists_segment_lexemes (tree : SegmentTree) (rest : List Lexeme) :
    ∃ name s, tree.lexemes ++ rest = .word name :: s := by
  cases tree with
  | plain name => exact ⟨name, rest, rfl⟩
  | applied name arguments => exact ⟨name, _, rfl⟩

end Trees

variable {parameters : List String}

mutual

theorem type_lexemes {bound : ℕ} {rest : List Lexeme} (tree : TypeTree)
    (hproper : tree.Proper parameters) (hbound : tree.height ≤ bound)
    (hclear : Clear afterType rest) :
    type parameters bound (tree.lexemes ++ rest) = .ok tree.reference rest := by
  obtain _ | bound := bound
  · cases tree <;> cases hbound
  unfold type
  cases tree with
  | nullable inner =>
    rw [TypeTree.Proper] at hproper
    have hinner : type parameters bound (inner.lexemes ++ rest) = .ok inner.reference rest :=
      type_lexemes inner hproper (by rw [TypeTree.height] at hbound; omega) hclear
    rw [TypeTree.lexemes, List.cons_append, bind_of_ok (eat_mark _ _), if_pos rfl,
      bind_of_ok hinner]
    rfl
  | array element size =>
    rw [TypeTree.Proper] at hproper
    rw [TypeTree.height] at hbound
    have hsize : sum parameters bound (size.lexemes ++ .mark ']' :: rest) =
        .ok size.tokens (.mark ']' :: rest) :=
      sum_lexemes size hproper.2 (by omega) (.mark (by decide))
    have helement : type parameters bound
        (element.lexemes ++ .mark ';' :: (size.lexemes ++ .mark ']' :: rest)) =
        .ok element.reference (.mark ';' :: (size.lexemes ++ .mark ']' :: rest)) :=
      type_lexemes element hproper.1 (by omega) (.mark (by decide))
    simp only [TypeTree.lexemes, List.cons_append, List.append_assoc, List.nil_append]
    rw [bind_of_ok (eat_of_head?_ne (by simp)), if_neg (by simp),
      bind_of_ok (eat_mark _ _), if_pos rfl, bind_of_ok helement, bind_of_ok (expect_mark _ _),
      bind_of_ok hsize, bind_of_ok (expect_mark _ _)]
    rfl
  | option inner =>
    rw [TypeTree.Proper] at hproper
    have hinner : type parameters bound (inner.lexemes ++ .mark '>' :: rest) =
        .ok inner.reference (.mark '>' :: rest) :=
      type_lexemes inner hproper (by rw [TypeTree.height] at hbound; omega) (.mark (by decide))
    simp only [TypeTree.lexemes, List.cons_append, List.append_assoc, List.nil_append]
    rw [bind_of_ok (eat_of_head?_ne (by simp)), if_neg (by simp),
      bind_of_ok (eat_of_head?_ne (by simp)), if_neg (by simp), bind_of_ok (word_run _ _),
      bind_of_ok (get_run _), if_pos (by simp [startsWith]), bind_of_ok (expect_mark _ _),
      bind_of_ok hinner, bind_of_ok (expect_mark _ _)]
    rfl
  | parameter name =>
    have hname : parameters.contains name = true := List.contains_iff_mem.2 hproper
    have hopen : startsWith '<' rest = false := hclear.startsWith (by decide)
    have hpoint : startsWith '.' rest = false := hclear.startsWith (by decide)
    have hoption : (name = "Option" && startsWith '<' rest) = false := by rw [hopen, Bool.and_false]
    have hword :
        (parameters.contains name && !startsWith '<' rest && !startsWith '.' rest) = true := by
      rw [hname, hopen, hpoint]
      rfl
    rw [TypeTree.lexemes, List.singleton_append, bind_of_ok (eat_of_head?_ne (by simp)),
      if_neg (by simp), bind_of_ok (eat_of_head?_ne (by simp)), if_neg (by simp),
      bind_of_ok (word_run _ _), bind_of_ok (get_run _), hoption, if_neg (by simp),
      hword, if_pos rfl]
    rfl
  | path first more =>
    rw [TypeTree.Proper] at hproper
    rw [TypeTree.height] at hbound
    obtain ⟨hstarts, hfirst, hmore⟩ := hproper
    obtain ⟨name, s, hs⟩ := exists_segment_lexemes first (more.lexemes ++ rest)
    obtain ⟨hoption, hparameter⟩ := words_of_startsPath hstarts hclear hs
    have hsegment : segment parameters bound name s = .ok first.segment (more.lexemes ++ rest) :=
      segment_lexemes first hfirst (by omega) (clear_segments more hclear) hs
    have hsegments : segments parameters bound (more.lexemes ++ rest) = .ok more.segments rest :=
      segments_lexemes more hmore (by omega) hclear
    rw [TypeTree.lexemes, List.append_assoc, hs, bind_of_ok (eat_of_head?_ne (by simp)),
      if_neg (by simp), bind_of_ok (eat_of_head?_ne (by simp)), if_neg (by simp),
      bind_of_ok (word_run _ _), bind_of_ok (get_run _),
      hoption, if_neg (by simp), hparameter, if_neg (by simp), bind_of_ok hsegment,
      bind_of_ok hsegments, TypeTree.reference]
    cases more.segments <;> rfl

theorem segment_lexemes {bound : ℕ} {rest s : List Lexeme} {name : String} (tree : SegmentTree)
    (hproper : tree.Proper parameters) (hbound : tree.height ≤ bound)
    (hclear : Clear afterSegment rest) (hs : tree.lexemes ++ rest = .word name :: s) :
    segment parameters bound name s = .ok tree.segment rest := by
  obtain _ | bound := bound
  · cases tree <;> cases hbound
  unfold segment
  cases tree with
  | plain found =>
    obtain ⟨rfl, rfl⟩ : found = name ∧ rest = s := by simpa [SegmentTree.lexemes] using hs
    rw [bind_of_ok (hclear.eat (by decide)), if_neg (by simp)]
    rfl
  | applied found sums =>
    obtain ⟨rfl, rfl⟩ : found = name ∧ .mark '<' :: (sums.lexemes ++ .mark '>' :: rest) = s := by
      simpa [SegmentTree.lexemes] using hs
    have hsums : arguments parameters bound '>' (sums.lexemes ++ .mark '>' :: rest) =
        .ok sums.exprs rest :=
      arguments_lexemes sums hproper (by rw [SegmentTree.height] at hbound; omega) (by decide)
    rw [bind_of_ok (eat_mark _ _), if_pos rfl, bind_of_ok hsums]
    rfl

theorem segments_lexemes {bound : ℕ} {rest : List Lexeme} (tree : SegmentsTree)
    (hproper : tree.Proper parameters) (hbound : tree.height ≤ bound)
    (hclear : Clear afterType rest) :
    segments parameters bound (tree.lexemes ++ rest) = .ok tree.segments rest := by
  obtain _ | bound := bound
  · cases tree <;> cases hbound
  unfold segments
  cases tree with
  | nil =>
    rw [SegmentsTree.lexemes, List.nil_append, bind_of_ok (hclear.eat (by decide)),
      if_neg (by simp)]
    rfl
  | cons first more =>
    rw [SegmentsTree.Proper] at hproper
    rw [SegmentsTree.height] at hbound
    obtain ⟨name, s, hs⟩ := exists_segment_lexemes first (more.lexemes ++ rest)
    have hfirst : segment parameters bound name s = .ok first.segment (more.lexemes ++ rest) :=
      segment_lexemes first hproper.1 (by omega) (clear_segments more hclear) hs
    have hmore : segments parameters bound (more.lexemes ++ rest) = .ok more.segments rest :=
      segments_lexemes more hproper.2 (by omega) hclear
    rw [SegmentsTree.lexemes, List.cons_append, List.cons_append, List.append_assoc, hs,
      bind_of_ok (eat_mark _ _), if_pos rfl, bind_of_ok (word_run _ _), bind_of_ok hfirst,
      bind_of_ok hmore]
    rfl

theorem arguments_lexemes {bound : ℕ} {rest : List Lexeme} {close : Char} (tree : SumsTree)
    (hproper : tree.Proper parameters) (hbound : tree.height ≤ bound)
    (hclose : close ∉ ',' :: afterSum) :
    arguments parameters bound close (tree.lexemes ++ .mark close :: rest) =
      .ok tree.exprs rest := by
  obtain _ | bound := bound
  · cases tree <;> cases hbound
  unfold arguments
  have hcomma : close ≠ ',' := List.ne_of_not_mem_cons hclose
  have hclose' : close ∉ afterSum := List.not_mem_of_not_mem_cons hclose
  cases tree with
  | last expr =>
    have hexpr : sum parameters bound (expr.lexemes ++ .mark close :: rest) =
        .ok expr.tokens (.mark close :: rest) :=
      sum_lexemes expr hproper (by rw [SumsTree.height] at hbound; omega) (.mark hclose')
    rw [SumsTree.lexemes, bind_of_ok hexpr, bind_of_ok (eat_mark _ _), if_pos rfl]
    rfl
  | cons expr more =>
    rw [SumsTree.Proper] at hproper
    rw [SumsTree.height] at hbound
    have hexpr : sum parameters bound
        (expr.lexemes ++ .mark ',' :: (more.lexemes ++ .mark close :: rest)) =
        .ok expr.tokens (.mark ',' :: (more.lexemes ++ .mark close :: rest)) :=
      sum_lexemes expr hproper.1 (by omega) (.mark (by decide))
    have hmore : arguments parameters bound close (more.lexemes ++ .mark close :: rest) =
        .ok more.exprs rest :=
      arguments_lexemes more hproper.2 (by omega) hclose
    rw [SumsTree.lexemes, List.append_assoc, List.cons_append, bind_of_ok hexpr,
      bind_of_ok (eat_of_head?_ne (by simpa using Ne.symm hcomma)), if_neg (by simp),
      bind_of_ok (expect_mark _ _), bind_of_ok hmore]
    rfl

theorem sum_lexemes {bound : ℕ} {rest : List Lexeme} (tree : SumTree)
    (hproper : tree.Proper parameters) (hbound : tree.height ≤ bound)
    (hclear : Clear afterSum rest) :
    sum parameters bound (tree.lexemes ++ rest) = .ok tree.tokens rest := by
  obtain _ | bound := bound
  · cases tree; cases hbound
  unfold sum
  obtain ⟨first, more⟩ := tree
  rw [SumTree.Proper] at hproper
  rw [SumTree.height] at hbound
  have hfirst : product parameters bound (first.lexemes ++ (more.lexemes ++ rest)) =
      .ok first.tokens (more.lexemes ++ rest) :=
    product_lexemes first hproper.1 (by omega) (clear_sumRest more hclear)
  rw [SumTree.lexemes, List.append_assoc, bind_of_ok hfirst]
  exact moreSum_lexemes more hproper.2 (by omega) hclear

theorem moreSum_lexemes {bound : ℕ} {rest : List Lexeme} {sofar : Expr} (tree : SumRest)
    (hproper : tree.Proper parameters) (hbound : tree.height ≤ bound)
    (hclear : Clear afterSum rest) :
    moreSum parameters bound sofar (tree.lexemes ++ rest) = .ok (tree.tokensAfter sofar) rest := by
  obtain _ | bound := bound
  · cases tree <;> cases hbound
  unfold moreSum
  cases tree with
  | nil =>
    rw [SumRest.lexemes, List.nil_append, bind_of_ok (hclear.eat (by decide)), if_neg (by simp),
      bind_of_ok (hclear.eat (by decide)), if_neg (by simp)]
    rfl
  | cons operator operand more =>
    rw [SumRest.Proper] at hproper
    rw [SumRest.height] at hbound
    have hoperand : product parameters bound (operand.lexemes ++ (more.lexemes ++ rest)) =
        .ok operand.tokens (more.lexemes ++ rest) :=
      product_lexemes operand hproper.1 (by omega) (clear_sumRest more hclear)
    have hmore : ∀ sofar, moreSum parameters bound sofar (more.lexemes ++ rest) =
        .ok (more.tokensAfter sofar) rest :=
      fun sofar => moreSum_lexemes more hproper.2 (by omega) hclear
    rw [SumRest.lexemes, List.cons_append, List.cons_append, List.append_assoc]
    cases operator with
    | plus =>
      rw [SumOperator.mark, bind_of_ok (eat_mark _ _), if_pos rfl, bind_of_ok hoperand]
      exact hmore _
    | minus =>
      rw [SumOperator.mark, bind_of_ok (eat_of_head?_ne (by simp)), if_neg (by simp),
        bind_of_ok (eat_mark _ _), if_pos rfl, bind_of_ok hoperand]
      exact hmore _

theorem product_lexemes {bound : ℕ} {rest : List Lexeme} (tree : ProductTree)
    (hproper : tree.Proper parameters) (hbound : tree.height ≤ bound)
    (hclear : Clear afterProduct rest) :
    product parameters bound (tree.lexemes ++ rest) = .ok tree.tokens rest := by
  obtain _ | bound := bound
  · cases tree; cases hbound
  unfold product
  obtain ⟨first, more⟩ := tree
  rw [ProductTree.Proper] at hproper
  rw [ProductTree.height] at hbound
  have hfirst : factor parameters bound (first.lexemes ++ (more.lexemes ++ rest)) =
      .ok first.tokens (more.lexemes ++ rest) :=
    factor_lexemes first hproper.1 (by omega) (clear_productRest more hclear)
  rw [ProductTree.lexemes, List.append_assoc, bind_of_ok hfirst]
  exact moreProduct_lexemes more hproper.2 (by omega) hclear

theorem moreProduct_lexemes {bound : ℕ} {rest : List Lexeme} {sofar : Expr} (tree : ProductRest)
    (hproper : tree.Proper parameters) (hbound : tree.height ≤ bound)
    (hclear : Clear afterProduct rest) :
    moreProduct parameters bound sofar (tree.lexemes ++ rest) =
      .ok (tree.tokensAfter sofar) rest := by
  obtain _ | bound := bound
  · cases tree <;> cases hbound
  unfold moreProduct
  cases tree with
  | nil =>
    rw [ProductRest.lexemes, List.nil_append, bind_of_ok (hclear.eat (by decide)), if_neg (by simp),
      bind_of_ok (hclear.eat (by decide)), if_neg (by simp), bind_of_ok (hclear.eat (by decide)),
      if_neg (by simp)]
    rfl
  | cons operator operand more =>
    rw [ProductRest.Proper] at hproper
    rw [ProductRest.height] at hbound
    have hoperand : factor parameters bound (operand.lexemes ++ (more.lexemes ++ rest)) =
        .ok operand.tokens (more.lexemes ++ rest) :=
      factor_lexemes operand hproper.1 (by omega) (clear_productRest more hclear)
    have hmore : ∀ sofar, moreProduct parameters bound sofar (more.lexemes ++ rest) =
        .ok (more.tokensAfter sofar) rest :=
      fun sofar => moreProduct_lexemes more hproper.2 (by omega) hclear
    rw [ProductRest.lexemes, List.cons_append, List.cons_append, List.append_assoc]
    cases operator with
    | times =>
      rw [ProductOperator.mark, bind_of_ok (eat_mark _ _), if_pos rfl, bind_of_ok hoperand]
      exact hmore _
    | divide =>
      rw [ProductOperator.mark, bind_of_ok (eat_of_head?_ne (by simp)), if_neg (by simp),
        bind_of_ok (eat_mark _ _), if_pos rfl, bind_of_ok hoperand]
      exact hmore _
    | remainder =>
      rw [ProductOperator.mark, bind_of_ok (eat_of_head?_ne (by simp)), if_neg (by simp),
        bind_of_ok (eat_of_head?_ne (by simp)), if_neg (by simp),
        bind_of_ok (eat_mark _ _), if_pos rfl, bind_of_ok hoperand]
      exact hmore _

theorem factor_lexemes {bound : ℕ} {rest : List Lexeme} (tree : FactorTree)
    (hproper : tree.Proper parameters) (hbound : tree.height ≤ bound)
    (hclear : Clear afterFactor rest) :
    factor parameters bound (tree.lexemes ++ rest) = .ok tree.tokens rest := by
  obtain _ | bound := bound
  · cases tree <;> cases hbound
  cases tree with
  | number value => rfl
  | string text => rfl
  | group inner =>
    rw [FactorTree.Proper] at hproper
    have hinner : sum parameters bound (inner.lexemes ++ .mark ')' :: rest) =
        .ok inner.tokens (.mark ')' :: rest) :=
      sum_lexemes inner hproper (by rw [FactorTree.height] at hbound; omega) (.mark (by decide))
    unfold factor
    simp only [FactorTree.lexemes, List.cons_append, List.append_assoc, List.nil_append]
    rw [bind_of_ok (get_run _)]
    refine (bind_of_ok (set_run _ _)).trans ?_
    rw [bind_of_ok hinner, bind_of_ok (expect_mark _ _)]
    rfl
  | negation operand =>
    rw [FactorTree.Proper] at hproper
    have hoperand : factor parameters bound (operand.lexemes ++ rest) = .ok operand.tokens rest :=
      factor_lexemes operand hproper (by rw [FactorTree.height] at hbound; omega) hclear
    unfold factor
    rw [FactorTree.lexemes, List.cons_append, bind_of_ok (get_run _)]
    refine (bind_of_ok (set_run _ _)).trans ?_
    rw [bind_of_ok hoperand]
    rfl
  | call function operands =>
    rw [FactorTree.Proper] at hproper
    obtain ⟨hfunction, hproper⟩ := hproper
    have hoperands : arguments parameters bound ')' (operands.lexemes ++ .mark ')' :: rest) =
        .ok operands.exprs rest :=
      arguments_lexemes operands hproper (by rw [FactorTree.height] at hbound; omega) (by decide)
    have hcall :
        factor.call? (.word function :: .mark '(' :: (operands.lexemes ++ .mark ')' :: rest)) =
        some (function, operands.lexemes ++ .mark ')' :: rest) :=
      if_pos (List.contains_iff_mem.2 hfunction)
    unfold factor
    simp only [FactorTree.lexemes, List.cons_append, List.append_assoc, List.nil_append]
    rw [bind_of_ok (get_run _)]
    dsimp only
    rw [hcall]
    dsimp only
    rw [bind_of_ok (set_run _ _), bind_of_ok hoperands]
    rfl
  | type reference =>
    rw [FactorTree.Proper] at hproper
    have hreference : type parameters bound (reference.lexemes ++ rest) =
        .ok reference.reference rest :=
      type_lexemes reference hproper (by rw [FactorTree.height] at hbound; omega) hclear.type
    rw [FactorTree.lexemes]
    exact factor_of_type (startsType reference hclear) hreference

end

end Parsing

end Wireform
