import Wireform.Proofs.Identifier.Completeness

/-!
# What is read has a derivation

* `Parses`: what a reader returns from some lexemes on, and how many steps are enough.
* `derives`: every reader, given any number of steps, returns what a proper tree of the lexemes it
  has taken means, and runs out of steps only if it has fewer than eight for each lexeme, and a few.
-/

namespace Wireform

open Grammar

namespace Parsing

variable {parameters : List String}

/-- From `s` on, given so many steps, a reader returns what is described; it does not run out of
steps if it is given `enough`. -/
def Parses {α : Type} (bound enough : ℕ) (s : List Lexeme) (x : Parsing α)
    (post : α → List Lexeme → Prop) : Prop :=
  Ensures s x post fun fault _ => fault = .exhausted → bound < enough

namespace Parses

variable {α β : Type} {bound enough : ℕ} {s : List Lexeme} {x : Parsing α}
  {p : α → List Lexeme → Prop}

theorem bind {f : α → Parsing β} {q : β → List Lexeme → Prop} (hx : Parses bound enough s x p)
    (hf : ∀ a t, p a t → Parses bound enough t (f a) q) : Parses bound enough s (x >>= f) q :=
  Ensures.bind hx hf

theorem pure {a : α} (h : p a s) : Parses bound enough s (Pure.pure a) p := h

/-- Another reader is given one step less. -/
theorem call {fewer : ℕ} (h : Parses bound fewer s x p) (hle : fewer < enough) :
    Parses (bound + 1) enough s x p :=
  h.mono (fun _ _ ha => ha) fun fault _ hfault hexhausted => by
    have := hfault hexhausted
    omega

theorem exhausted (h : 0 < enough) :
    Parses 0 enough s (throw .exhausted : Parsing α) p := fun _ => h

end Parses

section Marks

variable {bound enough : ℕ} {s : List Lexeme}

theorem parses_eat (symbol : Char) : Parses bound enough s (eat symbol) fun found t =>
    (found = true ∧ s = .mark symbol :: t) ∨
    (found = false ∧ s = t ∧ s.head? ≠ some (.mark symbol)) := by
  unfold Parses Ensures
  by_cases hhead : s.head? = some (.mark symbol)
  · obtain ⟨rest, rfl⟩ : ∃ rest, s = .mark symbol :: rest := List.head?_eq_some_iff.1 hhead
    rw [eat_mark]
    exact .inl ⟨rfl, rfl⟩
  · rw [eat_of_head?_ne hhead]
    exact .inr ⟨rfl, rfl, hhead⟩

theorem parses_expect (symbol : Char) :
    Parses bound enough s (expect symbol) fun _ t => s = .mark symbol :: t := by
  refine (parses_eat symbol).bind fun found t hfound => ?_
  obtain ⟨rfl, rfl⟩ | ⟨rfl, rfl, -⟩ := hfound
  · exact .pure rfl
  · exact nofun

theorem parses_word : Parses bound enough s word fun name t => s = .word name :: t := by
  unfold Parses Ensures word
  split
  · next h =>
    split at h
    · cases h
      rfl
    · cases h
  · next h =>
    split at h
    · cases h
    · cases h
      exact nofun

theorem parses_get : Parses bound enough s get fun found t => s = found ∧ s = t := ⟨rfl, rfl⟩

theorem parses_set (t : List Lexeme) : Parses bound enough s (set t) fun _ found => t = found := rfl

theorem eq_of_call? {name : String} {t : List Lexeme} (h : factor.call? s = some (name, t)) :
    name ∈ functions ∧ s = .word name :: .mark '(' :: t := by
  unfold factor.call? at h
  split at h
  · split at h
    · next hmem =>
      cases h
      exact ⟨List.contains_iff_mem.1 hmem, rfl⟩
    · cases h
  · cases h

end Marks

/-- What all readers do that are given so many steps: what they have read is derived by a proper
tree that means what they return. -/
structure Derives (parameters : List String) (bound : ℕ) : Prop where
  type : ∀ {s}, Parses bound (8 * s.length + 5) s (type parameters bound) fun r rest =>
    ∃ tree : TypeTree, tree.Proper parameters ∧ s = tree.lexemes ++ rest ∧ tree.reference = r
  segment : ∀ {name s}, Parses bound (8 * s.length + 2) s
    (segment parameters bound name) fun a rest =>
    ∃ tree : SegmentTree, tree.Proper parameters ∧ .word name :: s = tree.lexemes ++ rest ∧
      tree.segment = a ∧ (tree = .plain name → s.head? ≠ some (.mark '<'))
  segments : ∀ {s}, Parses bound (8 * s.length + 1) s (segments parameters bound) fun a rest =>
    ∃ tree : SegmentsTree, tree.Proper parameters ∧ s = tree.lexemes ++ rest ∧ tree.segments = a ∧
      (tree = .nil → s.head? ≠ some (.mark '.'))
  arguments : ∀ {close s}, Parses bound (8 * s.length + 9) s
    (arguments parameters bound close) fun a rest =>
    ∃ tree : SumsTree, tree.Proper parameters ∧
      s = tree.lexemes ++ .mark close :: rest ∧ tree.exprs = a
  sum : ∀ {s}, Parses bound (8 * s.length + 8) s (sum parameters bound) fun a rest =>
    ∃ tree : SumTree, tree.Proper parameters ∧ s = tree.lexemes ++ rest ∧ tree.tokens = a
  moreSum : ∀ {sofar s}, Parses bound (8 * s.length + 1) s
    (moreSum parameters bound sofar) fun a rest =>
    ∃ tree : SumRest, tree.Proper parameters ∧ s = tree.lexemes ++ rest ∧ tree.tokensAfter sofar = a
  product : ∀ {s}, Parses bound (8 * s.length + 7) s (product parameters bound) fun a rest =>
    ∃ tree : ProductTree, tree.Proper parameters ∧ s = tree.lexemes ++ rest ∧ tree.tokens = a
  moreProduct : ∀ {sofar s}, Parses bound (8 * s.length + 1) s
    (moreProduct parameters bound sofar) fun a rest =>
    ∃ tree : ProductRest, tree.Proper parameters ∧ s = tree.lexemes ++ rest ∧
      tree.tokensAfter sofar = a
  factor : ∀ {s}, Parses bound (8 * s.length + 6) s (factor parameters bound) fun a rest =>
    ∃ tree : FactorTree, tree.Proper parameters ∧ s = tree.lexemes ++ rest ∧ tree.tokens = a

/-- A path that is read starts with a word that is neither `Option` before its argument nor a
parameter alone. -/
theorem startsPath_of_words {parameters : List String} {first : SegmentTree}
    {more : SegmentsTree} {name : String} {s t rest : List Lexeme}
    (hfirst : .word name :: s = first.lexemes ++ t) (ht : t = more.lexemes ++ rest)
    (hplain : first = .plain name → s.head? ≠ some (.mark '<'))
    (hnil : more = .nil → t.head? ≠ some (.mark '.'))
    (hoption : ¬(name = "Option" && startsWith '<' s) = true)
    (hparameter : ¬(parameters.contains name && !startsWith '<' s && !startsWith '.' s) = true) :
    StartsPath parameters first more := by
  cases first with
  | plain found =>
    obtain ⟨rfl, rfl⟩ : name = found ∧ s = t := by simpa [SegmentTree.lexemes] using hfirst
    cases more with
    | nil =>
      intro hmem
      refine hparameter ?_
      rw [List.contains_iff_mem.2 hmem, startsWith_eq_false (hplain rfl),
        startsWith_eq_false (hnil rfl)]
      rfl
    | cons => trivial
  | applied found arguments =>
    obtain ⟨rfl, rfl⟩ : name = found ∧ s = .mark '<' :: (arguments.lexemes ++ .mark '>' :: t) := by
      simpa [SegmentTree.lexemes] using hfirst
    rintro rfl
    exact hoption (by simp [startsWith])

theorem length_le_of_segment {first : SegmentTree} {name : String} {s rest : List Lexeme}
    (h : .word name :: s = first.lexemes ++ rest) : rest.length ≤ s.length := by
  have hfirst := first.height_le
  have hlength := congrArg List.length h
  rw [List.length_cons, List.length_append] at hlength
  omega

section Step

variable {bound : ℕ} {s : List Lexeme} (h : Derives parameters bound)

include h

theorem parses_type :
    Parses (bound + 1) (8 * s.length + 5) s (type parameters (bound + 1)) fun r rest =>
    ∃ tree : TypeTree, tree.Proper parameters ∧ s = tree.lexemes ++ rest ∧ tree.reference = r := by
  unfold type
  refine (parses_eat '?').bind fun found t hfound => ?_
  obtain ⟨rfl, rfl⟩ | ⟨rfl, rfl, -⟩ := hfound
  · rw [if_pos rfl]
    refine (h.type.call (by simp)).bind fun r rest hr => ?_
    obtain ⟨inner, hproper, rfl, rfl⟩ := hr
    exact .pure ⟨.nullable inner, hproper, rfl, rfl⟩
  rw [if_neg (by simp)]
  refine (parses_eat '[').bind fun found t hfound => ?_
  obtain ⟨rfl, rfl⟩ | ⟨rfl, rfl, -⟩ := hfound
  · rw [if_pos rfl]
    refine (h.type.call (by simp)).bind fun r t hr => ?_
    obtain ⟨element, helement, rfl, rfl⟩ := hr
    refine (parses_expect ';').bind fun _ t ht => ?_
    obtain rfl := ht
    refine (h.sum.call (by simp; omega)).bind fun expr t hexpr => ?_
    obtain ⟨size, hsize, rfl, rfl⟩ := hexpr
    refine (parses_expect ']').bind fun _ rest hrest => ?_
    obtain rfl := hrest
    exact .pure ⟨.array element size, ⟨helement, hsize⟩, by simp [TypeTree.lexemes], rfl⟩
  rw [if_neg (by simp)]
  refine parses_word.bind fun name s hs => ?_
  obtain rfl := hs
  refine parses_get.bind fun found t ht => ?_
  obtain ⟨rfl, rfl⟩ := ht
  split
  · next hoption =>
    obtain rfl : name = "Option" := by
      rw [Bool.and_eq_true] at hoption
      exact of_decide_eq_true hoption.1
    refine (parses_expect '<').bind fun _ t ht => ?_
    obtain rfl := ht
    refine (h.type.call (by simp only [List.length_cons]; omega)).bind fun r t hr => ?_
    obtain ⟨inner, hproper, rfl, rfl⟩ := hr
    refine (parses_expect '>').bind fun _ rest hrest => ?_
    obtain rfl := hrest
    exact .pure ⟨.option inner, hproper, by simp [TypeTree.lexemes], rfl⟩
  next hoption =>
  split
  · next hparameter =>
    rw [Bool.and_eq_true, Bool.and_eq_true] at hparameter
    exact .pure ⟨.parameter name, List.contains_iff_mem.1 hparameter.1.1, rfl, rfl⟩
  next hparameter =>
  refine (h.segment.call (by simp; omega)).bind fun a t ha => ?_
  obtain ⟨first, hfirst, hlexemes, rfl, hplain⟩ := ha
  have hlength : t.length ≤ s.length := length_le_of_segment hlexemes
  refine (h.segments.call (by simp; omega)).bind fun b rest hb => ?_
  obtain ⟨more, hmore, ht, rfl, hnil⟩ := hb
  have hstarts : StartsPath parameters first more :=
    startsPath_of_words hlexemes ht hplain hnil hoption hparameter
  have hwhole : .word name :: s = (TypeTree.path first more).lexemes ++ rest := by
    rw [hlexemes, ht, TypeTree.lexemes, List.append_assoc]
  cases hsegments : more.segments with
  | nil =>
    exact .pure ⟨.path first more, ⟨hstarts, hfirst, hmore⟩, hwhole,
      by rw [TypeTree.reference, hsegments]; rfl⟩
  | cons =>
    exact .pure ⟨.path first more, ⟨hstarts, hfirst, hmore⟩, hwhole,
      by rw [TypeTree.reference, hsegments]; rfl⟩

theorem parses_segment {name : String} :
    Parses (bound + 1) (8 * s.length + 2) s (segment parameters (bound + 1) name) fun a rest =>
      ∃ tree : SegmentTree, tree.Proper parameters ∧ .word name :: s = tree.lexemes ++ rest ∧
        tree.segment = a ∧ (tree = .plain name → s.head? ≠ some (.mark '<')) := by
  unfold segment
  refine (parses_eat '<').bind fun found t hfound => ?_
  obtain ⟨rfl, rfl⟩ | ⟨rfl, rfl, hopen⟩ := hfound
  · rw [if_pos rfl]
    refine (h.arguments.call (by simp; omega)).bind fun exprs rest hexprs => ?_
    obtain ⟨arguments, hproper, rfl, rfl⟩ := hexprs
    exact .pure ⟨.applied name arguments, hproper, by simp [SegmentTree.lexemes], rfl, by simp⟩
  · rw [if_neg (by simp)]
    exact .pure ⟨.plain name, trivial, rfl, rfl, fun _ => hopen⟩

theorem parses_segments :
    Parses (bound + 1) (8 * s.length + 1) s (segments parameters (bound + 1)) fun a rest =>
    ∃ tree : SegmentsTree, tree.Proper parameters ∧ s = tree.lexemes ++ rest ∧ tree.segments = a ∧
      (tree = .nil → s.head? ≠ some (.mark '.')) := by
  unfold segments
  refine (parses_eat '.').bind fun found t hfound => ?_
  obtain ⟨rfl, rfl⟩ | ⟨rfl, rfl, hpoint⟩ := hfound
  · rw [if_pos rfl]
    refine parses_word.bind fun name t ht => ?_
    obtain rfl := ht
    refine (h.segment.call (by simp; omega)).bind fun a mid ha => ?_
    obtain ⟨first, hfirst, hlexemes, rfl, -⟩ := ha
    have hlength : mid.length ≤ t.length := length_le_of_segment hlexemes
    refine (h.segments.call (by simp; omega)).bind fun b rest hb => ?_
    obtain ⟨more, hmore, rfl, rfl, -⟩ := hb
    exact .pure ⟨.cons first more, ⟨hfirst, hmore⟩,
      by rw [hlexemes]; simp [SegmentsTree.lexemes], rfl, by simp⟩
  · rw [if_neg (by simp)]
    exact .pure ⟨.nil, trivial, rfl, rfl, fun _ => hpoint⟩

theorem parses_arguments {close : Char} :
    Parses (bound + 1) (8 * s.length + 9) s (arguments parameters (bound + 1) close) fun a rest =>
      ∃ tree : SumsTree, tree.Proper parameters ∧ s = tree.lexemes ++ .mark close :: rest ∧
        tree.exprs = a := by
  unfold arguments
  refine (h.sum.call (by simp)).bind fun tokens t ht => ?_
  obtain ⟨expr, hexpr, rfl, rfl⟩ := ht
  refine (parses_eat close).bind fun found t hfound => ?_
  obtain ⟨rfl, rfl⟩ | ⟨rfl, rfl, -⟩ := hfound
  · rw [if_pos rfl]
    exact .pure ⟨.last expr, hexpr, rfl, rfl⟩
  · rw [if_neg (by simp)]
    refine (parses_expect ',').bind fun _ t ht => ?_
    obtain rfl := ht
    refine (h.arguments.call (by simp; omega)).bind fun exprs rest hexprs => ?_
    obtain ⟨more, hmore, rfl, rfl⟩ := hexprs
    exact .pure ⟨.cons expr more, ⟨hexpr, hmore⟩, by simp [SumsTree.lexemes], rfl⟩

theorem parses_sum :
    Parses (bound + 1) (8 * s.length + 8) s (sum parameters (bound + 1)) fun a rest =>
    ∃ tree : SumTree, tree.Proper parameters ∧ s = tree.lexemes ++ rest ∧ tree.tokens = a := by
  unfold sum
  refine (h.product.call (by simp)).bind fun tokens t ht => ?_
  obtain ⟨first, hfirst, rfl, rfl⟩ := ht
  refine (h.moreSum.call (by simp; omega)).mono (fun a rest ha => ?_) fun _ _ hfault => hfault
  obtain ⟨more, hmore, rfl, rfl⟩ := ha
  exact ⟨.mk first more, ⟨hfirst, hmore⟩, by rw [SumTree.lexemes, List.append_assoc], rfl⟩

theorem parses_moreSum {sofar : Expr} :
    Parses (bound + 1) (8 * s.length + 1) s (moreSum parameters (bound + 1) sofar) fun a rest =>
      ∃ tree : SumRest, tree.Proper parameters ∧ s = tree.lexemes ++ rest ∧
        tree.tokensAfter sofar = a := by
  have hcons : ∀ (t : List Lexeme) (operator : SumOperator),
      Parses (bound + 1) (8 * (Lexeme.mark operator.mark :: t).length + 1) t (do
        let operand ← product parameters bound
        moreSum parameters bound (sofar ++ operand ++ [.operator operator.name])) fun a rest =>
        ∃ tree : SumRest, tree.Proper parameters ∧ .mark operator.mark :: t = tree.lexemes ++ rest ∧
          tree.tokensAfter sofar = a := by
    intro t operator
    refine (h.product.call (by simp only [List.length_cons]; omega)).bind fun tokens t ht => ?_
    obtain ⟨operand, hoperand, rfl, rfl⟩ := ht
    refine (h.moreSum.call (by simp only [List.length_cons, List.length_append]; omega)).mono
      (fun a rest ha => ?_) fun _ _ hfault => hfault
    obtain ⟨more, hmore, rfl, rfl⟩ := ha
    exact ⟨.cons operator operand more, ⟨hoperand, hmore⟩, by simp [SumRest.lexemes], rfl⟩
  unfold moreSum
  refine (parses_eat '+').bind fun found t hfound => ?_
  obtain ⟨rfl, rfl⟩ | ⟨rfl, rfl, -⟩ := hfound
  · exact hcons t .plus
  rw [if_neg (by simp)]
  refine (parses_eat '-').bind fun found t hfound => ?_
  obtain ⟨rfl, rfl⟩ | ⟨rfl, rfl, -⟩ := hfound
  · exact hcons t .minus
  rw [if_neg (by simp)]
  exact .pure ⟨.nil, trivial, rfl, rfl⟩

theorem parses_product :
    Parses (bound + 1) (8 * s.length + 7) s (product parameters (bound + 1)) fun a rest =>
    ∃ tree : ProductTree, tree.Proper parameters ∧ s = tree.lexemes ++ rest ∧ tree.tokens = a := by
  unfold product
  refine (h.factor.call (by simp)).bind fun tokens t ht => ?_
  obtain ⟨first, hfirst, rfl, rfl⟩ := ht
  refine (h.moreProduct.call (by simp; omega)).mono (fun a rest ha => ?_) fun _ _ hfault => hfault
  obtain ⟨more, hmore, rfl, rfl⟩ := ha
  exact ⟨.mk first more, ⟨hfirst, hmore⟩, by rw [ProductTree.lexemes, List.append_assoc], rfl⟩

theorem parses_moreProduct {sofar : Expr} :
    Parses (bound + 1) (8 * s.length + 1) s (moreProduct parameters (bound + 1) sofar) fun a rest =>
      ∃ tree : ProductRest, tree.Proper parameters ∧ s = tree.lexemes ++ rest ∧
        tree.tokensAfter sofar = a := by
  have hcons : ∀ (t : List Lexeme) (operator : ProductOperator),
      Parses (bound + 1) (8 * (Lexeme.mark operator.mark :: t).length + 1) t (do
        let operand ← factor parameters bound
        moreProduct parameters bound (sofar ++ operand ++ [.operator operator.name])) fun a rest =>
        ∃ tree : ProductRest, tree.Proper parameters ∧
          .mark operator.mark :: t = tree.lexemes ++ rest ∧ tree.tokensAfter sofar = a := by
    intro t operator
    refine (h.factor.call (by simp only [List.length_cons]; omega)).bind fun tokens t ht => ?_
    obtain ⟨operand, hoperand, rfl, rfl⟩ := ht
    refine (h.moreProduct.call (by simp only [List.length_cons, List.length_append]; omega)).mono
      (fun a rest ha => ?_) fun _ _ hfault => hfault
    obtain ⟨more, hmore, rfl, rfl⟩ := ha
    exact ⟨.cons operator operand more, ⟨hoperand, hmore⟩, by simp [ProductRest.lexemes], rfl⟩
  unfold moreProduct
  refine (parses_eat '*').bind fun found t hfound => ?_
  obtain ⟨rfl, rfl⟩ | ⟨rfl, rfl, -⟩ := hfound
  · exact hcons t .times
  rw [if_neg (by simp)]
  refine (parses_eat '/').bind fun found t hfound => ?_
  obtain ⟨rfl, rfl⟩ | ⟨rfl, rfl, -⟩ := hfound
  · exact hcons t .divide
  rw [if_neg (by simp)]
  refine (parses_eat '%').bind fun found t hfound => ?_
  obtain ⟨rfl, rfl⟩ | ⟨rfl, rfl, -⟩ := hfound
  · exact hcons t .remainder
  rw [if_neg (by simp)]
  exact .pure ⟨.nil, trivial, rfl, rfl⟩

theorem parses_factor :
    Parses (bound + 1) (8 * s.length + 6) s (factor parameters (bound + 1)) fun a rest =>
    ∃ tree : FactorTree, tree.Proper parameters ∧ s = tree.lexemes ++ rest ∧ tree.tokens = a := by
  unfold factor
  refine parses_get.bind fun found t ht => ?_
  obtain ⟨rfl, rfl⟩ := ht
  split
  · next value rest =>
    refine (parses_set rest).bind fun _ t ht => ?_
    obtain rfl := ht
    exact .pure ⟨.number value, trivial, rfl, rfl⟩
  · next text rest =>
    refine (parses_set rest).bind fun _ t ht => ?_
    obtain rfl := ht
    exact .pure ⟨.string text, trivial, rfl, rfl⟩
  · next rest =>
    refine (parses_set rest).bind fun _ t ht => ?_
    obtain rfl := ht
    refine (h.sum.call (by simp; omega)).bind fun tokens t ht => ?_
    obtain ⟨inner, hinner, rfl, rfl⟩ := ht
    refine (parses_expect ')').bind fun _ rest hrest => ?_
    obtain rfl := hrest
    exact .pure ⟨.group inner, hinner, by simp [FactorTree.lexemes], rfl⟩
  · next rest =>
    refine (parses_set rest).bind fun _ t ht => ?_
    obtain rfl := ht
    refine (h.factor.call (by simp)).bind fun tokens t ht => ?_
    obtain ⟨operand, hoperand, rfl, rfl⟩ := ht
    exact .pure ⟨.negation operand, hoperand, rfl, rfl⟩
  · split
    · next name rest hcall =>
      obtain ⟨hfunction, rfl⟩ := eq_of_call? hcall
      refine (parses_set rest).bind fun _ t ht => ?_
      obtain rfl := ht
      refine (h.arguments.call (by simp; omega)).bind fun exprs t ht => ?_
      obtain ⟨operands, hoperands, rfl, rfl⟩ := ht
      exact .pure ⟨.call name operands, ⟨hfunction, hoperands⟩, by simp [FactorTree.lexemes], rfl⟩
    · refine (h.type.call (by simp)).bind fun r rest hr => ?_
      obtain ⟨reference, hreference, rfl, hr⟩ := hr
      split
      · exact .pure ⟨.type reference, hreference, rfl, by rw [FactorTree.tokens, hr]; rfl⟩
      · next hparameter =>
        exact .pure ⟨.type reference, hreference, rfl,
          by rw [FactorTree.tokens, hr, referenceTokens]; exact hparameter⟩

end Step

theorem derives (parameters : List String) (bound : ℕ) : Derives parameters bound := by
  induction bound with
  | zero =>
    exact ⟨.exhausted (by omega), .exhausted (by omega), .exhausted (by omega),
      .exhausted (by omega),
      .exhausted (by omega), .exhausted (by omega), .exhausted (by omega), .exhausted (by omega),
      .exhausted (by omega)⟩
  | succ bound ih =>
    exact ⟨parses_type ih, parses_segment ih, parses_segments ih,
      parses_arguments ih, parses_sum ih,
      parses_moreSum ih, parses_product ih, parses_moreProduct ih, parses_factor ih⟩

end Parsing

end Wireform
