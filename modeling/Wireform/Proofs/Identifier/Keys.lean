import Wireform.Proofs.Identifier.Texts

/-!
# Instances are known by their arguments

Each legible reference is told by its text, whatever follows: the recursion is that of references,
expressions and segments, and each form needs only that its parts are told. So two lists of legible
arguments that give one key are the same once their closed arithmetic is done.

* `TypeRef.told`, `Operand.told`: references and arguments.
* `settled_of_instanceKey?`: lists of arguments.
* `name_of_instanceKey?`: the name of the template.
-/

namespace Wireform

open Lexeme (startsWord continuesWord)
open TypeRef (segmentChars? segmentsChars? exprsChars? tokensChars? tokenChars?)

/-! ### Tokens and expressions -/

/-- **A token is told by its text** if its type is. -/
theorem token_told {token : Token} (hlegible : legibleToken token = true)
    (htype : ∀ r, token = .type r → typeScript.Told r) : tokenScript.Told token := by
  intro token' text text' rest rest' hlegible' htext htext' hrest hrest' h
  change legibleToken token' = true at hlegible'
  change tokenChars? token = some text at htext
  change tokenChars? token' = some text' at htext'
  change settledToken token = settledToken token' ∧ _
  have hwritten := tokenText hlegible htext
  have hwritten' := tokenText hlegible' htext'
  have hlead : token.lead = token'.lead := by
    rw [← hwritten.leadOf hrest, h, hwritten'.leadOf hrest']
  cases hwritten with
  | number x =>
    cases hwritten' with
    | number y =>
      obtain ⟨hsame, hrests⟩ := number_unique hrest hrest' h
      exact ⟨by rw [settledToken, settledToken, hsame], hrests⟩
    | string | type | operator => cases hlead
  | string s =>
    cases hwritten' with
    | string t =>
      obtain ⟨rfl, hrests⟩ := string_unique h
      exact ⟨rfl, hrests⟩
    | number | type | operator => cases hlead
  | @type r text hlegible htext =>
    cases hwritten' with
    | number | string => cases hlead
    | @type r' text' hlegible' htext' =>
      obtain ⟨hsame, hrests⟩ :=
        htype r rfl r' text text' rest rest' (legible_type hlegible').1 htext htext' hrest hrest' h
      exact ⟨by rw [settledToken, settledToken]; exact congrArg Token.type hsame, hrests⟩
    | operator hname =>
      exact absurd h.symm (operator_ne_type hname (typeStart (legible_type hlegible).1 htext)
        (legible_ne_operator hlegible) hrest' hrest)
  | operator hname =>
    cases hwritten' with
    | number | string => cases hlead
    | type hlegible' htext' =>
      exact absurd h (operator_ne_type hname (typeStart (legible_type hlegible').1 htext')
        (legible_ne_operator hlegible') hrest hrest')
    | operator hname' =>
      obtain ⟨rfl, hrests⟩ := operator_unique hname hname' hrest hrest' h
      exact ⟨rfl, hrests⟩

theorem Single.told {expr : Expr} {token : Token} (h : Single expr token)
    (htokens : ∀ token ∈ expr, tokenScript.Told token) : tokenScript.Told token := by
  rcases h with hmem | ⟨value, rfl⟩
  · exact htokens token hmem
  · have hlegible : legibleToken (Operand.constant value).token = true := by cases value <;> rfl
    refine token_told hlegible fun r heq => ?_
    cases value <;> cases heq

theorem separates_tokens (rest : List Char) : tokenScript.Separates ' ' [] (')' :: rest) where
  separator := fun _ => endsPart_cons (by decide) _
  after_close := endsPart_cons (by decide) rest
  closes := endsPart_cons (by decide) rest
  distinct := by simp

/-- **An expression is told by its text** if its tokens are. -/
theorem expr_told {expr : Expr} (hlegible : legibleTokens expr = true)
    (htokens : ∀ token ∈ expr, tokenScript.Told token) : exprScript.Told expr := by
  intro expr' text text' rest rest' hlegible' htext htext' hrest hrest' h
  change legibleTokens expr' = true at hlegible'
  cases exprText htext with
  | single htoken hsettled htext =>
    cases exprText htext' with
    | @single token' _ htoken' hsettled' htext' =>
      obtain ⟨hsame, hrests⟩ :=
        htoken.told htokens token' text text' rest rest' (htoken'.legible hlegible') htext
        htext' hrest hrest' h
      rw [hsettled, hsettled']
      exact ⟨congrArg ([·]) hsame, hrests⟩
    | group => exact absurd h (token_ne_group (htoken.legible hlegible) htext hrest _)
  | @group texts hsettled htexts =>
    cases exprText htext' with
    | single htoken' _ htext' =>
      exact absurd h.symm (token_ne_group (htoken'.legible hlegible') htext' hrest' _)
    | @group texts' hsettled' htexts' =>
      rw [List.cons_append, List.cons_append, List.append_assoc, List.append_assoc,
        List.cons.injEq] at h
      obtain ⟨hsame, hrests⟩ := Script.joined (separates_tokens rest) (separates_tokens rest')
        (fun _ _ hlegible htext => (tokenText hlegible htext).begins) htexts htexts' htokens
        (legible_of_tokens hlegible)
        (legible_of_tokens hlegible') h.2
      rw [hsettled, hsettled']
      exact ⟨hsame, (List.cons.inj hrests).2⟩

/-! ### Segments and references -/

theorem separates_exprs (rest : List Char) : exprScript.Separates ',' [' '] ('>' :: rest) where
  separator := fun _ => endsPart_cons (by decide) _
  after_close := endsPart_cons (by decide) rest
  closes := endsPart_cons (by decide) rest
  distinct := by simp

/-- **A segment is told by its text** if its arguments are. -/
theorem segment_told {segment : PathSegment} (hlegible : segmentScript.legible segment)
    (harguments : ∀ arguments, segment.arguments = some arguments →
      ∀ expr ∈ arguments, exprScript.Told expr) :
    segmentScript.Told segment := by
  intro segment' text text' rest rest' hlegible' htext htext' hrest hrest' h
  obtain ⟨name, arguments⟩ := segment
  obtain ⟨name', arguments'⟩ := segment'
  obtain ⟨hname, hexprs⟩ := hlegible
  obtain ⟨hname', hexprs'⟩ := hlegible'
  -- what follows a name shows whether there are arguments
  have hopen : ∀ {more : List Char}, ∀ c ∈ ('<' :: more).head?, continuesWord c = false := by
    intro more c hc
    obtain rfl := Option.some.inj hc
    rfl
  have hnot : ∀ {rest more : List Char}, EndsSegment rest → rest ≠ '<' :: more := by
    rintro _ more hrest rfl
    have hc := hrest '<' rfl
    revert hc
    decide
  rcases exists_of_segment htext with ⟨hnone, rfl⟩ | ⟨exprs, texts, hsome, htexts, rfl⟩
  · obtain rfl : arguments = none := hnone
    rcases exists_of_segment htext' with ⟨hnone', rfl⟩ | ⟨exprs', texts', hsome', htexts', rfl⟩
    · obtain rfl : arguments' = none := hnone'
      obtain ⟨hsame, hrests⟩ := name_unique hname hname' hrest.not_word hrest'.not_word h
      obtain rfl : name = name' := hsame
      exact ⟨rfl, hrests⟩
    · rw [List.append_assoc] at h
      exact absurd (name_unique hname hname' hrest.not_word hopen h).2 (hnot hrest)
  · obtain rfl : arguments = some exprs := hsome
    rcases exists_of_segment htext' with ⟨hnone', rfl⟩ | ⟨exprs', texts', hsome', htexts', rfl⟩
    · rw [List.append_assoc] at h
      exact absurd (name_unique hname hname' hopen hrest'.not_word h).2.symm (hnot hrest')
    · obtain rfl : arguments' = some exprs' := hsome'
      change legibleExprs exprs = true at hexprs
      change legibleExprs exprs' = true at hexprs'
      simp only [List.append_assoc, List.cons_append, List.nil_append] at h
      obtain ⟨hsame, hmore⟩ := name_unique hname hname' hopen hopen h
      obtain rfl : name = name' := hsame
      rw [List.cons.injEq] at hmore
      obtain ⟨hsame, hrests⟩ := Script.joined (separates_exprs rest) (separates_exprs rest')
        (fun _ _ hlegible htext => begins_expr hlegible htext) htexts htexts' (harguments exprs rfl)
        (legible_of_exprs hexprs) (legible_of_exprs hexprs') hmore.2
      refine ⟨?_, (List.cons.inj hrests).2⟩
      change PathSegment.mk name (settledArguments (some exprs)) =
        ⟨name, settledArguments (some exprs')⟩
      rw [settledArguments, settledArguments, settledExprs_eq_map, settledExprs_eq_map, hsame]

theorem separates_segments {rest : List Char} (hrest : EndsPart rest) :
    segmentScript.Separates '.' [] rest where
  separator := fun _ => endsSegment_cons (by decide) _
  after_close := hrest.segment
  closes := hrest
  distinct := by
    intro heq
    have hc := hrest '.' heq
    revert hc
    decide

/-- A mark for `null` is told by what follows it. -/
theorem marked_unique {nullable nullable' : Bool} {body body' rest rest' : List Char}
    (hbody : ∀ more, body ++ rest ≠ '?' :: more) (hbody' : ∀ more, body' ++ rest' ≠ '?' :: more)
    (h : TypeRef.marked nullable body ++ rest = TypeRef.marked nullable' body' ++ rest') :
    nullable = nullable' ∧ body ++ rest = body' ++ rest' := by
  cases nullable <;> cases nullable'
  · exact ⟨rfl, h⟩
  · exact absurd h (hbody _)
  · exact absurd h.symm (hbody' _)
  · exact ⟨rfl, (List.cons.inj h).2⟩

/-- The name that a segment begins with is neither of the marks with which references begin. -/
theorem segments_ne {segments : List PathSegment} {texts : List (List Char)} (hne : segments ≠ [])
    (hlegible : ∀ segment ∈ segments, segmentScript.legible segment)
    (htexts : segmentScript.Written segments texts) {c : Char} (hc : continuesWord c = false)
    (rest more : List Char) : joinChars ['.'] texts ++ rest ≠ c :: more := by
  obtain ⟨name, behind, hname, hjoined, -⟩ := exists_of_segments hne hlegible htexts
  obtain ⟨first, others, hfirst, -⟩ := exists_of_isName hname
  rw [hjoined, hfirst]
  intro heq
  have hword := continuesWord_of_isName hname first (hfirst ▸ List.mem_cons_self)
  rw [(List.cons.inj heq).1, hc] at hword
  cases hword

theorem TypeBody.ne_mark {r : TypeRef} {body : List Char} (h : TypeBody r body)
    (rest more : List Char) :
    body ++ rest ≠ '?' :: more := by
  cases h with
  | segments _ hne hlegible htexts => exact segments_ne hne hlegible htexts rfl rest more
  | array => exact fun heq => absurd (List.cons.inj heq).1 (by decide)

/-- **A reference is told by its text** if its parts are. -/
theorem type_told {r : TypeRef} (hlegible : r.legible = true)
    (harray : ∀ element size, r.kind = .array element size →
      typeScript.Told element ∧ exprScript.Told size)
    (hpath : ∀ segments, r.segments? = some segments →
      ∀ segment ∈ segments, segmentScript.Told segment) :
    typeScript.Told r := by
  intro r' text text' rest rest' hlegible' htext htext' hrest hrest' h
  obtain ⟨body, rfl, hbody⟩ := exists_typeBody hlegible htext
  obtain ⟨body', rfl, hbody'⟩ := exists_typeBody hlegible' htext'
  obtain ⟨hnullable, h⟩ := marked_unique (hbody.ne_mark rest) (hbody'.ne_mark rest') h
  change r.settled = r'.settled ∧ _
  cases hbody with
  | @segments segments texts hsegments hne hall htexts =>
    cases hbody' with
    | @segments segments' texts' hsegments' hne' hall' htexts' =>
      obtain ⟨hsame, hrests⟩ := Script.joined (separates_segments hrest) (separates_segments hrest')
        (fun _ _ hlegible htext => begins_segment hlegible htext) htexts htexts'
        (hpath segments hsegments) hall hall' h
      rw [TypeRef.settled_of_segments hsegments, TypeRef.settled_of_segments hsegments',
        settledSegments_eq_map, settledSegments_eq_map, hsame, hnullable]
      exact ⟨rfl, hrests⟩
    | array => exact absurd h (segments_ne hne hall htexts rfl rest _)
  | @array element size inner count hkind helement hsize hinner hcount =>
    cases hbody' with
    | segments _ hne' hall' htexts' =>
      exact absurd h.symm (segments_ne hne' hall' htexts' rfl rest' _)
    | @array element' size' inner' count' hkind' helement' hsize' hinner' hcount' =>
      simp only [List.cons_append, List.append_assoc, List.nil_append,
        List.cons.injEq, true_and] at h
      obtain ⟨htype, hexpr⟩ := harray element size hkind
      obtain ⟨hsame, h⟩ :=
        htype element' inner inner' _ _ helement' hinner hinner' (endsPart_cons (by decide) _)
        (endsPart_cons (by decide) _) h
      simp only [List.cons.injEq, true_and] at h
      obtain ⟨hcounts, h⟩ :=
        hexpr size' count count' _ _ hsize' hcount hcount' (endsPart_cons (by decide) _)
        (endsPart_cons (by decide) _) h
      refine ⟨?_, (List.cons.inj h).2⟩
      obtain ⟨kind, nullable⟩ := r
      obtain ⟨kind', nullable'⟩ := r'
      obtain rfl : kind = .array element size := hkind
      obtain rfl : kind' = .array element' size' := hkind'
      obtain rfl : nullable = nullable' := hnullable
      have hsame : element.settled = element'.settled := hsame
      have hcounts : settledExpr size (settledTokens size) =
          settledExpr size' (settledTokens size') := hcounts
      rw [TypeRef.settled, TypeRef.settled, hsame, hcounts]

mutual

/-- **Every legible reference is told by its text.** -/
theorem TypeRef.told : ∀ r : TypeRef, r.legible = true → typeScript.Told r
  | ⟨.named name arguments, nullable⟩ => fun h => by
    rw [TypeRef.legible, Bool.and_eq_true] at h
    refine type_told (by rw [TypeRef.legible, h.1, h.2]; rfl) nofun ?_
    rintro _ ⟨⟩
    exact List.forall_mem_singleton.2 (segment_told h (arguments_told arguments h.2))
  | ⟨.parameter name, nullable⟩ => fun h => by
    rw [TypeRef.legible] at h
    cases h
  | ⟨.inline body, nullable⟩ => fun h => type_told h nofun nofun
  | ⟨.array element size, nullable⟩ => fun h => by
    rw [TypeRef.legible, Bool.and_eq_true] at h
    refine type_told (by rw [TypeRef.legible, h.1, h.2]; rfl) ?_ nofun
    rintro _ _ ⟨⟩
    exact ⟨element.told h.1, expr_told h.2 (tokens_told size h.2)⟩
  | ⟨.path segments, nullable⟩ => fun h => by
    have hlegible := h
    rw [TypeRef.legible, Bool.and_eq_true] at h
    refine type_told hlegible nofun ?_
    rintro _ ⟨⟩
    exact segments_told segments h.2

theorem arguments_told :
    ∀ arguments : Option (List (List Token)), legibleArguments arguments = true →
    ∀ exprs, arguments = some exprs → ∀ expr ∈ exprs, exprScript.Told expr
  | none => fun _ => nofun
  | some exprs => fun h => by
    rw [legibleArguments] at h
    rintro _ ⟨⟩
    exact exprs_told exprs h

theorem exprs_told : ∀ exprs : List (List Token), legibleExprs exprs = true →
    ∀ expr ∈ exprs, exprScript.Told expr
  | [] => fun _ => nofun
  | expr :: rest => fun h => by
    rw [legibleExprs, Bool.and_eq_true] at h
    exact List.forall_mem_cons.2 ⟨expr_told h.1 (tokens_told expr h.1), exprs_told rest h.2⟩

theorem tokens_told : ∀ tokens : List Token, legibleTokens tokens = true →
    ∀ token ∈ tokens, tokenScript.Told token
  | [] => fun _ => nofun
  | token :: rest => fun h => by
    rw [legibleTokens, Bool.and_eq_true] at h
    exact List.forall_mem_cons.2 ⟨token.told h.1, tokens_told rest h.2⟩

theorem Token.told : ∀ token : Token, legibleToken token = true → tokenScript.Told token
  | .type r => fun h => token_told h fun _ heq => Token.type.inj heq ▸ r.told (legible_type h).1
  | .number _ => fun h => token_told h nofun
  | .string _ => fun h => token_told h nofun
  | .parameter _ => fun h => token_told h nofun
  | .operator _ => fun h => token_told h nofun

theorem segments_told : ∀ segments : List PathSegment, legibleSegments segments = true →
    ∀ segment ∈ segments, segmentScript.Told segment
  | [] => fun _ => nofun
  | ⟨name, arguments⟩ :: rest => fun h => by
    rw [legibleSegments, Bool.and_eq_true, Bool.and_eq_true] at h
    exact List.forall_mem_cons.2 ⟨segment_told h.1 (arguments_told arguments h.1.2),
      segments_told rest h.2⟩

end

/-! ### Arguments -/

theorem tokenChars?_constant (value : Constant) :
    tokenChars? (Operand.constant value).token = some value.chars := by
  cases value <;> rw [Operand.token, tokenChars?]

theorem legibleToken_constant (value : Constant) :
    legibleToken (Operand.constant value).token = true := by
  cases value <;> rfl

theorem settledToken_inj {value value' : Constant}
    (h : settledToken (Operand.constant value).token =
      settledToken (Operand.constant value').token) :
    value.settled = value'.settled := by
  cases value <;> cases value'
    <;> rw [Operand.token, Operand.token, settledToken, settledToken] at h
  · exact congrArg Constant.number (Token.number.inj h)
  · cases h
  · cases h
  · exact congrArg Constant.string (Token.string.inj h)

theorem legible_operand {r : TypeRef} (h : (Operand.type r).legible = true) :
    r.legible = true ∧ ∀ name, r.bareName? = some name → isNumberWord name = false := by
  rw [Operand.legible, Bool.and_eq_true] at h
  refine ⟨h.1, fun name hname => ?_⟩
  obtain ⟨-, hbare⟩ := h
  rw [hname, Option.all_some, Bool.not_eq_true'] at hbare
  exact hbare

/-- A constant does not begin like a reference. -/
theorem constant_ne_type {value : Constant} {r : TypeRef} (hr : (Operand.type r).legible = true)
    {text : List Char} (htext : r.canonicalChars? = some text) {rest rest' : List Char}
    (hrest : EndsPart rest) (hrest' : EndsPart rest') :
    value.chars ++ rest ≠ text ++ rest' := by
  intro heq
  obtain ⟨hlegible, hbare⟩ := legible_operand hr
  have hlead := (tokenText (legibleToken_constant value) (tokenChars?_constant value)).leadOf hrest
  rw [heq, leadOf_type (typeStart hlegible htext) hbare hrest'] at hlead
  cases value <;> cases hlead

/-- **Every legible argument is told by its text.** -/
theorem Operand.told {operand : Operand} (hlegible : operand.legible = true) :
    operandScript.Told operand := by
  intro operand' text text' rest rest' hlegible' htext htext' hrest hrest' h
  change operand.settled = operand'.settled ∧ _
  cases operand with
  | constant value =>
    obtain rfl := Option.some.inj htext
    cases operand' with
    | constant value' =>
      obtain rfl := Option.some.inj htext'
      obtain ⟨hsame, hrests⟩ := Token.told _ (legibleToken_constant value) _ _ _ rest rest'
        (legibleToken_constant value') (tokenChars?_constant value)
        (tokenChars?_constant value') hrest hrest' h
      exact ⟨congrArg Operand.constant (settledToken_inj hsame), hrests⟩
    | type r' => exact absurd h (constant_ne_type hlegible' htext' hrest hrest')
  | type r =>
    cases operand' with
    | constant value' =>
      obtain rfl := Option.some.inj htext'
      exact absurd h.symm (constant_ne_type hlegible htext hrest' hrest)
    | type r' =>
      obtain ⟨hsame, hrests⟩ := r.told (legible_operand hlegible).1 r' text text' rest rest'
        (legible_operand hlegible').1 htext htext' hrest hrest' h
      exact ⟨congrArg Operand.type hsame, hrests⟩

theorem begins_operand {operand : Operand} (hlegible : operand.legible = true) {text : List Char}
    (htext : operandScript.chars? operand = some text) : Begins text := by
  cases operand with
  | constant value =>
    obtain rfl := Option.some.inj htext
    exact (tokenText (legibleToken_constant value) (tokenChars?_constant value)).begins
  | type r => exact (typeStart (legible_operand hlegible).1 htext).begins

theorem separates_operands (rest : List Char) :
    operandScript.Separates ',' [' '] ('>' :: rest) where
  separator := fun _ => endsPart_cons (by decide) _
  after_close := endsPart_cons (by decide) rest
  closes := endsPart_cons (by decide) rest
  distinct := by simp

/-- An instance with arguments is written like a segment of a path. -/
theorem instanceKey?_eq_some {name : String} {arguments : List Operand} {key : String}
    (h : instanceKey? name arguments = some key) : arguments = [] ∧ key.toList = name.toList ∨
      ∃ texts, operandScript.Written arguments texts ∧
        key.toList = name.toList ++ '<' :: (joinChars [',', ' '] texts ++ ['>']) := by
  cases arguments with
  | nil =>
    obtain rfl := Option.some.inj h
    exact Or.inl ⟨rfl, rfl⟩
  | cons operand rest =>
    obtain ⟨texts, htexts, h⟩ := Option.bind_eq_some_iff.1 h
    obtain rfl := Option.some.inj h
    refine Or.inr ⟨texts, operandScript.written_of_mapM htexts, ?_⟩
    simp only [String.toList_ofList, List.append_assoc, List.cons_append]

/-- An instance is one of the template whose name its text begins with. -/
theorem name_of_instanceKey? {name name' key : String} {a b : List Operand}
    (hname : isName name = true) (hname' : isName name' = true) (h : instanceKey? name a = some key)
    (h' : instanceKey? name' b = some key) :
    name = name' := by
  have hbegins : ∀ {name : String} {a : List Operand}, instanceKey? name a = some key →
      ∃ rest : List Char, key.toList = name.toList ++ rest ∧
      ∀ c ∈ rest.head?, continuesWord c = false := by
    intro name a h
    rcases instanceKey?_eq_some h with ⟨-, hkey⟩ | ⟨texts, -, hkey⟩
    · exact ⟨[], by rw [hkey, List.append_nil], nofun⟩
    · refine ⟨_, hkey, ?_⟩
      rintro _ ⟨⟩
      decide
  obtain ⟨rest, hkey, hrest⟩ := hbegins h
  obtain ⟨rest', hkey', hrest'⟩ := hbegins h'
  exact (name_unique hname hname' hrest hrest' (hkey.symm.trans hkey')).1

/-- **Instances are known by their arguments.** -/
theorem settled_of_instanceKey? {name key : String} {a b : List Operand}
    (ha : ∀ operand ∈ a, operand.legible = true) (hb : ∀ operand ∈ b, operand.legible = true)
    (h : instanceKey? name a = some key) (h' : instanceKey? name b = some key) :
    a.map Operand.settled = b.map Operand.settled := by
  rcases instanceKey?_eq_some h with ⟨rfl, hkey⟩ | ⟨texts, htexts, hkey⟩
  · rcases instanceKey?_eq_some h' with ⟨rfl, -⟩ | ⟨texts', -, hkey'⟩
    · rfl
    · have hsame := congrArg List.length (hkey.symm.trans hkey')
      rw [List.length_append, List.length_cons] at hsame
      omega
  · rcases instanceKey?_eq_some h' with ⟨rfl, hkey'⟩ | ⟨texts', htexts', hkey'⟩
    · have hsame := congrArg List.length (hkey.symm.trans hkey')
      rw [List.length_append, List.length_cons] at hsame
      omega
    · have hsame := List.append_cancel_left (hkey.symm.trans hkey')
      have htold : ∀ operand ∈ a, operandScript.Told operand :=
        fun operand hmem => Operand.told (ha operand hmem)
      exact (Script.joined (separates_operands []) (separates_operands [])
        (fun _ _ hlegible htext => begins_operand hlegible htext) htexts htexts' htold ha hb
        (List.cons.inj hsame).2).1

end Wireform
