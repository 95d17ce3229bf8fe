import Wireform.Proofs.Identifier.Words

/-!
# How references and expressions are written

The text of a reference is that of an array or of the segments of a path, with its mark for `null`;
a single name is a path of one segment. An expression is written as its value, as its only token, or
as its tokens between parentheses. None of these begins with a mark that could also follow it.

* `exists_typeBody`, `tokenText`, `exprText`, `exists_of_segment`: how they are written.
* `typeStart`, `TokenText.leadOf`: how they begin.
-/

namespace Wireform

open Lexeme (startsWord continuesWord)

/-! ### Scripts -/

open TypeRef (segmentChars? segmentsChars? exprsChars? tokensChars? tokenChars?)

/-- References. -/
def typeScript : Script TypeRef TypeRef where
  chars? := TypeRef.canonicalChars?
  settled := TypeRef.settled
  legible r := r.legible = true
  after := EndsPart

/-- Tokens of expressions. -/
def tokenScript : Script Token Token where
  chars? := tokenChars?
  settled := settledToken
  legible token := legibleToken token = true
  after := EndsPart

/-- Expressions as arguments and sizes. -/
def exprScript : Script Expr Expr where
  chars? expr := exprChars? expr (tokensChars? expr)
  settled expr := settledExpr expr (settledTokens expr)
  legible expr := legibleTokens expr = true
  after := EndsPart

/-- Segments of paths. -/
def segmentScript : Script PathSegment PathSegment where
  chars? segment := segmentChars? segment.name segment.arguments
  settled segment := ⟨segment.name, settledArguments segment.arguments⟩
  legible segment := isName segment.name = true ∧ legibleArguments segment.arguments = true
  after := EndsSegment

/-- Arguments of templates. -/
def operandScript : Script Operand Operand where
  chars? := Operand.chars?
  settled := Operand.settled
  legible operand := operand.legible = true
  after := EndsPart

theorem tokensChars?_eq_mapM (tokens : List Token) :
    tokensChars? tokens = tokens.mapM tokenScript.chars? := by
  induction tokens with
  | nil => simp only [tokensChars?, List.mapM_nil]; rfl
  | cons token rest ih =>
    rw [tokensChars?, List.mapM_cons, ih]
    rfl

theorem exprsChars?_eq_mapM (exprs : List Expr) :
    exprsChars? exprs = exprs.mapM exprScript.chars? := by
  induction exprs with
  | nil => simp only [exprsChars?, List.mapM_nil]; rfl
  | cons expr rest ih =>
    rw [exprsChars?, List.mapM_cons, ih]
    rfl

theorem segmentsChars?_eq_mapM (segments : List PathSegment) :
    segmentsChars? segments = segments.mapM segmentScript.chars? := by
  induction segments with
  | nil => simp only [segmentsChars?, List.mapM_nil]; rfl
  | cons segment rest ih =>
    obtain ⟨name, arguments⟩ := segment
    rw [segmentsChars?, List.mapM_cons, ih]
    rfl

theorem settledTokens_eq_map (tokens : List Token) :
    settledTokens tokens = tokens.map tokenScript.settled := by
  induction tokens with
  | nil => simp only [settledTokens, List.map_nil]
  | cons token rest ih =>
    rw [settledTokens, List.map_cons, ih]
    rfl

theorem settledExprs_eq_map (exprs : List Expr) :
    settledExprs exprs = exprs.map exprScript.settled := by
  induction exprs with
  | nil => simp only [settledExprs, List.map_nil]
  | cons expr rest ih =>
    rw [settledExprs, List.map_cons, ih]
    rfl

theorem settledSegments_eq_map (segments : List PathSegment) :
    settledSegments segments = segments.map segmentScript.settled := by
  induction segments with
  | nil => simp only [settledSegments, List.map_nil]
  | cons segment rest ih =>
    obtain ⟨name, arguments⟩ := segment
    rw [settledSegments, List.map_cons, ih]
    rfl

theorem legible_of_tokens {tokens : List Token} (h : legibleTokens tokens = true) :
    ∀ token ∈ tokens, tokenScript.legible token := by
  induction tokens with
  | nil => nofun
  | cons token rest ih =>
    rw [legibleTokens, Bool.and_eq_true] at h
    exact List.forall_mem_cons.2 ⟨h.1, ih h.2⟩

theorem legible_of_exprs {exprs : List Expr} (h : legibleExprs exprs = true) :
    ∀ expr ∈ exprs, exprScript.legible expr := by
  induction exprs with
  | nil => nofun
  | cons expr rest ih =>
    rw [legibleExprs, Bool.and_eq_true] at h
    exact List.forall_mem_cons.2 ⟨h.1, ih h.2⟩

theorem legible_of_segments {segments : List PathSegment} (h : legibleSegments segments = true) :
    ∀ segment ∈ segments, segmentScript.legible segment := by
  induction segments with
  | nil => nofun
  | cons segment rest ih =>
    obtain ⟨name, arguments⟩ := segment
    rw [legibleSegments, Bool.and_eq_true, Bool.and_eq_true] at h
    exact List.forall_mem_cons.2 ⟨h.1, ih h.2⟩

/-! ### References -/

namespace TypeRef

/-- The names of a reference that are looked up one inside the other. -/
def segments? : TypeRef → Option (List PathSegment)
  | ⟨.named name arguments, _⟩ => some [⟨name, arguments⟩]
  | ⟨.path segments, _⟩ => some segments
  | _ => none

variable {r : TypeRef} {segments : List PathSegment}

theorem canonicalChars?_of_segments (h : r.segments? = some segments) :
    r.canonicalChars? = (segmentsChars? segments).map
      fun texts => marked r.nullable (joinChars ['.'] texts) := by
  obtain ⟨kind, nullable⟩ := r
  cases kind with
  | named name arguments =>
    obtain rfl := Option.some.inj h
    simp only [canonicalChars?, segmentsChars?]
    cases segmentChars? name arguments with
    | none => rfl
    | some text =>
      have hsingle : joinChars ['.'] [text] = text := List.intercalate_singleton
      simp [hsingle]
  | path segments' =>
    obtain rfl := Option.some.inj h
    simp only [canonicalChars?]
    cases segmentsChars? segments' <;> rfl
  | parameter | inline | array => cases h

theorem settled_of_segments (h : r.segments? = some segments) :
    r.settled = ofSegments (settledSegments segments) r.nullable := by
  obtain ⟨kind, nullable⟩ := r
  cases kind with
  | named name arguments =>
    obtain rfl := Option.some.inj h
    simp only [settled, settledSegments, ofSegments]
  | path segments' =>
    obtain rfl := Option.some.inj h
    simp only [settled]
  | parameter | inline | array => cases h

theorem legible_segments (h : r.segments? = some segments) (hlegible : r.legible = true) :
    segments ≠ [] ∧ legibleSegments segments = true := by
  obtain ⟨kind, nullable⟩ := r
  cases kind with
  | named name arguments =>
    obtain rfl := Option.some.inj h
    rw [legible] at hlegible
    refine ⟨List.cons_ne_nil _ _, ?_⟩
    rw [legibleSegments, legibleSegments, Bool.and_true, hlegible]
  | path segments' =>
    obtain rfl := Option.some.inj h
    rw [legible, Bool.and_eq_true] at hlegible
    exact ⟨by simpa using hlegible.1, hlegible.2⟩
  | parameter | inline | array => cases h

theorem bareName?_of_segments {name : String} (h : r.segments? = some [⟨name, none⟩])
    (hnullable : r.nullable = false) :
    r.bareName? = some name := by
  obtain ⟨kind, nullable⟩ := r
  obtain rfl : nullable = false := hnullable
  cases kind with
  | named name' arguments =>
    obtain ⟨⟨rfl, rfl⟩, -⟩ : (name' = name ∧ arguments = none) ∧ True := by
      simpa [segments?] using h
    rfl
  | path segments' =>
    obtain rfl := Option.some.inj h
    rfl
  | parameter | inline | array => cases h

/-- A legible reference that has a text is an array or made of segments. -/
theorem exists_of_legible (hlegible : r.legible = true) {text : List Char}
    (htext : r.canonicalChars? = some text) :
    (∃ segments, r.segments? = some segments) ∨ ∃ element size, r.kind = .array element size := by
  obtain ⟨kind, nullable⟩ := r
  cases kind with
  | named name arguments => exact Or.inl ⟨_, rfl⟩
  | path segments => exact Or.inl ⟨_, rfl⟩
  | parameter name =>
    rw [legible] at hlegible
    cases hlegible
  | inline body =>
    rw [canonicalChars?] at htext
    cases htext
  | array element size => exact Or.inr ⟨element, size, rfl⟩

end TypeRef

/-- A segment is its name, or its name with arguments. -/
theorem exists_of_segment {segment : PathSegment} {text : List Char}
    (h : segmentScript.chars? segment = some text) :
    segment.arguments = none ∧ text = segment.name.toList ∨
    ∃ arguments texts, segment.arguments = some arguments ∧
      exprScript.Written arguments texts ∧
        text = segment.name.toList ++ '<' :: (joinChars [',', ' '] texts ++ ['>']) := by
  obtain ⟨name, arguments⟩ := segment
  change segmentChars? name arguments = some text at h
  cases arguments with
  | none =>
    rw [segmentChars?] at h
    exact Or.inl ⟨rfl, (Option.some.inj h).symm⟩
  | some arguments =>
    rw [segmentChars?, exprsChars?_eq_mapM] at h
    obtain ⟨texts, htexts, h⟩ := Option.bind_eq_some_iff.1 h
    obtain rfl := Option.some.inj h
    exact Or.inr ⟨arguments, texts, rfl, exprScript.written_of_mapM htexts, by simp⟩

/-- Segments are not nothing, and the first of them begins with its name. -/
theorem exists_of_segments {segments : List PathSegment} {texts : List (List Char)}
    (hne : segments ≠ []) (hlegible : ∀ segment ∈ segments, segmentScript.legible segment)
    (htexts : segmentScript.Written segments texts) :
    ∃ name more, isName name = true ∧ joinChars ['.'] texts = name.toList ++ more ∧
      (segments = [⟨name, none⟩] ∧ more = [] ∨
        ∃ c rest, more = c :: rest ∧ (c = '<' ∨ c = '.')) := by
  cases htexts with
  | nil => exact absurd rfl hne
  | @cons segment text others texts htext hrest =>
    obtain ⟨hname, -⟩ := hlegible segment List.mem_cons_self
    refine ⟨segment.name, ?_⟩
    rw [joinChars_cons]
    rcases exists_of_segment htext with ⟨hnone, rfl⟩ | ⟨arguments, inner, -, -, rfl⟩
    · refine ⟨_, hname, rfl, ?_⟩
      cases hrest with
      | nil =>
        obtain ⟨name, _⟩ := segment
        obtain rfl := hnone
        exact Or.inl ⟨rfl, rfl⟩
      | cons => exact Or.inr ⟨_, _, rfl, Or.inr rfl⟩
    · refine ⟨_, hname, List.append_assoc _ _ _, Or.inr ⟨_, _, rfl, Or.inl rfl⟩⟩

/-- How a legible reference is written but for its mark for `null`. -/
inductive TypeBody (r : TypeRef) : List Char → Prop
  | segments {segments : List PathSegment} {texts : List (List Char)}
      (h : r.segments? = some segments) (hne : segments ≠ [])
      (hlegible : ∀ segment ∈ segments, segmentScript.legible segment)
      (htexts : segmentScript.Written segments texts) :
      TypeBody r (joinChars ['.'] texts)
  | array {element : TypeRef} {size : Expr} {inner count : List Char}
      (hkind : r.kind = .array element size) (helement : element.legible = true)
      (hsize : legibleTokens size = true) (hinner : typeScript.chars? element = some inner)
      (hcount : exprScript.chars? size = some count) :
      TypeBody r ('[' :: (inner ++ ';' :: ' ' :: (count ++ [']'])))

theorem exists_typeBody {r : TypeRef} (hlegible : r.legible = true) {text : List Char}
    (htext : r.canonicalChars? = some text) :
    ∃ body, text = TypeRef.marked r.nullable body ∧ TypeBody r body := by
  rcases TypeRef.exists_of_legible hlegible htext
    with ⟨segments, hsegments⟩ | ⟨element, size, hkind⟩
  · rw [TypeRef.canonicalChars?_of_segments hsegments, segmentsChars?_eq_mapM] at htext
    obtain ⟨texts, htexts, rfl⟩ := Option.map_eq_some_iff.1 htext
    obtain ⟨hne, hall⟩ := TypeRef.legible_segments hsegments hlegible
    exact ⟨_, rfl, .segments hsegments hne (legible_of_segments hall)
      (segmentScript.written_of_mapM htexts)⟩
  · obtain ⟨kind, nullable⟩ := r
    obtain rfl : kind = .array element size := hkind
    rw [TypeRef.legible, Bool.and_eq_true] at hlegible
    rw [TypeRef.canonicalChars?] at htext
    obtain ⟨inner, hinner, htext⟩ := Option.bind_eq_some_iff.1 htext
    obtain ⟨count, hcount, htext⟩ := Option.bind_eq_some_iff.1 htext
    obtain rfl := Option.some.inj htext
    refine ⟨_, ?_, .array rfl hlegible.1 hlegible.2 hinner hcount⟩
    simp only [List.cons_append, List.append_assoc]

/-- How the text of a reference begins: with a mark, or with a name behind which there is nothing
else or arguments or another segment. -/
inductive TypeStart (r : TypeRef) : List Char → Prop
  | mark {c : Char} {more : List Char} (h : c = '?' ∨ c = '[') : TypeStart r (c :: more)
  | bare {name : String} (hname : isName name = true) (h : r.bareName? = some name) :
      TypeStart r name.toList
  | word {name : String} {c : Char} {more : List Char} (hname : isName name = true)
      (h : c = '<' ∨ c = '.') :
      TypeStart r (name.toList ++ c :: more)

/-- **The text of a legible reference** begins like one. -/
theorem typeStart {r : TypeRef} (hlegible : r.legible = true) {text : List Char}
    (htext : r.canonicalChars? = some text) : TypeStart r text := by
  obtain ⟨body, rfl, hbody⟩ := exists_typeBody hlegible htext
  cases hnullable : r.nullable with
  | true => exact .mark (Or.inl rfl)
  | false =>
    change TypeStart r body
    cases hbody with
    | array => exact .mark (Or.inr rfl)
    | segments hsegments hne hall htexts =>
      obtain ⟨name, more, hname, hjoined, hmore⟩ := exists_of_segments hne hall htexts
      rw [hjoined]
      rcases hmore with ⟨rfl, rfl⟩ | ⟨c, rest, rfl, hc⟩
      · have hbare := TypeStart.bare hname (TypeRef.bareName?_of_segments hsegments hnullable)
        rwa [← List.append_nil name.toList] at hbare
      · exact .word hname hc

/-- **A reference** does not begin like a number, unless it is a bare name that looks like one. -/
theorem leadOf_type {r : TypeRef} {text rest : List Char} (h : TypeStart r text)
    (hbare : ∀ name, r.bareName? = some name → isNumberWord name = false) (hrest : EndsPart rest) :
    leadOf (text ++ rest) = .name := by
  cases h with
  | @mark c more h =>
    rcases h with rfl | rfl <;> rfl
  | bare hname hsame =>
    rw [leadOf_word hname hrest.segment.not_word, hbare _ hsame]
    rfl
  | @word name c more hname h =>
    have hnext : ∀ d ∈ (c :: (more ++ rest)).head?, continuesWord d = false := by
      intro d hd
      obtain rfl := Option.some.inj hd
      rcases h with rfl | rfl <;> decide
    rw [List.append_assoc, List.cons_append, leadOf_word hname hnext]
    rcases h with rfl | rfl <;> simp

/-- **The name of an operator** is not the text of a reference that is told apart from it. -/
theorem operator_ne_type {name : String} (hname : name ∈ operatorNames) {r : TypeRef}
    {text rest rest' : List Char} (h : TypeStart r text)
    (hbare : ∀ name ∈ operatorNames, r.bareName? ≠ some name) (hrest : EndsPart rest)
    (hrest' : EndsPart rest') : name.toList ++ rest ≠ text ++ rest' := by
  intro heq
  have hplain := isPlain_operator hname
  have hstop : ∀ {rest : List Char}, EndsPart rest → ∀ c ∈ rest.head?, isPlain c = false := by
    intro rest hrest c hc
    rw [isPlain, hrest.not_inner c hc]
    rfl
  cases h with
  | @mark c more h =>
    have hhead := head?_operator name hname
    cases hchars : name.toList with
    | nil =>
      rw [hchars] at hhead
      cases hhead
    | cons d others =>
      rw [hchars] at heq hhead
      obtain rfl : d = c := (List.cons.inj heq).1
      rcases h with rfl | rfl <;> cases hhead
  | @bare name' hname' hsame =>
    obtain ⟨hsame', -⟩ :=
      run_unique isPlain hplain (isPlain_of_isName hname') (hstop hrest) (hstop hrest') heq
    obtain rfl := String.toList_inj.1 hsame'
    exact hbare name hname hsame
  | @word name' c more hname' h =>
    have hc : ∀ d ∈ (c :: (more ++ rest')).head?, isPlain d = false := by
      intro d hd
      obtain rfl := Option.some.inj hd
      rcases h with rfl | rfl <;> rfl
    rw [List.append_assoc, List.cons_append] at heq
    obtain ⟨-, rfl⟩ := run_unique isPlain hplain (isPlain_of_isName hname') (hstop hrest) hc heq
    have hclose := hrest c rfl
    rcases h with rfl | rfl <;> revert hclose <;> decide

/-! ### Tokens -/

/-- What the text of a token begins with. -/
def Token.lead : Token → Lead
  | .number _ => .number
  | .string _ => .string
  | _ => .name

theorem begins_name {name : String} (h : isName name = true) (more : List Char) :
    Begins (name.toList ++ more) := by
  obtain ⟨c, rest, hcons, -⟩ := exists_of_isName h
  have hc := isPlain_of_isName h c (hcons ▸ List.mem_cons_self)
  exact ⟨c, rest ++ more, by rw [hcons, List.cons_append], isInner_of_isPlain hc⟩

theorem TypeStart.begins {r : TypeRef} {text : List Char} (h : TypeStart r text) : Begins text := by
  cases h with
  | mark h => rcases h with rfl | rfl <;> exact ⟨_, _, rfl, by decide⟩
  | bare hname =>
    have hbegins := begins_name hname []
    rwa [List.append_nil] at hbegins
  | word hname => exact begins_name hname _

theorem NumberText.begins {x : Binary64} {text : List Char} (h : NumberText x text) :
    Begins text := by
  refine .of_inner ?_ (isInner_number h)
  cases h with
  | nan => decide
  | infinite negative => cases negative <;> decide
  | digits negative hwhole hne =>
    exact List.append_ne_nil_of_right_ne_nil _ (List.append_ne_nil_of_left_ne_nil hne _)

/-- A bare name among tokens is neither a number nor an operator. -/
theorem legible_type {r : TypeRef} (h : legibleToken (.type r) = true) :
    r.legible = true ∧ ∀ name, r.bareName? = some name →
      isNumberWord name = false ∧ Operator.ofName? name = none := by
  rw [legibleToken, Bool.and_eq_true] at h
  refine ⟨h.1, fun name hname => ?_⟩
  obtain ⟨-, hbare⟩ := h
  rw [hname, Option.all_some, Bool.and_eq_true, Bool.not_eq_true',
    Option.isNone_iff_eq_none] at hbare
  exact hbare

theorem legible_ne_operator {r : TypeRef} (h : legibleToken (.type r) = true) :
    ∀ name ∈ operatorNames, r.bareName? ≠ some name := by
  have hsome : ∀ name ∈ operatorNames, (Operator.ofName? name).isSome = true := by decide +kernel
  intro name hname heq
  have hknown := hsome name hname
  rw [((legible_type h).2 name heq).2] at hknown
  cases hknown

/-- How a legible token is written. -/
inductive TokenText : Token → List Char → Prop
  | number (x : Binary64) : TokenText (.number x) (Constant.number x).chars
  | string (s : String) : TokenText (.string s) (Constant.string s).chars
  | type {r : TypeRef} {text : List Char} (hlegible : legibleToken (.type r) = true)
      (htext : r.canonicalChars? = some text) : TokenText (.type r) text
  | operator {name : String} (hname : name ∈ operatorNames) : TokenText (.operator name) name.toList

theorem tokenText {token : Token} {text : List Char} (hlegible : legibleToken token = true)
    (htext : tokenChars? token = some text) : TokenText token text := by
  cases token with
  | number x =>
    rw [tokenChars?] at htext
    obtain rfl := Option.some.inj htext
    exact .number x
  | string s =>
    rw [tokenChars?] at htext
    obtain rfl := Option.some.inj htext
    exact .string s
  | type r =>
    rw [tokenChars?] at htext
    exact .type hlegible htext
  | parameter name =>
    rw [legibleToken] at hlegible
    cases hlegible
  | operator name =>
    rw [tokenChars?] at htext
    obtain rfl := Option.some.inj htext
    rw [legibleToken] at hlegible
    exact .operator (mem_operatorNames hlegible)

theorem TokenText.begins {token : Token} {text : List Char} (h : TokenText token text) :
    Begins text := by
  cases h with
  | number x => exact (numberText x).begins
  | string s => exact ⟨_, _, rfl, by decide⟩
  | type hlegible htext => exact (typeStart (legible_type hlegible).1 htext).begins
  | @operator name hname =>
    have hne : ∀ name ∈ operatorNames, name.toList ≠ [] := by decide +kernel
    exact .of_inner (hne name hname) (isInner_operator hname)

theorem TokenText.leadOf {token : Token} {text rest : List Char} (h : TokenText token text)
    (hrest : EndsPart rest) :
    leadOf (text ++ rest) = token.lead := by
  cases h with
  | number x => exact leadOf_number (numberText x) hrest
  | string s => rfl
  | type hlegible htext =>
    obtain ⟨hr, hbare⟩ := legible_type hlegible
    exact leadOf_type (typeStart hr htext) (fun name hname => (hbare name hname).1) hrest
  | operator hname => exact leadOf_operator hname hrest

/-! ### Expressions -/

/-- A constant or one of the tokens of an expression. -/
def Single (expr : Expr) (token : Token) : Prop :=
  token ∈ expr ∨ ∃ value, token = (Operand.constant value).token

theorem Single.legible {expr : Expr} {token : Token} (h : Single expr token)
    (hlegible : legibleTokens expr = true) :
    legibleToken token = true := by
  rcases h with hmem | ⟨value, rfl⟩
  · exact legible_of_tokens hlegible token hmem
  · cases value <;> rfl

theorem begins_segment {segment : PathSegment} (hlegible : segmentScript.legible segment)
    {text : List Char} (htext : segmentScript.chars? segment = some text) : Begins text := by
  rcases exists_of_segment htext with ⟨-, rfl⟩ | ⟨_, _, -, -, rfl⟩
  · have hbegins := begins_name hlegible.1 []
    rwa [List.append_nil] at hbegins
  · exact begins_name hlegible.1 _

/-- How an expression is written: as its value or its only token, or as its tokens between
parentheses. -/
inductive ExprText (expr : Expr) : List Char → Prop
  | single {token : Token} {text : List Char} (htoken : Single expr token)
      (h : exprScript.settled expr = [settledToken token]) (htext : tokenChars? token = some text) :
      ExprText expr text
  | group {texts : List (List Char)} (h : exprScript.settled expr = expr.map tokenScript.settled)
      (htexts : tokenScript.Written expr texts) :
      ExprText expr ('(' :: (joinChars [' '] texts ++ [')']))

theorem exprText {expr : Expr} {text : List Char} (h : exprScript.chars? expr = some text) :
    ExprText expr text := by
  change exprChars? expr (tokensChars? expr) = some text at h
  have hsettled : exprScript.settled expr = settledExpr expr (settledTokens expr) := rfl
  unfold exprChars? at h
  cases hfold : Expression.fold? expr with
  | some value =>
    rw [hfold] at h
    obtain rfl := Option.some.inj h
    rw [settledExpr, hfold] at hsettled
    cases value with
    | number x =>
      exact .single (Or.inr ⟨.number x, rfl⟩) hsettled (by rw [Operand.token, tokenChars?])
    | string s =>
      exact .single (Or.inr ⟨.string s, rfl⟩) hsettled (by rw [Operand.token, tokenChars?])
  | none =>
    rw [settledExpr, hfold, settledTokens_eq_map] at hsettled
    rw [hfold, tokensChars?_eq_mapM] at h
    cases htexts : expr.mapM tokenScript.chars? with
    | none =>
      rw [htexts] at h
      cases h
    | some texts =>
      rw [htexts] at h
      have hwritten := tokenScript.written_of_mapM htexts
      split at h
      · next hnone => cases hnone
      · next single _ hsingle =>
        obtain rfl := Option.some.inj h
        obtain rfl := Option.some.inj hsingle
        cases hwritten with
        | cons htext hrest =>
          cases hrest
          exact .single (Or.inl List.mem_cons_self) hsettled htext
      · next several _ hseveral =>
        obtain rfl := Option.some.inj h
        obtain rfl := Option.some.inj hseveral
        exact .group hsettled hwritten
      · cases h

theorem begins_expr {expr : Expr} (hlegible : legibleTokens expr = true) {text : List Char}
    (htext : exprScript.chars? expr = some text) : Begins text := by
  cases exprText htext with
  | single htoken _ htext => exact (tokenText (htoken.legible hlegible) htext).begins
  | group => exact ⟨_, _, rfl, by decide⟩

/-- A token does not begin like a group. -/
theorem token_ne_group {token : Token} (hlegible : legibleToken token = true)
    {text rest : List Char} (htext : tokenChars? token = some text) (hrest : EndsPart rest)
    (more : List Char) :
    text ++ rest ≠ '(' :: more := by
  intro heq
  have hlead := (tokenText hlegible htext).leadOf hrest
  rw [heq] at hlead
  cases token <;> cases hlead

end Wireform
