import Wireform.Definition.Loading
import Wireform.Proofs.Json.RoundTrip

/-!
# Loading undoes writing

A reader looks at the members of a form one after the other. Each part of a definition therefore has
a lemma that steps the reader of its members over those that are written, with what the parts below
load as given; the recursion over definitions puts them together.

* `Writable`: numbers are finite, numbers and values read back and no namespace repeats a name.
* `Loading.Loads`: the form of a definition has one tag, and loads as the definition.
* `Loading.typeRef_toJson`, `Loading.loads_toJson`: references and definitions.
* `loadDocument_documentOf`: the compact document of a list of definitions loads as that list.
-/

namespace Wireform

mutual

/-- In a reference, numbers of expressions are finite, and they read back as values do. A namespace
is a map: it gives each name one definition. -/
def TypeRef.Writable : TypeRef → Prop
  | ⟨kind, _⟩ => kind.Writable

/-- In what a reference refers to. -/
def TypeKind.Writable : TypeKind → Prop
  | .named _ arguments => argumentsWritable arguments
  | .parameter _ => True
  | .inline body => body.Writable
  | .array element size => element.Writable ∧ tokensWritable size
  | .path segments => segmentsWritable segments

/-- In an argument list, if there is one. -/
def argumentsWritable : Option (List (List Token)) → Prop
  | none => True
  | some arguments => exprsWritable arguments

/-- In each of some expressions. -/
def exprsWritable : List (List Token) → Prop
  | [] => True
  | expr :: rest => tokensWritable expr ∧ exprsWritable rest

/-- In each of some tokens. -/
def tokensWritable : List Token → Prop
  | [] => True
  | token :: rest => token.Writable ∧ tokensWritable rest

/-- In a token. -/
def Token.Writable : Token → Prop
  | .number value => value.isFinite = true ∧ (Json.ofBinary64 value).ReadsBack
  | .type reference => reference.Writable
  | .string _ | .parameter _ | .operator _ => True

/-- In each of some segments. -/
def segmentsWritable : List PathSegment → Prop
  | [] => True
  | ⟨_, arguments⟩ :: rest => argumentsWritable arguments ∧ segmentsWritable rest

/-- In a struct. -/
def StructBody.Writable : StructBody → Prop
  | ⟨_, fields, locals⟩ =>
    fieldsWritable fields ∧ (Assoc.keys locals).Nodup ∧ definitionsWritable locals

/-- In each of some fields. -/
def fieldsWritable : List Field → Prop
  | [] => True
  | field :: rest => field.Writable ∧ fieldsWritable rest

/-- In a field. -/
def Field.Writable : Field → Prop
  | .typed _ type => type.Writable
  | .literal _ value => value.ReadsBack
  | .constant type value => type.Writable ∧ value.ReadsBack

/-- In an enum. -/
def EnumBody.Writable : EnumBody → Prop
  | ⟨_, tagType, _, entries, locals⟩ =>
    tagTypeWritable tagType ∧ (∀ entry ∈ entries, entry.tag.ReadsBack) ∧ (Assoc.keys locals).Nodup ∧
      definitionsWritable locals

/-- In the type of a tag. -/
def tagTypeWritable : Option TypeRef → Prop
  | none => True
  | some type => type.Writable

/-- In definitions. -/
def definitionsWritable : List (String × Definition) → Prop
  | [] => True
  | (_, definition) :: rest => definition.Writable ∧ definitionsWritable rest

/-- In a definition. -/
def Definition.Writable : Definition → Prop
  | .struct body => body.Writable
  | .enum body => body.Writable
  | .synonym target => target.Writable
  | .template _ body => body.Writable

end

namespace Loading

/-! ### Tags -/

theorem tagOf_found {α : Type} {tag : String} (load : Json → Load α) (found : α)
    {members : List (String × Json)} (h : tag ∉ Assoc.keys members) :
    tagOf tag load (some found) members = .ok found := by
  induction members with
  | nil => rfl
  | cons member rest ih =>
    obtain ⟨name, value⟩ := member
    have hname : name ≠ tag := fun heq => h (heq ▸ List.mem_cons_self)
    rw [tagOf, if_neg hname]
    exact ih fun hmem => h (List.mem_cons_of_mem _ hmem)

/-- A tag that stands in front and is not repeated. -/
theorem tagOf_cons {α : Type} {tag : String} {load : Json → Load α} {value : Json} {found : α}
    (hload : load value = .ok found) {members : List (String × Json)}
    (h : tag ∉ Assoc.keys members) :
    tagOf tag load none ((tag, value) :: members) = .ok found := by
  unfold tagOf
  rw [if_pos rfl, hload]
  exact tagOf_found load found h

theorem innerTag_cons {α : Type} {tag name : String} {variants : List (String × α)} {found : α}
    (hget : Assoc.get? variants name = some found) {members : List (String × Json)}
    (h : tag ∉ Assoc.keys members) :
    innerTag tag variants ((tag, .string name) :: members) = .ok found := by
  have hload : tagNameOrIndex variants (.string name) = .ok found := by
    change variant variants name = _
    rw [variant, hget]
  rw [innerTag, tagOf_cons hload h]
  rfl

/-! ### References -/

theorem nullableOf_members (kind : TypeKind) (nullable : Bool) :
    nullableOf none (kind.members ++ nullableMember nullable) = .ok nullable := by
  cases kind with
  | named name arguments => cases arguments <;> cases nullable <;> rfl
  | parameter | inline | array | path => cases nullable <;> rfl

theorem exprsOrNull_members {arguments : Option (List Expr)}
    (h : ∀ exprs, arguments = some exprs → exprItems (exprsJson exprs) = .ok exprs)
    {exprs : List Expr} (hsome : arguments = some exprs) :
    exprsOrNull (.array (exprsJson exprs)) = .ok (some exprs) := by
  change (exprItems (exprsJson exprs)).map some = _
  rw [h exprs hsome]
  rfl

theorem typeRef_named {name : String} {arguments : Option (List Expr)} (nullable : Bool)
    (h : ∀ exprs, arguments = some exprs → exprItems (exprsJson exprs) = .ok exprs) :
    typeRef (TypeRef.toJson ⟨.named name arguments, nullable⟩) =
      .ok ⟨.named name arguments, nullable⟩ := by
  have htag : innerTag "ref" typeTags
      ((TypeKind.named name arguments).members ++ nullableMember nullable) =
      .ok .named := by
    cases arguments <;> cases nullable <;> rfl
  have hkind : namedMembers none none
      ((TypeKind.named name arguments).members ++ nullableMember nullable) =
      .ok (.named name arguments) := by
    cases arguments with
    | none => cases nullable <;> rfl
    | some exprs =>
      change (do
        let arguments ← once "generics" none (exprsOrNull (.array (exprsJson exprs)))
        namedMembers (some name) arguments (nullableMember nullable)) = _
      rw [exprsOrNull_members h rfl]
      cases nullable <;> rfl
  simp only [TypeRef.toJson, typeRef, nullableOf_members, htag, hkind]
  rfl

theorem typeRef_parameter (name : String) (nullable : Bool) :
    typeRef (TypeRef.toJson ⟨.parameter name, nullable⟩) = .ok ⟨.parameter name, nullable⟩ := by
  cases nullable <;> rfl

theorem typeRef_inline {body : StructBody} (nullable : Bool)
    (h : structMembers ⟨none, none, none⟩ body.members = .ok body) :
    typeRef (TypeRef.toJson ⟨.inline body, nullable⟩) = .ok ⟨.inline body, nullable⟩ := by
  have htag : innerTag "ref" typeTags ((TypeKind.inline body).members ++ nullableMember nullable) =
      .ok .inline := by
    cases nullable <;> rfl
  have hkind : inlineMembers none ((TypeKind.inline body).members ++ nullableMember nullable) =
      .ok (.inline body) := by
    change (do
      let body ← once "body" none (structMembers ⟨none, none, none⟩ body.members)
      inlineMembers body (nullableMember nullable)) = _
    rw [h]
    cases nullable <;> rfl
  simp only [TypeRef.toJson, typeRef, nullableOf_members, htag, hkind]
  rfl

theorem typeRef_array {element : TypeRef} {size : Expr} (nullable : Bool)
    (helement : typeRef element.toJson = .ok element)
    (hsize : tokenItems (tokensJson size) = .ok size) :
    typeRef (TypeRef.toJson ⟨.array element size, nullable⟩) =
      .ok ⟨.array element size, nullable⟩ := by
  have htag : innerTag "ref" typeTags
      ((TypeKind.array element size).members ++ nullableMember nullable) =
      .ok .array := by
    cases nullable <;> rfl
  have hkind : arrayMembers none none
      ((TypeKind.array element size).members ++ nullableMember nullable) =
      .ok (.array element size) := by
    change (do
      let element ← once "element" none (typeRef element.toJson)
      let size ← once "size" none (tokenItems (tokensJson size))
      arrayMembers element size (nullableMember nullable)) = _
    rw [helement, hsize]
    cases nullable <;> rfl
  simp only [TypeRef.toJson, typeRef, nullableOf_members, htag, hkind]
  rfl

theorem typeRef_path {segments : List PathSegment} (nullable : Bool)
    (h : segmentItems (segmentsJson segments) = .ok segments) :
    typeRef (TypeRef.toJson ⟨.path segments, nullable⟩) = .ok ⟨.path segments, nullable⟩ := by
  have htag : innerTag "ref" typeTags
      ((TypeKind.path segments).members ++ nullableMember nullable) = .ok .path := by
    cases nullable <;> rfl
  have hkind : pathMembers none ((TypeKind.path segments).members ++ nullableMember nullable) =
      .ok (.path segments) := by
    change (do
      let segments ← once "segments" none (segmentItems (segmentsJson segments))
      pathMembers segments (nullableMember nullable)) = _
    rw [h]
    cases nullable <;> rfl
  simp only [TypeRef.toJson, typeRef, nullableOf_members, htag, hkind]
  rfl

theorem segment_members {name : String} {arguments : Option (List Expr)}
    (h : ∀ exprs, arguments = some exprs → exprItems (exprsJson exprs) = .ok exprs) :
    segment (.object (("name", .string name) :: argumentsMember arguments)) =
      .ok ⟨name, arguments⟩ := by
  cases arguments with
  | none => rfl
  | some exprs =>
    change (do
      let arguments ← once "generics" none (exprsOrNull (.array (exprsJson exprs)))
      segmentMembers (some name) arguments []) = _
    rw [exprsOrNull_members h rfl]
    rfl

theorem token_number {value : Binary64} (finite : value.isFinite = true) :
    token (Token.number value).toJson = .ok (.number value) := by
  have hjson : Json.ofBinary64 value = .number (.float value finite) := by
    rw [Json.ofBinary64, Number.ofBinary64?, dif_pos finite]
  rw [Token.toJson, hjson]
  rfl

/-! ### Structs and enums -/

/-- A namespace in which every definition is loaded. -/
theorem definitions_members {locals : List (String × Definition)}
    (hnodup : (Assoc.keys locals).Nodup)
    (h : definitionMembers (definitionsJson locals) = .ok locals) :
    definitions (.object (definitionsJson locals)) = .ok locals := by
  change (do return Assoc.collapse (← definitionMembers (definitionsJson locals))) = _
  rw [h]
  exact congrArg Except.ok (Assoc.collapse_of_nodup hnodup)

theorem structMembers_members {body : StructBody}
    (hfields : fieldItems (fieldsJson body.fields) = .ok body.fields)
    (hlocals : definitions (.object (definitionsJson body.locals)) = .ok body.locals) :
    structMembers ⟨none, none, none⟩ body.members = .ok body := by
  obtain ⟨shape, list, locals⟩ := body
  have hshape : plainVariant structShapes (.string shape.name) = .ok shape := by cases shape <;> rfl
  have hmembers : ∀ rest, structMembers ⟨none, none, none⟩ (("shape", .string shape.name) :: rest) =
      structMembers ⟨some shape, none, none⟩ rest := by
    intro rest
    change (do
      let shape ← once "shape" none (plainVariant structShapes (.string shape.name))
      structMembers ⟨shape, none, none⟩ rest) = _
    rw [hshape]
    rfl
  have hrest : ∀ fields : Option (List Field), structMembers ⟨some shape, fields, none⟩
      (if locals.isEmpty then [] else [("namespace", .object (definitionsJson locals))]) =
        .ok ⟨shape, fields.getD [], locals⟩ := by
    intro fields
    cases locals with
    | nil => rfl
    | cons first rest =>
      change (do
        let locals ← once "namespace" none (definitions (.object (definitionsJson (first :: rest))))
        structMembers ⟨some shape, fields, locals⟩ []) = _
      rw [hlocals]
      rfl
  rw [StructBody.members, hmembers]
  cases list with
  | nil => exact hrest none
  | cons first rest =>
    change (do
      let fields ← once "fields" none (fieldItems (fieldsJson (first :: rest)))
      structMembers ⟨some shape, fields, none⟩ _) = _
    rw [hfields]
    exact hrest (some (first :: rest))

theorem keys_members_struct (body : StructBody) : "kind" ∉ Assoc.keys body.members := by
  obtain ⟨shape, fields, locals⟩ := body
  rw [StructBody.members]
  cases fields <;> cases locals <;> simp [Assoc.keys]

theorem field_typed (key : Option String) {type : TypeRef} (h : typeRef type.toJson = .ok type) :
    field (Field.typed key type).toJson = .ok (.typed key type) := by
  cases key with
  | none =>
    change (do
      let type ← once "ty" none (typeRef type.toJson)
      typedMembers none type []) = _
    rw [h]
    rfl
  | some key =>
    change (do
      let type ← once "ty" none (typeRef type.toJson)
      typedMembers (some (some key)) type []) = _
    rw [h]
    rfl

theorem field_literal (key : Option String) {value : Json} (h : value.collapse = value) :
    field (Field.literal key value).toJson = .ok (.literal key value) := by
  have hfield : field (Field.literal key value).toJson = .ok (.literal key value.collapse) := by
    cases key <;> rfl
  rw [hfield, h]

theorem field_constant {type : TypeRef} {value : Json} (htype : typeRef type.toJson = .ok type)
    (hvalue : value.collapse = value) :
    field (Field.constant type value).toJson = .ok (.constant type value) := by
  change (do
    let type ← once "ty" none (typeRef type.toJson)
    constantMembers type none [("value", value)]) = _
  rw [htype]
  change Except.ok (Field.constant type value.collapse) = _
  rw [hvalue]

/-- The entries of an enum. -/
theorem entries_json {list : List EnumEntry} (h : ∀ entry ∈ list, entry.tag.collapse = entry.tag) :
    entries (.array (list.map EnumEntry.toJson)) = .ok list := by
  change (list.map EnumEntry.toJson).mapM entry = _
  induction list with
  | nil => rfl
  | cons first rest ih =>
    have hfirst : entry first.toJson = .ok first := by
      change Except.ok (⟨first.tag.collapse, first.variant⟩ : EnumEntry) = _
      rw [h first List.mem_cons_self]
    rw [List.map_cons, List.mapM_cons, hfirst]
    change (do
      let rest ← (rest.map EnumEntry.toJson).mapM entry
      return first :: rest) = _
    rw [ih fun entry hmem => h entry (List.mem_cons_of_mem _ hmem)]
    rfl

section EnumMembers

variable {p : PartialEnum} {rest : List (String × Json)}

theorem enumMembers_tagType (hp : p.tagType = none) {tagType : Option TypeRef}
    (h : ∀ type, tagType = some type → typeRef type.toJson = .ok type) :
    enumMembers p (tagTypeMember tagType ++ rest) =
      enumMembers { p with tagType := tagType.map some } rest := by
  obtain ⟨shape, _, target, list, locals⟩ := p
  obtain rfl := hp
  cases tagType with
  | none => rfl
  | some type =>
    have hnull : type.toJson.isNull = false := by
      obtain ⟨kind, nullable⟩ := type
      rfl
    change (do
      let type ← once "tag_type" none
        (if type.toJson.isNull then .ok none else (typeRef type.toJson).map some)
      enumMembers ⟨shape, type, target, list, locals⟩ rest) = _
    rw [hnull, h type rfl]
    rfl

theorem enumMembers_target (hp : p.target = none) (target : Option String) :
    enumMembers p (optionalMember "target" (target.map .string) ++ rest) =
      enumMembers { p with target := target.map some } rest := by
  obtain ⟨shape, tagType, _, list, locals⟩ := p
  obtain rfl := hp
  cases target <;> rfl

theorem enumMembers_entries (hp : p.entries = none) {list : List EnumEntry}
    (h : ∀ entry ∈ list, entry.tag.collapse = entry.tag) :
    enumMembers p (("entries", .array (list.map EnumEntry.toJson)) :: rest) =
      enumMembers { p with entries := some list } rest := by
  obtain ⟨shape, tagType, target, _, locals⟩ := p
  obtain rfl := hp
  change (do
    let list ← once "entries" none (entries (.array (list.map EnumEntry.toJson)))
    enumMembers ⟨shape, tagType, target, list, locals⟩ rest) = _
  rw [entries_json h]
  rfl

end EnumMembers

theorem enumMembers_members {body : EnumBody}
    (htag : ∀ type, body.tagType = some type → typeRef type.toJson = .ok type)
    (hentries : ∀ entry ∈ body.entries, entry.tag.collapse = entry.tag)
    (hlocals : definitions (.object (definitionsJson body.locals)) = .ok body.locals) :
    enumMembers ⟨none, none, none, none, none⟩ body.members = .ok body := by
  obtain ⟨shape, tagType, target, list, locals⟩ := body
  have hshape : ∀ rest, enumMembers ⟨none, none, none, none, none⟩
      (("shape", .string shape.name) :: rest) =
      enumMembers ⟨some shape, none, none, none, none⟩ rest := by
    intro rest
    cases shape <;> rfl
  -- what is not written counts as `null`
  have hdefault : ∀ {α : Type} (a : Option α), (a.map some).getD none = a := by
    intro α a
    cases a <;> rfl
  have hfinish : ∀ found : Option (List (String × Definition)),
      enumMembers ⟨some shape, tagType.map some, target.map some, some list, found⟩ [] =
        .ok ⟨shape, tagType, target, list, found.getD []⟩ := by
    intro found
    change Except.ok
      (⟨shape, (tagType.map some).getD none, (target.map some).getD none, list, found.getD []⟩ :
      EnumBody) = _
    rw [hdefault, hdefault]
  rw [EnumBody.members, hshape, List.append_assoc, enumMembers_tagType rfl htag,
    enumMembers_target rfl, enumMembers_entries rfl hentries]
  cases locals with
  | nil => exact hfinish none
  | cons first rest =>
    change (do
      let locals ← once "namespace" none (definitions (.object (definitionsJson (first :: rest))))
      enumMembers ⟨some shape, tagType.map some, target.map some, some list, locals⟩ []) = _
    rw [hlocals]
    exact hfinish (some (first :: rest))

theorem keys_members_enum (body : EnumBody) : "kind" ∉ Assoc.keys body.members := by
  obtain ⟨shape, tagType, target, list, locals⟩ := body
  rw [EnumBody.members]
  cases tagType <;> cases target <;> cases locals
    <;> simp [Assoc.keys, tagTypeMember, optionalMember]

/-! ### Definitions -/

theorem strings_map (list : List String) : strings (.array (list.map .string)) = .ok list := by
  change (list.map Json.string).mapM string = _
  induction list with
  | nil => rfl
  | cons first rest ih =>
    rw [List.map_cons, List.mapM_cons, ih]
    rfl

/-- The form of a definition is loaded as it. -/
structure Loads (d : Definition) (tag : DefinitionTag) (kind : String)
    (members : List (String × Json)) : Prop where
  form : d.toJson = .object (("kind", .string kind) :: members)
  known : Assoc.get? definitionTags kind = some tag
  single : "kind" ∉ Assoc.keys members
  loaded : definitionOf tag (("kind", .string kind) :: members) = .ok d

theorem Loads.definition {d : Definition} {tag : DefinitionTag} {kind : String}
    {members : List (String × Json)} (h : Loads d tag kind members) :
    definition d.toJson = .ok d := by
  have hdefinition : ∀ members, Loading.definition (.object members) = (do
      let tag ← innerTag "kind" definitionTags members
      definitionOf tag members) := fun _ => rfl
  rw [h.form, hdefinition, innerTag_cons h.known h.single]
  exact h.loaded

/-- A definition at the top level is loaded in the same way. -/
theorem Loads.topDefinition {d : Definition} {tag : DefinitionTag} {kind : String}
    {members : List (String × Json)} (h : Loads d tag kind members) (name : String) :
    topDefinition name d.toJson = .ok d := by
  have hload : tagName definitionTags (.string kind) = .ok tag := by
    change variant definitionTags kind = _
    rw [variant, h.known]
  rw [h.form, Loading.topDefinition, tagOf_cons hload h.single]
  change (definitionOf tag _).mapError _ = _
  rw [h.loaded]
  rfl

theorem loads_struct {body : StructBody}
    (h : structMembers ⟨none, none, none⟩ body.members = .ok body) :
    Loads (.struct body) .struct "struct" body.members where
  form := rfl
  known := rfl
  single := keys_members_struct body
  loaded := by
    change (structMembers ⟨none, none, none⟩ body.members).map Definition.struct = _
    rw [h]
    rfl

theorem loads_enum {body : EnumBody}
    (h : enumMembers ⟨none, none, none, none, none⟩ body.members = .ok body) :
    Loads (.enum body) .enum "enum" body.members where
  form := rfl
  known := rfl
  single := keys_members_enum body
  loaded := by
    change (enumMembers ⟨none, none, none, none, none⟩ body.members).map Definition.enum = _
    rw [h]
    rfl

theorem loads_synonym {target : TypeRef} (h : typeRef target.toJson = .ok target) :
    Loads (.synonym target) .synonym "alias" [("target", target.toJson)] where
  form := rfl
  known := rfl
  single := by simp [Assoc.keys]
  loaded := by
    change (do
      let target ← once "target" none (typeRef target.toJson)
      synonymMembers target []) = _
    rw [h]
    rfl

theorem loads_template (parameters : List String) {body : Definition}
    (h : definition body.toJson = .ok body) :
    Loads (.template parameters body) .template "template"
      [("params", .array (parameters.map .string)), ("body", body.toJson)] where
  form := rfl
  known := rfl
  single := by simp [Assoc.keys]
  loaded := by
    change (do
      let parameters ← once "params" none (strings (.array (parameters.map .string)))
      let body ← once "body" none (definition body.toJson)
      templateMembers parameters body []) = _
    rw [strings_map, h]
    rfl

/-! ### All together -/

mutual

/-- **A reference is loaded from its form.** -/
theorem typeRef_toJson : ∀ r : TypeRef, r.Writable → typeRef r.toJson = .ok r
  | ⟨.named _ none, nullable⟩, _ => typeRef_named nullable nofun
  | ⟨.named _ (some arguments), nullable⟩, h =>
    typeRef_named nullable fun _ hsome => Option.some.inj hsome ▸ exprItems_json arguments h
  | ⟨.parameter name, nullable⟩, _ => typeRef_parameter name nullable
  | ⟨.inline body, nullable⟩, h => typeRef_inline nullable (structMembers_toJson body h)
  | ⟨.array element size, nullable⟩, h =>
    typeRef_array nullable (typeRef_toJson element h.1) (tokenItems_json size h.2)
  | ⟨.path segments, nullable⟩, h => typeRef_path nullable (segmentItems_json segments h)

/-- The expressions of a list. -/
theorem exprItems_json : ∀ exprs : List (List Token), exprsWritable exprs →
    exprItems (exprsJson exprs) = .ok exprs
  | [], _ => rfl
  | tokens :: rest, h => by
    change (do
      let first ← tokenItems (tokensJson tokens)
      return first :: (← exprItems (exprsJson rest))) = _
    rw [tokenItems_json tokens h.1, exprItems_json rest h.2]
    rfl

/-- The tokens of an expression. -/
theorem tokenItems_json : ∀ tokens : List Token, tokensWritable tokens →
    tokenItems (tokensJson tokens) = .ok tokens
  | [], _ => rfl
  | first :: rest, h => by
    change (do
      let first ← token first.toJson
      return first :: (← tokenItems (tokensJson rest))) = _
    rw [token_toJson first h.1, tokenItems_json rest h.2]
    rfl

/-- A token. -/
theorem token_toJson : ∀ t : Token, t.Writable → token t.toJson = .ok t
  | .number _, h => token_number h.1
  | .type reference, h => by
    change (typeRef reference.toJson).map Token.type = _
    rw [typeRef_toJson reference h]
    rfl
  | .string _, _ | .parameter _, _ | .operator _, _ => rfl

/-- The segments of a path. -/
theorem segmentItems_json : ∀ segments : List PathSegment, segmentsWritable segments →
    segmentItems (segmentsJson segments) = .ok segments
  | [], _ => rfl
  | ⟨name, none⟩ :: rest, h => by
    have hnone : ∀ exprs : List Expr, none = some exprs →
        exprItems (exprsJson exprs) = .ok exprs := nofun
    change (do
      let first ← segment (.object (("name", .string name) :: argumentsMember none))
      return first :: (← segmentItems (segmentsJson rest))) = _
    rw [segment_members hnone, segmentItems_json rest h.2]
    rfl
  | ⟨name, some arguments⟩ :: rest, h => by
    change (do
      let first ← segment (.object (("name", .string name) :: argumentsMember (some arguments)))
      return first :: (← segmentItems (segmentsJson rest))) = _
    rw [segment_members fun _ hsome => Option.some.inj hsome ▸ exprItems_json arguments h.1,
      segmentItems_json rest h.2]
    rfl

/-- A struct. -/
theorem structMembers_toJson : ∀ body : StructBody, body.Writable →
    structMembers ⟨none, none, none⟩ body.members = .ok body
  | ⟨_, fields, locals⟩, h =>
    structMembers_members (fieldItems_json fields h.1)
      (definitions_members h.2.1 (definitionMembers_json locals h.2.2))

/-- The fields of a struct. -/
theorem fieldItems_json : ∀ fields : List Field, fieldsWritable fields →
    fieldItems (fieldsJson fields) = .ok fields
  | [], _ => rfl
  | first :: rest, h => by
    change (do
      let first ← field first.toJson
      return first :: (← fieldItems (fieldsJson rest))) = _
    rw [field_toJson first h.1, fieldItems_json rest h.2]
    rfl

/-- A field. -/
theorem field_toJson : ∀ f : Field, f.Writable → field f.toJson = .ok f
  | .typed key type, h => field_typed key (typeRef_toJson type h)
  | .literal key _, h => field_literal key (Json.readsBack_iff.1 h).2.2
  | .constant type _, h => field_constant (typeRef_toJson type h.1) (Json.readsBack_iff.1 h.2).2.2

/-- An enum. -/
theorem enumMembers_toJson : ∀ body : EnumBody, body.Writable →
    enumMembers ⟨none, none, none, none, none⟩ body.members = .ok body
  | ⟨_, none, _, _, locals⟩, h =>
    enumMembers_members nofun (fun entry hmem => (Json.readsBack_iff.1 (h.2.1 entry hmem)).2.2)
      (definitions_members h.2.2.1 (definitionMembers_json locals h.2.2.2))
  | ⟨_, some type, _, _, locals⟩, h =>
    enumMembers_members (fun _ hsome => Option.some.inj hsome ▸ typeRef_toJson type h.1)
      (fun entry hmem => (Json.readsBack_iff.1 (h.2.1 entry hmem)).2.2)
      (definitions_members h.2.2.1 (definitionMembers_json locals h.2.2.2))

/-- The definitions of a namespace. -/
theorem definitionMembers_json : ∀ locals : List (String × Definition), definitionsWritable locals →
    definitionMembers (definitionsJson locals) = .ok locals
  | [], _ => rfl
  | (name, first) :: rest, h => by
    obtain ⟨_, _, _, hfirst⟩ := loads_toJson first h.1
    change (do
      let first ← definition first.toJson
      return (name, first) :: (← definitionMembers (definitionsJson rest))) = _
    rw [hfirst.definition, definitionMembers_json rest h.2]
    rfl

/-- **A definition is loaded from its form.** -/
theorem loads_toJson : ∀ d : Definition, d.Writable → ∃ tag kind members, Loads d tag kind members
  | .struct body, h => ⟨_, _, _, loads_struct (structMembers_toJson body h)⟩
  | .enum body, h => ⟨_, _, _, loads_enum (enumMembers_toJson body h)⟩
  | .synonym target, h => ⟨_, _, _, loads_synonym (typeRef_toJson target h)⟩
  | .template parameters body, h => by
    obtain ⟨_, _, _, hbody⟩ := loads_toJson body h
    exact ⟨_, _, _, loads_template parameters hbody.definition⟩

end

end Loading

/-- Each definition is loaded from its form, a repeated name as often as it is there. -/
theorem loadDefinitions_documentOf {definitions : List (String × Definition)}
    (h : definitionsWritable definitions) :
    loadDefinitions (documentOf definitions) = .ok definitions := by
  change (definitionsJson definitions).mapM (fun entry : String × Json => do
    return (entry.1, ← Loading.topDefinition entry.1 entry.2)) = _
  induction definitions with
  | nil => rfl
  | cons entry rest ih =>
    obtain ⟨name, first⟩ := entry
    obtain ⟨_, _, _, hfirst⟩ := Loading.loads_toJson first h.1
    rw [definitionsJson, List.mapM_cons, hfirst.topDefinition name, ih h.2]
    rfl

/-! ### What is read -/

section Exact

open Json (exact_array exact_object)

theorem exact_optionalMember (name : String) (text : Option String) :
    ∀ member ∈ optionalMember name (text.map .string), member.2.Exact := by
  cases text with
  | none => exact List.forall_mem_nil _
  | some text => exact List.forall_mem_singleton.2 rfl

mutual

/-- The form of a reference that may be written is read as it is. -/
theorem exact_typeRef : ∀ r : TypeRef, r.Writable → r.toJson.Exact
  | ⟨kind, nullable⟩, h => by
    refine exact_object.2 (List.forall_mem_append.2 ⟨exact_kind kind h, ?_⟩)
    cases nullable with
    | false => exact List.forall_mem_nil _
    | true => exact List.forall_mem_singleton.2 rfl

/-- The members of a reference. -/
theorem exact_kind : ∀ kind : TypeKind, kind.Writable → ∀ member ∈ kind.members, member.2.Exact
  | .named _ none, _ => List.forall_mem_cons.2 ⟨rfl, List.forall_mem_singleton.2 rfl⟩
  | .named _ (some arguments), h => List.forall_mem_cons.2 ⟨rfl, List.forall_mem_cons.2 ⟨rfl,
      List.forall_mem_singleton.2 (exact_array.2 (exact_exprs arguments h))⟩⟩
  | .parameter _, _ => List.forall_mem_cons.2 ⟨rfl, List.forall_mem_singleton.2 rfl⟩
  | .inline body, h => List.forall_mem_cons.2 ⟨rfl,
      List.forall_mem_singleton.2 (exact_object.2 (exact_struct body h))⟩
  | .array element size, h =>
    List.forall_mem_cons.2 ⟨rfl, List.forall_mem_cons.2 ⟨exact_typeRef element h.1,
      List.forall_mem_singleton.2 (exact_array.2 (exact_tokens size h.2))⟩⟩
  | .path segments, h => List.forall_mem_cons.2 ⟨rfl,
      List.forall_mem_singleton.2 (exact_array.2 (exact_segments segments h))⟩

/-- Expressions. -/
theorem exact_exprs : ∀ exprs : List (List Token), exprsWritable exprs →
    ∀ item ∈ exprsJson exprs, item.Exact
  | [], _ => List.forall_mem_nil _
  | tokens :: rest, h =>
    List.forall_mem_cons.2 ⟨exact_array.2 (exact_tokens tokens h.1), exact_exprs rest h.2⟩

/-- Tokens. -/
theorem exact_tokens : ∀ tokens : List Token, tokensWritable tokens →
    ∀ item ∈ tokensJson tokens, item.Exact
  | [], _ => List.forall_mem_nil _
  | token :: rest, h => List.forall_mem_cons.2 ⟨exact_token token h.1, exact_tokens rest h.2⟩

/-- A token. -/
theorem exact_token : ∀ t : Token, t.Writable → t.toJson.Exact
  | .number _, h => exact_object.2 (List.forall_mem_singleton.2 (Json.readsBack_iff.1 h.2).2.1)
  | .type reference, h => exact_object.2 (List.forall_mem_singleton.2 (exact_typeRef reference h))
  | .string _, _ | .parameter _, _ | .operator _, _ => rfl

/-- The segments of a path. -/
theorem exact_segments : ∀ segments : List PathSegment, segmentsWritable segments →
    ∀ item ∈ segmentsJson segments, item.Exact
  | [], _ => List.forall_mem_nil _
  | ⟨_, none⟩ :: rest, h => List.forall_mem_cons.2 ⟨rfl, exact_segments rest h.2⟩
  | ⟨_, some arguments⟩ :: rest, h =>
    List.forall_mem_cons.2 ⟨exact_object.2 (List.forall_mem_cons.2 ⟨rfl,
      List.forall_mem_singleton.2 (exact_array.2 (exact_exprs arguments h.1))⟩),
      exact_segments rest h.2⟩

/-- The members of a struct. -/
theorem exact_struct : ∀ body : StructBody, body.Writable → ∀ member ∈ body.members, member.2.Exact
  | ⟨_, fields, locals⟩, h => by
    refine List.forall_mem_cons.2 ⟨rfl, List.forall_mem_append.2 ⟨?_, ?_⟩⟩
    · split
      · exact List.forall_mem_nil _
      · exact List.forall_mem_singleton.2 (exact_array.2 (exact_fields fields h.1))
    · split
      · exact List.forall_mem_nil _
      · exact List.forall_mem_singleton.2 (exact_object.2 (exact_definitions locals h.2.2))

/-- Fields. -/
theorem exact_fields : ∀ fields : List Field, fieldsWritable fields →
    ∀ item ∈ fieldsJson fields, item.Exact
  | [], _ => List.forall_mem_nil _
  | field :: rest, h => List.forall_mem_cons.2 ⟨exact_field field h.1, exact_fields rest h.2⟩

/-- A field. -/
theorem exact_field : ∀ field : Field, field.Writable → field.toJson.Exact
  | .typed key type, h => exact_object.2 (List.forall_mem_append.2
      ⟨List.forall_mem_cons.2 ⟨rfl, exact_optionalMember "key" key⟩,
        List.forall_mem_singleton.2 (exact_typeRef type h)⟩)
  | .literal key _, h => exact_object.2 (List.forall_mem_append.2
      ⟨List.forall_mem_cons.2 ⟨rfl, exact_optionalMember "key" key⟩,
        List.forall_mem_singleton.2 (Json.readsBack_iff.1 h).2.1⟩)
  | .constant type _, h => exact_object.2 (List.forall_mem_cons.2 ⟨rfl, List.forall_mem_cons.2
      ⟨exact_typeRef type h.1, List.forall_mem_singleton.2 (Json.readsBack_iff.1 h.2).2.1⟩⟩)

/-- The members of an enum. -/
theorem exact_enum : ∀ body : EnumBody, body.Writable → ∀ member ∈ body.members, member.2.Exact
  | ⟨_, tagType, target, entries, locals⟩, h => by
    have hentries : ∀ item ∈ entries.map EnumEntry.toJson, item.Exact := by
      refine List.forall_mem_map.2 fun entry hmem =>
        exact_object.2 (List.forall_mem_cons.2 ⟨?_, ?_⟩)
      · exact (Json.readsBack_iff.1 (h.2.1 entry hmem)).2.1
      · exact List.forall_mem_singleton.2 rfl
    refine List.forall_mem_cons.2 ⟨rfl, List.forall_mem_append.2 ⟨List.forall_mem_append.2
      ⟨exact_tagType tagType h.1, exact_optionalMember "target" target⟩, List.forall_mem_cons.2
        ⟨exact_array.2 hentries, ?_⟩⟩⟩
    split
    · exact List.forall_mem_nil _
    · exact List.forall_mem_singleton.2 (exact_object.2 (exact_definitions locals h.2.2.2))

/-- The type of a tag. -/
theorem exact_tagType : ∀ type : Option TypeRef, tagTypeWritable type →
    ∀ member ∈ tagTypeMember type, member.2.Exact
  | none, _ => List.forall_mem_nil _
  | some type, h => List.forall_mem_singleton.2 (exact_typeRef type h)

/-- Definitions. -/
theorem exact_definitions :
    ∀ definitions : List (String × Definition), definitionsWritable definitions →
    ∀ member ∈ definitionsJson definitions, member.2.Exact
  | [], _ => List.forall_mem_nil _
  | (_, definition) :: rest, h =>
    List.forall_mem_cons.2 ⟨exact_definition definition h.1, exact_definitions rest h.2⟩

/-- A definition. -/
theorem exact_definition : ∀ d : Definition, d.Writable → d.toJson.Exact
  | .struct body, h => exact_object.2 (List.forall_mem_cons.2 ⟨rfl, exact_struct body h⟩)
  | .enum body, h => exact_object.2 (List.forall_mem_cons.2 ⟨rfl, exact_enum body h⟩)
  | .synonym target, h => exact_object.2 (List.forall_mem_cons.2 ⟨rfl,
      List.forall_mem_singleton.2 (exact_typeRef target h)⟩)
  | .template _ body, h => exact_object.2 (List.forall_mem_cons.2 ⟨rfl, List.forall_mem_cons.2
      ⟨exact_array.2 (List.forall_mem_map.2 fun _ _ => rfl),
        List.forall_mem_singleton.2 (exact_definition body h)⟩⟩)

end

end Exact

/-- The compact document of definitions is loaded as those that its text is read as. -/
theorem loadDocument_of_reread {definitions read : List (String × Definition)}
    (hdepth : (documentOf definitions).depth ≤ Json.maxDepth)
    (hread : (documentOf definitions).reread? = some (documentOf read))
    (h : definitionsWritable read) :
    loadDocument (documentOf definitions).chars = .ok read := by
  simp only [loadDocument, loadText, Json.readDocument?_chars, if_pos hdepth, hread,
    Option.map_some, loadDefinitions_documentOf h]

/-- **Loading undoes writing.** The compact document of definitions is loaded as them, in the same
order and with all repeated names. -/
theorem loadDocument_documentOf {definitions : List (String × Definition)}
    (h : definitionsWritable definitions)
    (hdepth : (documentOf definitions).depth ≤ Json.maxDepth) :
    loadDocument (documentOf definitions).chars = .ok definitions :=
  loadDocument_of_reread hdepth (Json.exact_object.2 (exact_definitions definitions h)) h

/-- Every kind of definition, field and token, optional parts there and left out, and a name
twice. -/
def mixedDefinitions : List (String × Definition) :=
  [("pair",
    .struct ⟨.tuple,
      [.typed none (.generic "list" [[.number (.ofNat 3)], [.type (.named "u8"), .string "x"]]),
      .literal (some "kind") (.object [("a", .null)]), .constant (.named "u8") (.ofUInt64 7)],
      [("inner", .synonym (TypeRef.path ["a", "b"]).orNull)]⟩),
    ("choice", .enum ⟨.object, some (.named "u8"), some "kind", [⟨.string "a", "body"⟩],
      [("body", .struct .empty)]⟩),
    ("list",
      .template ["T", "n"]
      (.synonym (.array (.inline (.object [.typed (some "x") (.parameter "T")]))
      [.number (.ofNat 2), .parameter "n", .operator "+"]))),
    ("pair", .enum ⟨.tuple, none, none, [], []⟩)]

theorem loadDocument_mixedDefinitions : definitionsWritable mixedDefinitions ∧
    (documentOf mixedDefinitions).depth ≤ Json.maxDepth ∧
    loadDocument (documentOf mixedDefinitions).chars = .ok mixedDefinitions := by
  have hkind : (Json.object [("a", .null)]).ReadsBack := by decide +kernel
  have hseven : (Json.ofUInt64 7).ReadsBack := by decide +kernel
  have htag : (Json.string "a").ReadsBack := by decide +kernel
  have hthree : (Json.ofBinary64 (.ofNat 3)).ReadsBack := by decide +kernel
  have htwo : (Json.ofBinary64 (.ofNat 2)).ReadsBack := by decide +kernel
  have hfinite : (Binary64.ofNat 3).isFinite = true ∧ (Binary64.ofNat 2).isFinite = true :=
    by decide +kernel
  have hwritable : definitionsWritable mixedDefinitions := by
    simp [mixedDefinitions, definitionsWritable, Definition.Writable,
      StructBody.Writable, fieldsWritable, Field.Writable, TypeRef.Writable, TypeKind.Writable,
      argumentsWritable, exprsWritable, tokensWritable,
      Token.Writable, segmentsWritable, EnumBody.Writable, tagTypeWritable, Assoc.keys,
      hkind, hseven, htag,
      hthree, htwo, hfinite.1, hfinite.2, TypeRef.generic, TypeRef.named, TypeRef.ofKind,
      TypeRef.path, TypeRef.orNull, TypeRef.array, TypeRef.inline, TypeRef.parameter,
      StructBody.object, StructBody.empty]
  have hdepth : (documentOf mixedDefinitions).depth ≤ Json.maxDepth := by decide +kernel
  exact ⟨hwritable, hdepth, loadDocument_documentOf hwritable hdepth⟩

/-- An array of a given size. -/
def sizedArray (size : Binary64) : List (String × Definition) :=
  [("A", .synonym (.array (.named "u8") [.number size]))]

/-- The double nearest to `0.38120423768821243`. -/
def oddSize : Binary64 := Decimal.nearest false ⟨38120423768821243, -17⟩

/-- Its neighbour, which is the double nearest to `0.3812042376882124`. -/
def nextSize : Binary64 := Decimal.nearest false ⟨3812042376882124, -16⟩

/-- A double that is written with many digits may be read as its neighbour. -/
theorem loadDocument_oddSize :
    oddSize.isFinite = true ∧ (documentOf (sizedArray oddSize)).depth ≤ Json.maxDepth ∧
    loadDocument (documentOf (sizedArray oddSize)).chars = .ok (sizedArray nextSize) ∧
    sizedArray nextSize ≠ sizedArray oddSize := by
  have hdepth : (documentOf (sizedArray oddSize)).depth ≤ Json.maxDepth := by decide +kernel
  have hread : (documentOf (sizedArray oddSize)).reread? =
      some (documentOf (sizedArray nextSize)) := by
    decide +kernel
  have hnext : (Json.ofBinary64 nextSize).ReadsBack := by decide +kernel
  have hfinite : oddSize.isFinite = true ∧ nextSize.isFinite = true := by decide +kernel
  have hwritable : definitionsWritable (sizedArray nextSize) := by
    simp [sizedArray, definitionsWritable, Definition.Writable, TypeRef.Writable, TypeKind.Writable,
      argumentsWritable, tokensWritable, Token.Writable, hnext, hfinite.2, TypeRef.array,
      TypeRef.named, TypeRef.ofKind]
  have hmoved : sizedArray nextSize ≠ sizedArray oddSize := by
    have hnumbers : nextSize ≠ oddSize := by decide +kernel
    simpa [sizedArray, TypeRef.array, TypeRef.ofKind] using hnumbers
  exact ⟨hfinite.1, hdepth, loadDocument_of_reread hdepth hread hwritable, hmoved⟩

end Wireform
