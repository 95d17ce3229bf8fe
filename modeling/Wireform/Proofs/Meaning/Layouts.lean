import Wireform.Proofs.Meaning.Tracking

/-!
# Layouts are those that are read

A block resolves the references of which it is made one after the other, and a reading does too: so
the layout of the block is made of the slots that stand for the nodes that are read, and its bound
is the one that is read, as far as it is known. Folded arithmetic does not matter for either.

* `Composes`: a layout and a bound are those of a block with these parts.
* `tracks_compileBody`: the body of any block.
-/

namespace Wireform.Meaning

open Session

variable {w : Source} {owner : Node} {s t u : Session} {g g' g'' : Legend} {α β γ δ : Type}

/-! ### More steps that track a reading -/

namespace Tracks

variable {x : Source → ℕ → Reading β} {y : Compile α} {rel : β → α → Session → Legend → Prop}

/-- A step for which nothing is read. -/
theorem step {z : Compile γ} {c : δ} {rel' : δ → γ → Session → Legend → Prop} {f : γ → Compile α}
    (h : Tracks w owner s g (fun _ _ => Pure.pure c) z rel')
    (hf : ∀ a t g', Continues owner s g t g' → w.Follows t g' → rel' c a t g' →
      Tracks w owner t g' x (f a) rel) : Tracks w owner s g x (z >>= f) rel := by
  have hfed : ∀ k, Fed (fun _ : ℕ => (Pure.pure c : Reading δ)) k :=
    fun k => (Reads.pure c k).answers.fed
  have hfirst : ∀ d t k, z s = .ok d t → g.made owner = some k →
      ∃ g', g'.made owner = some k ∧ Continues owner s g t g' ∧ w.Follows t g' ∧ rel' c d t g' := by
    intro d t k hrun hk
    obtain ⟨c', k', g', hreads, hk', hcont, hfollows, hd⟩ := h.gives d t k hrun hk (hfed k)
    obtain ⟨_, hreads⟩ := hfollows.of_under hreads
    obtain ⟨rfl, rfl⟩ := EStateM.Result.ok.inj (hreads _ le_rfl)
    exact ⟨g', hk', hcont, hfollows, hd⟩
  constructor
  case gives =>
    intro a u k hrun hk hfed
    obtain ⟨d, t, hrun', hlast⟩ := exists_of_bind_ok hrun
    obtain ⟨g', hk', hcont, hfollows, hd⟩ := hfirst d t k hrun' hk
    obtain ⟨b, k'', g'', hreads, hk'', hcont', hrest⟩ :=
      (hf d t g' hcont hfollows hd).gives a u k hlast hk' hfed
    exact ⟨b, k'', g'', hreads, hk'', hcont.trans hcont', hrest⟩
  case stops =>
    intro stop u k hrun hk hanswered hanswers
    cases hrun' : z s with
    | error stop' t =>
      obtain ⟨rfl, -⟩ := EStateM.Result.error.inj ((bind_of_error hrun').symm.trans hrun)
      exact h.stops _ t k hrun' hk hanswered (Reads.pure c k).answers
    | ok d t =>
      obtain ⟨g', hk', hcont, hfollows, hd⟩ := hfirst d t k hrun' hk
      exact (hf d t g' hcont hfollows hd).stops stop u k ((bind_of_ok hrun').symm.trans hrun) hk'
        hanswered hanswers

theorem orFail_bind {e : Except CompileError δ} {f : δ → Compile α}
    (herror : ∀ error, e = .error error → Tracks w owner s g x (.fail error : Compile α) rel)
    (h : ∀ d, e = .ok d → Tracks w owner s g x (f d) rel) :
    Tracks w owner s g x (Session.orFail e >>= f) rel := by
  cases e with
  | error error => exact ⟨nofun, (herror error rfl).stops⟩
  | ok d => exact ⟨(h d rfl).gives, (h d rfl).stops⟩

/-- What is read may be put into another form. -/
theorem map {f : β → δ} {rel' : δ → α → Session → Legend → Prop} (h : Tracks w owner s g x y rel)
    (hrel : ∀ b a t g', Continues owner s g t g' → rel b a t g' → rel' (f b) a t g') :
    Tracks w owner s g (fun w levels => x w levels >>= fun b => Pure.pure (f b)) y rel' := by
  have hmapped : Tracks w owner s g (fun w levels => x w levels >>= fun b => Pure.pure (f b))
      (y >>= Pure.pure) rel' :=
    h.bind fun b a t g' hcont hfollows hb =>
      Tracks.pure hcont.advances.valid hfollows (hrel b a t g' hcont hb)
  rwa [bind_pure] at hmapped

/-- A further step for which nothing is read. -/
theorem andThen {f : α → Compile γ} {rel' : β → γ → Session → Legend → Prop}
    (h : Tracks w owner s g x y rel)
    (hf : ∀ b a t g', Continues owner s g t g' → w.Follows t g' → rel b a t g' →
      Tracks w owner t g' (fun _ _ => Pure.pure b) (f a) rel') :
        Tracks w owner s g x (y >>= f) rel' := by
  have hboth := h.bind (f := fun _ _ b => Pure.pure b) hf
  simpa only [bind_pure] using hboth

/-- What is computed may be put into another form. -/
theorem then_pure {f : α → γ} {rel' : β → γ → Session → Legend → Prop}
    (h : Tracks w owner s g x y rel)
    (hrel : ∀ b a t g', w.Follows t g' → rel b a t g' → rel' b (f a) t g') :
    Tracks w owner s g x (y >>= fun a => Pure.pure (f a)) rel' :=
  h.andThen fun b a t g' hcont hfollows hb =>
    .pure hcont.advances.valid hfollows (hrel b a t g' hfollows hb)

end Tracks

/-! ### Slots for nodes -/

/-- Slots stand for nodes. -/
def Gathers (nodes : List Node) (ids : List TypeId) (s : Session) (g : Legend) : Prop :=
  nodes = ids.map g.node ∧ ∀ id ∈ ids, id.index < s.arena.size

theorem Gathers.nil : Gathers [] [] s g := ⟨rfl, fun _ h => nomatch h⟩

theorem Gathers.cons {node : Node} {nodes : List Node} {id : TypeId} {ids : List TypeId}
    (h : Stands node id s g) (hrest : Gathers nodes ids s g) :
    Gathers (node :: nodes) (id :: ids) s g :=
  ⟨List.cons_eq_cons.2 ⟨h.2.symm, hrest.1⟩, List.forall_mem_cons.2 ⟨h.1, hrest.2⟩⟩

/-! ### The bound of a block -/

theorem Source.HasParts.size {node : Node} {block : Block} {parts : List Node}
    (h : w.HasParts node block parts) (hblock : node.block? = some block) :
    ∃ enough, ∀ levels ≥ enough,
      (w.oracle (levels + 1)).size node =
        blockBound block.bindings block.body (parts.map (w.oracle levels).size) := by
  obtain ⟨k, enough, h⟩ := h
  refine ⟨enough, fun levels hlevels => ?_⟩
  have hparts := h levels hlevels
  cases node with
  | keyed home key body bindings | loose owner position home body bindings =>
    simp only [Source.oracle, Source.sizeStep, hblock, hparts]
  | _ => cases hblock

/-- A bound that is sketched from those of the parts is one of the node. -/
theorem Source.HasParts.bounds {node : Node} {block : Block} {parts : List Node} {size : Size}
    (h : w.HasParts node block parts) (hblock : node.block? = some block)
    (hsize : w.Sketched size fun o => blockBound block.bindings block.body (parts.map o.size)) :
    w.Bounds node size := by
  obtain ⟨enough, h⟩ := h.size hblock
  obtain ⟨more, hsize⟩ := hsize
  refine ⟨max enough more + 1, fun levels hlevels => ?_⟩
  obtain ⟨levels, rfl⟩ := Nat.exists_eq_add_of_le' (Nat.le_trans (Nat.le_add_left 1 _) hlevels)
  have hle := Nat.le_of_succ_le_succ hlevels
  dsimp only
  rw [h levels ((le_max_left _ _).trans hle)]
  exact hsize levels ((le_max_right _ _).trans hle)

theorem layout_standard {options : Options} {id : TypeId} {type : CompiledType}
    (h : (initial options).arena.get? id = some type) : ∃ p, type.layout = .primitive p := by
  unfold Arena.get? at h
  have hmem := Array.mem_of_getElem? (Option.join_eq_some_iff.1 h)
  rw [initial, List.mem_toArray, List.mem_map] at hmem
  obtain ⟨⟨name, p⟩, -, heq⟩ := hmem
  obtain rfl := Option.some.inj heq
  exact ⟨p, rfl⟩

theorem builtinLayout?_ne {builtin : Builtin} {arguments : List Operand} {ids : List TypeId}
    {layout : Layout} (h : builtinLayout? builtin arguments ids = some layout) :
    (∀ body, layout ≠ .struct body) ∧ (∀ target, layout ≠ .synonym target) ∧
    ∀ e, layout ≠ .enum e := by
  unfold builtinLayout? at h
  split at h
  · obtain ⟨_, -, rfl⟩ := Option.map_eq_some_iff.1 h
    exact ⟨nofun, nofun, nofun⟩
  · obtain rfl := Option.some.inj h
    exact ⟨nofun, nofun, nofun⟩
  · obtain ⟨_, -, rfl⟩ := Option.map_eq_some_iff.1 h
    exact ⟨nofun, nofun, nofun⟩
  · obtain ⟨_, -, rfl⟩ := Option.map_eq_some_iff.1 h
    exact ⟨nofun, nofun, nofun⟩
  · obtain ⟨_, -, rfl⟩ := Option.map_eq_some_iff.1 h
    exact ⟨nofun, nofun, nofun⟩
  · cases h

/-- Only a synonym has the layout of one. -/
theorem Source.Laid.of_synonym {node : Node} {layout : Layout} {target : TypeId}
    (h : w.Laid s g node layout) (hlayout : layout = .synonym target) :
    ∃ home bindings r, node.block? = some ⟨home, .definition (.synonym r), bindings⟩ ∧
      (w.Under s g fun w =>
        w.HasParts node ⟨home, .definition (.synonym r), bindings⟩ [g.node target]) ∧
      target.index < s.arena.size := by
  cases h with
  | standard hget =>
    obtain ⟨p, hp⟩ := layout_standard hget
    rw [hp] at hlayout
    cases hlayout
  | emptyTuple => cases hlayout
  | array => cases hlayout
  | @block _ block ids _ hblock hparts hids hlays =>
    subst hlayout
    obtain ⟨home, body, bindings⟩ := block
    rcases body with (_ | _ | r | _) | ⟨builtin, arguments⟩
    · cases hlays
    · obtain ⟨_, _, _, -, -, heq⟩ := hlays
      cases heq
    · obtain ⟨id, rfl, heq⟩ := hlays
      cases heq
      exact ⟨home, bindings, r, hblock, hparts, hids _ (List.mem_singleton_self _)⟩
    · cases hlays
    · exact absurd rfl ((builtinLayout?_ne hlays).2.1 target)

/-- Only an empty struct has the layout of one. -/
theorem Source.Laid.of_empty {node : Node} {layout : Layout} {body : StructLayout}
    (h : w.Laid s g node layout) (hlayout : layout = .struct body) (hempty : body.shape = .empty) :
    ∃ home bindings found parts,
      node.block? = some ⟨home, .definition (.struct found), bindings⟩ ∧
      (w.Under s g fun w => w.HasParts node ⟨home, .definition (.struct found), bindings⟩ parts) ∧
      found.shape = .empty := by
  cases h with
  | standard hget =>
    obtain ⟨p, hp⟩ := layout_standard hget
    rw [hp] at hlayout
    cases hlayout
  | emptyTuple =>
    obtain rfl := Layout.struct.inj hlayout
    cases hempty
  | array => cases hlayout
  | @block _ block ids _ hblock hparts hids hlays =>
    subst hlayout
    obtain ⟨home, found, bindings⟩ := block
    rcases found with (found | _ | r | _) | ⟨builtin, arguments⟩
    · have heq : body = structLayout s.options bindings found ids := Layout.struct.inj hlays
      refine ⟨home, bindings, found, _, hblock, hparts, ?_⟩
      rw [heq, structLayout] at hempty
      split at hempty
      · assumption
      · exact hempty
    · obtain ⟨_, _, _, -, -, heq⟩ := hlays
      cases heq
    · obtain ⟨_, -, heq⟩ := hlays
      cases heq
    · cases hlays
    · exact absurd rfl ((builtinLayout?_ne hlays).1 body)

/-- A slot in which there is an empty struct stands for a node without bytes. -/
theorem Source.Follows.bounds_of_empty (h : w.Follows s g) {id : TypeId} {body : StructLayout}
    (hbehind : structBehind? s.arena id = some body) (hempty : body.shape = .empty) :
    w.Under s g fun w => w.Bounds (g.node id) .zero := by
  -- the way to the struct is one of synonyms
  have hpeel : ∀ steps id type, s.arena.peelWithin? steps id = some type →
      type.layout = .struct body → w.Under s g fun w => w.Bounds (g.node id) .zero := by
    intro steps
    induction steps with
    | zero =>
      intro id type hpeel
      cases hpeel
    | succ steps ih =>
      intro id type hpeel hlayout
      rw [Arena.peelWithin?] at hpeel
      split at hpeel
      · cases hpeel
      next found hfound =>
      have hlaid := (h.describes id found hfound).laid
      split at hpeel
      · next target htarget =>
        obtain ⟨home, bindings, r, hblock, hparts, -⟩ := hlaid.of_synonym htarget
        exact hparts.map₂ (ih target type hpeel hlayout)
          fun _ hparts hbounds => hparts.bounds hblock hbounds
      · obtain rfl := Option.some.inj hpeel
        obtain ⟨home, bindings, body', parts, hblock, hparts, hshape⟩ :=
          hlaid.of_empty hlayout hempty
        refine hparts.map fun _ hparts => hparts.bounds hblock ⟨0, fun levels _ => Or.inr ?_⟩
        simp only [blockBound, if_pos hshape]
  unfold structBehind? at hbehind
  split at hbehind
  · next body' hmap =>
    obtain rfl := Option.some.inj hbehind
    obtain ⟨type, hpeel', hlayout⟩ := Option.map_eq_some_iff.1 hmap
    exact hpeel _ id type hpeel' hlayout
  · cases hbehind

/-! ### What blocks are made of -/

/-- A layout and a bound are those of a block with these parts. -/
def Composes (w : Source) (bindings : Bindings) (body : BlockBody) (nodes : List Node)
    (r : Layout × Size) (t : Session) (g : Legend) : Prop :=
  ∃ ids, Gathers nodes ids t g ∧ Lays t g bindings body ids r.1 ∧ Formed bindings body ∧
    w.Under t g fun w => w.Sketched r.2 fun o => blockBound bindings body (nodes.map o.size)

section Blocks

variable {resolve : Resolver} {scope : ScopeId} {b : Bindings} {place : Node}

theorem nullable_folded (b : Bindings) (r : TypeRef) :
    (r.folded.substitute b.folded).nullable = (r.substitute b).nullable := by
  rw [← TypeRef.folded_nullable, TypeRef.folded_substitute, TypeRef.folded_nullable]

/-- The parts of a block that has these references. -/
noncomputable def readParts (w : Source) (owner place : Node) (b : Bindings) (levels : ℕ)
    (references : List TypeRef) :
    Reading (List Node) :=
  references.mapM fun r => (w.oracle levels).resolve owner place r b

theorem readParts_nil (w : Source) (owner place : Node) (b : Bindings) (levels : ℕ) :
    readParts w owner place b levels [] = pure [] := List.mapM_nil

theorem readParts_cons (w : Source) (owner place : Node) (b : Bindings) (levels : ℕ) (r : TypeRef)
    (rest : List TypeRef) :
    readParts w owner place b levels (r :: rest) = (do
      let node ← (w.oracle levels).resolve owner place r b
      let nodes ← readParts w owner place b levels rest
      return node :: nodes) := List.mapM_cons

/-! ### Structs -/

theorem placed_of_fieldPlace {shape : StructShape} {key : Option String} {position : ℕ}
    {found : FieldPlace × ℕ} (h : fieldPlace shape key position = .ok found) :
    shape = .tuple ∨ key.isSome := by
  unfold fieldPlace at h
  split at h
  · exact Or.inl rfl
  · exact Or.inr rfl
  · cases h

theorem exists_fieldPlace {shape : StructShape} {key : Option String}
    (h : shape = .tuple ∨ key.isSome) (position : ℕ) :
    ∃ found, fieldPlace shape key position = .ok found := by
  rcases h with rfl | hkey
  · exact ⟨_, rfl⟩
  · obtain ⟨name, rfl⟩ := Option.isSome_iff_exists.1 hkey
    cases shape <;> exact ⟨_, rfl⟩

/-- A field has a place where all fields keep the rules. -/
theorem tracks_unplaced {α β : Type} {x : Source → ℕ → Reading β}
    {rel : β → α → Session → Legend → Prop} {shape : StructShape} {key : Option String}
    {position : ℕ} {error : CompileError} (hplaced : w.Answered → shape = .tuple ∨ key.isSome)
    (h : fieldPlace shape key position = .error error) :
    Tracks w owner s g x (.fail error : Compile α) rel := by
  refine .excluded hplaced fun hplaced => ?_
  obtain ⟨found, hfound⟩ := exists_fieldPlace hplaced position
  rw [hfound] at h
  cases h

theorem placed_folded (shape : StructShape) (fields : List Field) :
    (∀ field ∈ foldedFields fields, Placed shape field) ↔ ∀ field ∈ fields, Placed shape field := by
  induction fields with
  | nil => simp only [foldedFields]
  | cons field rest ih =>
    simp only [foldedFields, List.forall_mem_cons, ih]
    cases field <;> simp only [foldedField, Placed]

/-- A struct as far as it has been compiled, after further fields whose types are in given slots. -/
structure Extended (w : Source) (b : Bindings) (shape : StructShape) (p : PartialStruct)
    (fields : List Field) (total : Oracle → Size) (nodes : List Node) (ids : List TypeId)
    (p' : PartialStruct) : Prop where
  laid : p'.fields =
    (layFields w.options.strictConstants shape b p.flags p.position fields ids).reverse ++ p.fields
  counted : p'.flags = p.flags + flags b fields
  placed : ∀ field ∈ fields, Placed shape field
  bound : w.Sketched p'.maxSize fun o => (nodes.map o.size).foldl (· + ·) (total o)

namespace Extended

variable {shape : StructShape} {p p' : PartialStruct} {fields : List Field} {total : Oracle → Size}
  {nodes : List Node} {node : Node} {ids : List TypeId} {id : TypeId} {size : Size} {type : TypeRef}
  {found : FieldPlace} {position : ℕ} {value : Json} {key : Option String}

theorem constant (h : Extended w b shape
      ⟨⟨.detached, .constant id value w.options.strictConstants⟩ :: p.fields, size, p.flags,
        p.position⟩ fields
      (fun o => total o + o.size node) nodes ids p') :
    Extended w b shape p (.constant type value :: fields) total (node :: nodes) (id :: ids) p' where
  laid := by
    rw [h.laid, layFields, List.reverse_cons, List.append_assoc]
    rfl
  counted := by rw [h.counted, flags, flags, List.countP_cons_of_neg (by simp)]
  placed := List.forall_mem_cons.2 ⟨trivial, h.placed⟩
  bound := h.bound

theorem literal (hposition : fieldPlace shape key p.position = .ok (found, position))
    (h : Extended w b shape ⟨⟨found, .literal value⟩ :: p.fields, p.maxSize, p.flags, position⟩
      fields total nodes ids
      p') : Extended w b shape p (.literal key value :: fields) total nodes ids p' where
  laid := by
    rw [h.laid, layFields, hposition, List.reverse_cons, List.append_assoc]
    rfl
  counted := by rw [h.counted, flags, flags, List.countP_cons_of_neg (by simp)]
  placed := List.forall_mem_cons.2 ⟨placed_of_fieldPlace hposition, h.placed⟩
  bound := h.bound

theorem typed (hposition : fieldPlace shape key p.position = .ok (found, position))
    (h : Extended w b shape
      ⟨⟨found, .value id (if (type.substitute b).nullable then some p.flags else none)⟩ :: p.fields,
        size,
        if (type.substitute b).nullable then p.flags + 1 else p.flags, position⟩ fields
      (fun o => total o + o.size node) nodes ids p') :
    Extended w b shape p (.typed key type :: fields) total (node :: nodes) (id :: ids) p' where
  laid := by
    rw [h.laid, layFields, hposition, List.reverse_cons, List.append_assoc]
    rfl
  counted := by
    rw [h.counted, flags, flags, List.countP_cons]
    dsimp only
    split <;> omega
  placed := List.forall_mem_cons.2 ⟨placed_of_fieldPlace hposition, h.placed⟩
  bound := h.bound

end Extended

theorem tracks_compileFields (hr : Tracked w resolve) (hs : s.Valid) (h : w.Follows s g)
    (hscope : scope.index < s.scopes.size) (hplace : g.place scope = place) (shape : StructShape)
    (p : PartialStruct) {total : Oracle → Size}
    (hp : w.Under s g fun w => w.Sketched p.maxSize total) (fields : List Field)
    (hplaced : w.Answered → ∀ field ∈ fields, Placed shape field) :
    Tracks w owner s g
      (fun w levels => readParts w owner place b.folded levels
        ((foldedFields fields).filterMap Field.type?))
      (compileFields resolve scope b shape p fields)
        fun nodes p' t g' => ∃ ids, Gathers nodes ids t g' ∧ w.Under t g'
          fun w => Extended w b.folded shape p (foldedFields fields) total nodes ids p' := by
  induction fields generalizing s g p total with
  | nil =>
    simp only [foldedFields, List.filterMap_nil, readParts_nil]
    exact .pure hs h ⟨[], .nil, hp.map fun _ hp => ⟨rfl, rfl, List.forall_mem_nil _, hp⟩⟩
  | cons field rest ih =>
    have hrest := fun hanswered => (List.forall_mem_cons.1 (hplaced hanswered)).2
    unfold compileFields
    cases field with
    | constant type value =>
      simp only [foldedFields, foldedField, List.filterMap_cons, Field.type?, readParts_cons,
        compileField, bind_assoc]
      have hfirst := hr owner s g scope type b hs h hscope
      rw [hplace] at hfirst
      refine hfirst.bind fun node id t g' hcont hfollows hnode => ?_
      refine Tracks.maxSize_bind (Tracks.get_bind ?_)
      simp only [pure_bind]
      have hbound := (hcont.agrees.under hp).map₂ (hfollows.bounds id) fun _ => Source.Sketched.add
      rw [hnode.2] at hbound
      refine (ih hcont.advances.valid hfollows (hcont.advances.scope_lt hscope)
        ((hcont.place scope hscope).trans hplace) _ hbound hrest).map ?_
      rintro nodes p' u g'' hcont' ⟨ids, hgathers, hp'⟩
      rw [hfollows.options] at hp'
      exact ⟨id :: ids, hgathers.cons (hnode.later hcont'.agrees),
        fun admits hcovers => (hp' admits hcovers).constant⟩
    | literal key value =>
      simp only [foldedFields, foldedField, List.filterMap_cons, Field.type?,
        compileField, bind_assoc]
      refine Tracks.orFail_bind
        (fun error => tracks_unplaced fun hanswered => hplaced hanswered _ List.mem_cons_self) ?_
      rintro ⟨found, position⟩ hposition
      simp only [pure_bind]
      refine (ih hs h hscope hplace ⟨⟨found, .literal value⟩ :: p.fields, p.maxSize, p.flags,
        position⟩ hp hrest).mono ?_
      rintro nodes p' u g'' - ⟨ids, hgathers, hp'⟩
      exact ⟨ids, hgathers, hp'.map fun _ hp' => hp'.literal hposition⟩
    | typed key type =>
      simp only [foldedFields, foldedField, List.filterMap_cons, Field.type?, readParts_cons,
        compileField, bind_assoc]
      refine Tracks.orFail_bind
        (fun error => tracks_unplaced fun hanswered => hplaced hanswered _ List.mem_cons_self) ?_
      rintro ⟨found, position⟩ hposition
      have hfirst := hr owner s g scope type b hs h hscope
      rw [hplace] at hfirst
      refine hfirst.bind fun node id t g' hcont hfollows hnode => ?_
      refine Tracks.maxSize_bind ?_
      simp only [pure_bind]
      have hbound := (hcont.agrees.under hp).map₂ (hfollows.bounds id) fun _ => Source.Sketched.add
      rw [hnode.2] at hbound
      refine (ih hcont.advances.valid hfollows (hcont.advances.scope_lt hscope)
        ((hcont.place scope hscope).trans hplace) _ hbound hrest).map ?_
      rintro nodes p' u g'' hcont' ⟨ids, hgathers, hp'⟩
      rw [← nullable_folded b type] at hp'
      exact ⟨id :: ids, hgathers.cons (hnode.later hcont'.agrees),
        hp'.map fun _ hp' => hp'.typed hposition⟩

theorem tracks_compileStruct (hr : Tracked w resolve) (hs : s.Valid) (h : w.Follows s g)
    (hscope : scope.index < s.scopes.size) (hplace : g.place scope = place) (body : StructBody)
    (hformed : w.Answered → Formed b.folded (.definition (.struct (foldedBody body)))) :
    Tracks w owner s g
      (fun v levels => readParts v owner place b.folded levels
        ((BlockBody.definition (.struct (foldedBody body))).references w.options))
      (compileStruct resolve scope body b)
      (Composes w b.folded (.definition (.struct (foldedBody body)))) := by
  obtain ⟨shape, fields, locals⟩ := body
  have hfolded : foldedBody ⟨shape, fields, locals⟩ = ⟨shape, foldedFields fields, locals⟩ := by
    simp only [foldedBody]
  rw [hfolded] at hformed ⊢
  by_cases hempty : shape = .empty
  · subst hempty
    simp only [BlockBody.references, if_pos, readParts_nil]
    unfold compileStruct
    refine .pure hs h ⟨[], .nil, ?_, Or.inl rfl, fun _ _ => ⟨0, fun _ _ => Or.inr ?_⟩⟩
    · simp only [Lays, structLayout, if_pos]
    · simp only [blockBound, if_pos]
  · have hrun : compileStruct resolve scope ⟨shape, fields, locals⟩ b = (do
        let p ← compileFields resolve scope b shape ⟨[], .zero, 0, 0⟩ fields
        return (.struct ⟨shape, bitmapLength p.flags, p.fields.reverse⟩,
          p.maxSize + .bounded (bitmapLength p.flags))) := by
      cases shape with
      | empty => exact absurd rfl hempty
      | object | tuple => rfl
    rw [hrun]
    simp only [BlockBody.references, if_neg hempty]
    have hplaced : w.Answered → ∀ field ∈ fields, Placed shape field := fun hanswered =>
      (placed_folded shape fields).1 ((hformed hanswered).resolve_left hempty)
    have hfields : Tracks w owner s g _
        (compileFields resolve scope b shape ⟨[], .zero, 0, 0⟩ fields) _ :=
      tracks_compileFields hr hs h hscope hplace shape ⟨[], .zero, 0, 0⟩
        (fun _ _ => .refl .zero) fields hplaced
    refine hfields.then_pure ?_
    rintro nodes p t g' hfollows ⟨ids, hgathers, hunder⟩
    have hp := hfollows.of_under hunder
    have hflags : p.flags = flags b.folded (foldedFields fields) :=
      hp.counted.trans (Nat.zero_add _)
    refine ⟨ids, hgathers, ?_, Or.inr hp.placed, ?_⟩
    · simp only [Lays, structLayout, if_neg hempty, hp.laid, hflags, hfollows.options,
        List.append_nil, List.reverse_reverse]
    · simp only [blockBound, if_neg hempty, hflags]
      exact hunder.map fun _ hp => hp.bound.add (.refl _)

/-! ### Enums -/

theorem named_folded (name : String) : (TypeRef.named name).folded = .named name := by
  simp only [TypeRef.named, TypeRef.ofKind, TypeRef.folded, foldedArguments]

theorem bounds_emptyTuple (w : Source) : w.Bounds .emptyTuple .zero := by
  refine ⟨1, fun levels hlevels => ?_⟩
  obtain ⟨levels, rfl⟩ := Nat.exists_eq_add_of_le' hlevels
  exact .refl .zero

/-- The empty tuple needs nothing to be read. -/
theorem tracks_sharedEmptyTuple (hs : s.Valid) (h : w.Follows s g) :
    Tracks w owner s g (fun _ _ => pure ()) sharedEmptyTuple
      fun _ id t g' => Stands .emptyTuple id t g' := by
  cases hknown : s.emptyTuple with
  | some id =>
    have hrun : sharedEmptyTuple s = .ok id s := by
      rw [sharedEmptyTuple, get_bind, hknown]
      rfl
    refine .of_gives (fun stop t herror => nomatch hrun.symm.trans herror) ?_
    rintro a t k hok hk -
    obtain ⟨rfl, rfl⟩ := EStateM.Result.ok.inj (hrun.symm.trans hok)
    obtain ⟨type, htype, -⟩ := hs.emptyTuple id hknown
    have hlt := s.arena.lt_size_of_get? htype
    exact ⟨(), k, g, fun _ _ => .pure () k, hk, .refl hs g, h, hlt,
      (h.labels.emptyTuple id hlt).2 hknown⟩
  | none =>
    let type : CompiledType := ⟨"()", .zero, .struct ⟨.tuple, 0, []⟩, none⟩
    let t : Session := { s with arena := (s.arena.push type).2, emptyTuple := some ⟨s.arena.size⟩ }
    have hrun : sharedEmptyTuple s = .ok ⟨s.arena.size⟩ t := by
      rw [sharedEmptyTuple, get_bind, hknown]
      rfl
    refine .of_gives (fun stop t herror => nomatch hrun.symm.trans herror) ?_
    rintro a t' k hok hk -
    obtain ⟨rfl, rfl⟩ := EStateM.Result.ok.inj (hrun.symm.trans hok)
    have hadvances : Advances s t := ((sound_sharedEmptyTuple hs).of_ok hrun).1
    have hcont : Continues owner s g t (g.put ⟨s.arena.size⟩ .emptyTuple) :=
      .put hadvances (Arena.size_push _ _) nofun
    have hlt : s.arena.size < t.arena.size :=
      (Nat.lt_succ_self _).trans_eq (Arena.size_push s.arena type).symm
    refine ⟨(), k, g.put ⟨s.arena.size⟩ .emptyTuple, fun _ _ => .pure () k, hk, hcont, ?_,
      hlt, g.put_self _ _⟩
    refine h.push hs hcont.agrees rfl rfl (fun _ k hk => ⟨k, le_rfl, hk⟩) (fun _ => Or.inl)
      (fun id hid => ?_) ?_ ?_ ?_
    · rw [hknown]
      refine ⟨fun heq => ?_, fun heq => nomatch heq⟩
      exact absurd (congrArg TypeId.index (Option.some.inj heq)) (Nat.ne_of_gt hid)
    · refine ⟨rfl, fun old hold => ?_, fun hblock => ?_,
        fun owner position element size nullable hnode => ?_, ?_⟩
      · rw [Legend.put_self]
        intro heq
        have := (h.labels.emptyTuple old hold).1 heq
        rw [hknown] at this
        cases this
      · rw [Legend.put_self] at hblock
        cases hblock
      · rw [Legend.put_self] at hnode
        cases hnode
      · rw [Legend.put_self]
        exact iff_of_true rfl rfl
    · rw [Legend.put_self]
      exact ⟨nofun, fun _ _ => bounds_emptyTuple _, .emptyTuple, nofun, nofun⟩
    · rw [Legend.put_self]
      exact nofun

theorem tracks_variantLayout (hs : s.Valid) (h : w.Follows s g) (shape : EnumShape)
    (target : String) (entry : EnumEntry) (raw : TypeId) :
    Tracks w owner s g (fun _ _ => pure ()) (variantLayout shape target entry raw)
      fun _ variant t g' =>
      LaysVariant t g' shape entry raw variant ∧
        w.Under t g'
          fun w => w.Sketched (t.arena.maxSize variant.payload) fun o => o.size (g.node raw) := by
  unfold variantLayout
  refine Tracks.get_bind ?_
  cases shape with
  | object => exact .pure hs h ⟨⟨rfl, rfl, Or.inl rfl⟩, h.bounds raw⟩
  | tuple =>
    dsimp only
    split
    · next hany =>
      obtain ⟨body, hbehind, hempty⟩ := (Option.any_eq_true _ _).1 hany
      rw [decide_eq_true_iff] at hempty
      refine (tracks_sharedEmptyTuple hs h).step fun id t g' hcont hfollows hid => ?_
      refine .pure hcont.advances.valid hfollows
        ⟨⟨rfl, rfl, Or.inr ⟨rfl, hid.1, hid.2, body, ?_, hempty⟩⟩, ?_⟩
      · exact structBehind?_of_extends hcont.agrees.arena hbehind
      · have hzero : (t.arena.maxSize id).Sketches .zero := by
          have hbounds := hfollows.of_under (hfollows.bounds id)
          rw [hid.2] at hbounds
          exact hbounds.trans_left (bounds_emptyTuple w)
        exact (hcont.agrees.under (h.bounds_of_empty hbehind hempty)).map
          fun _ => Source.Sketched.trans hzero
    · exact .pure hs h ⟨⟨rfl, rfl, Or.inl rfl⟩, h.bounds raw⟩

theorem tracks_compileVariants (hr : Tracked w resolve) (hs : s.Valid) (h : w.Follows s g)
    (hscope : scope.index < s.scopes.size) (hplace : g.place scope = place) (shape : EnumShape)
    (target : String) {greatest : Size} {total : Oracle → Size}
    (hgreatest : w.Under s g fun w => w.Sketched greatest total) (entries : List EnumEntry) :
    Tracks w owner s g
      (fun w levels => readParts w owner place b.folded levels
        (entries.map fun entry => .named entry.variant))
      (compileVariants resolve scope b shape target greatest entries) fun nodes r t g' => ∃ ids,
        Gathers nodes ids t g' ∧ LaysVariants t g' shape entries ids r.1 ∧
          w.Under t g'
            fun w => w.Sketched r.2 fun o => (nodes.map o.size).foldl Size.max (total o) := by
  induction entries generalizing s g greatest total with
  | nil =>
    simp only [List.map_nil, readParts_nil]
    exact .pure hs h ⟨[], .nil, .nil, hgreatest⟩
  | cons entry rest ih =>
    simp only [List.map_cons, readParts_cons]
    unfold compileVariants
    have hfirst := hr owner s g scope (.named entry.variant) b hs h hscope
    rw [hplace, named_folded] at hfirst
    refine hfirst.bind fun node raw t g' hcont hfollows hnode => ?_
    refine (tracks_variantLayout hcont.advances.valid hfollows shape target entry raw).step
      fun variant u g'' hcont' hfollows' hvariant => ?_
    refine Tracks.maxSize_bind ?_
    have hcont'' := hcont.trans hcont'
    have hsize := hvariant.2
    rw [hnode.2] at hsize
    refine (ih hcont''.advances.valid hfollows' (hcont''.advances.scope_lt hscope)
      ((hcont''.place scope hscope).trans hplace)
      ((hcont''.agrees.under hgreatest).map₂ hsize fun _ => Source.Sketched.max)).bind
      fun nodes r v g₃ hlast hfollows'' hids => ?_
    obtain ⟨ids, hgathers, hvariants, hbound⟩ := hids
    refine .pure hlast.advances.valid hfollows'' ⟨raw :: ids, ?_, ?_, hbound⟩
    · exact hgathers.cons (hnode.later (hcont'.trans hlast).agrees)
    · exact .cons (hlast.agrees.laysVariant hvariant.1) hvariants

theorem tracks_compileEnum (hr : Tracked w resolve) (hs : s.Valid) (h : w.Follows s g)
    (hscope : scope.index < s.scopes.size) (hplace : g.place scope = place) (body : EnumBody) :
    Tracks w owner s g
      (fun v levels => readParts v owner place b.folded levels
        ((BlockBody.definition (Definition.enum body).folded).references w.options))
      (compileEnum resolve scope body b)
        (Composes w b.folded (.definition (Definition.enum body).folded)) := by
  simp only [Definition.folded, BlockBody.references, readParts_cons]
  unfold compileEnum
  refine Tracks.get_bind ?_
  have htag : (body.tagType.map TypeRef.folded).getD (.named w.options.defaultTagType) =
      (body.tagType.getD (.named s.options.defaultTagType)).folded := by
    rw [h.options]
    cases body.tagType with
    | none => exact (named_folded _).symm
    | some type => rfl
  have hfirst :=
    hr owner s g scope (body.tagType.getD (.named s.options.defaultTagType)) b hs h hscope
  rw [hplace, ← htag] at hfirst
  refine hfirst.bind fun node tag t g' hcont hfollows hnode => ?_
  have hvariants : Tracks w owner t g' _
      (compileVariants resolve scope b body.shape (body.target.getD s.options.defaultTagField) .zero
        body.entries) _ :=
    tracks_compileVariants hr hcont.advances.valid hfollows (hcont.advances.scope_lt hscope)
      ((hcont.place scope hscope).trans hplace) body.shape _ (fun _ _ => .refl .zero) body.entries
  refine hvariants.bind fun nodes r u g'' hcont' hfollows' hids => ?_
  obtain ⟨ids, hgathers, hlays, hbound⟩ := hids
  refine Tracks.maxSize_bind
    (.pure hcont'.advances.valid hfollows' ⟨tag :: ids, ?_, ?_, trivial, ?_⟩)
  · exact hgathers.cons (hnode.later hcont'.agrees)
  · refine ⟨tag, ids, r.1, rfl, hlays, ?_⟩
    rw [(hcont.trans hcont').agrees.options]
  · have htagBound := hfollows'.bounds tag
    rw [(hnode.later hcont'.agrees).2] at htagBound
    exact htagBound.map₂ hbound fun _ => Source.Sketched.add

/-! ### Builtin templates -/

theorem toSize_folded (operand : Operand) (subject : String) :
    operand.folded.toSize subject = operand.toSize subject := by
  cases operand <;> rfl

theorem tracks_typeArgument (hr : Tracked w resolve) (hs : s.Valid) (h : w.Follows s g)
    (hscope : scope.index < s.scopes.size) (hplace : g.place scope = place)
    (builtin : Builtin) (r : TypeRef) :
    Tracks w owner s g (fun w levels => (w.oracle levels).resolve owner place r.folded [])
      (typeArgument resolve scope builtin (.type r)) Stands := by
  rw [← hplace]
  exact hr owner s g scope r [] hs h hscope

/-- An instance of a builtin template tracks the reading of its parts, provided that its arguments
are those that the template asks for. -/
def BuiltinTracked (w : Source) (owner place : Node) (s : Session) (g : Legend)
    (resolve : Resolver) (scope : ScopeId) (builtin : Builtin) (arguments : List Operand) : Prop :=
  (w.Answered → BuiltinFormed builtin (arguments.map Operand.folded)) →
    Tracks w owner s g
      (fun v levels => readParts v owner place [] levels
        ((BlockBody.builtin builtin (arguments.map Operand.folded)).references w.options))
      (compileBuiltin resolve scope builtin arguments)
      (Composes w [] (.builtin builtin (arguments.map Operand.folded)))

theorem tracks_string (hs : s.Valid) (h : w.Follows s g) (label : String) (rest : List Operand) :
    BuiltinTracked w owner place s g resolve scope .string (.constant (.string label) :: rest) := by
  intro hformed
  simp only [compileBuiltin]
  split
  · next encoding hencoding =>
    simp only [List.map_cons, BlockBody.references, readParts_nil]
    refine .pure hs h ⟨[], .nil, ?_, ?_, fun _ _ => .unbounded _⟩
    · simp only [Lays, Operand.folded_constant, builtinLayout?, hencoding, Option.map_some]
    · simp only [Formed, Operand.folded_constant, BuiltinFormed, hencoding, Option.isSome_some]
  · next hencoding =>
    refine .excluded hformed ?_
    simp [BuiltinFormed, hencoding]

theorem tracks_bytes (hs : s.Valid) (h : w.Follows s g) (count : Operand) (rest : List Operand) :
    BuiltinTracked w owner place s g resolve scope .bytes (count :: rest) := by
  intro hformed
  simp only [List.map_cons, BuiltinFormed, toSize_folded] at hformed
  simp only [List.map_cons, BlockBody.references, readParts_nil, compileBuiltin]
  refine Tracks.orFail_bind (fun error herror => .excluded hformed (by simp [herror]))
    fun n hcount => ?_
  refine .pure hs h ⟨[], .nil, ?_, ?_, ?_⟩
  · simp only [Lays, builtinLayout?, toSize_folded, hcount]
    rfl
  · simp only [Formed, BuiltinFormed, toSize_folded, hcount]
    exact ⟨n, rfl⟩
  · simp only [blockBound, toSize_folded, hcount]
    exact fun _ _ => .refl _

section TypeArguments

variable (hr : Tracked w resolve) (hs : s.Valid) (h : w.Follows s g)
  (hscope : scope.index < s.scopes.size) (hplace : g.place scope = place) (r : TypeRef)

include hr hs h hscope hplace

theorem tracks_list : BuiltinTracked w owner place s g resolve scope .array [.type r] := by
  intro _
  simp only [List.map_cons, List.map_nil, Operand.folded_type, BlockBody.references,
    readParts_cons, readParts_nil, pure_bind, compileBuiltin]
  refine (tracks_typeArgument hr hs h hscope hplace _ r).bind
    fun node id t g' hcont hfollows hnode => ?_
  exact .pure hcont.advances.valid hfollows
    ⟨[id], Gathers.nil.cons hnode, rfl, trivial, fun _ _ => .unbounded _⟩

theorem tracks_sizedList (length : Operand) (rest : List Operand) :
    BuiltinTracked w owner place s g resolve scope .array (.type r :: length :: rest) := by
  intro hformed
  simp only [List.map_cons, Operand.folded_type, BuiltinFormed, toSize_folded] at hformed
  simp only [List.map_cons, Operand.folded_type, BlockBody.references, readParts_cons,
    readParts_nil, pure_bind, compileBuiltin]
  refine (tracks_typeArgument hr hs h hscope hplace _ r).bind
    fun node id t g' hcont hfollows hnode => ?_
  refine Tracks.orFail_bind (fun error herror => .excluded hformed (by simp [herror]))
    fun n hlength => Tracks.maxSize_bind ?_
  refine .pure hcont.advances.valid hfollows ⟨[id], Gathers.nil.cons hnode, ?_, ?_, ?_⟩
  · simp only [Lays, builtinLayout?, toSize_folded, hlength]
    rfl
  · simp only [Formed, BuiltinFormed, toSize_folded, hlength]
    exact ⟨n, rfl⟩
  · simp only [blockBound, toSize_folded, hlength, List.map_cons, List.map_nil]
    have hbound := hfollows.bounds id
    rw [hnode.2] at hbound
    exact hbound.map fun _ hbound => (Source.Sketched.refl _).add (hbound.times n)

theorem tracks_padded (size : Operand) (rest : List Operand) :
    BuiltinTracked w owner place s g resolve scope .padded (.type r :: size :: rest) := by
  intro hformed
  simp only [List.map_cons, Operand.folded_type, BuiltinFormed, toSize_folded] at hformed
  simp only [List.map_cons, Operand.folded_type, BlockBody.references, readParts_cons,
    readParts_nil, pure_bind, compileBuiltin]
  refine (tracks_typeArgument hr hs h hscope hplace _ r).bind
    fun node id t g' hcont hfollows hnode => ?_
  refine Tracks.orFail_bind (fun error herror => .excluded hformed (by simp [herror]))
    fun n hsize => ?_
  refine .pure hcont.advances.valid hfollows ⟨[id], Gathers.nil.cons hnode, ?_, ?_, ?_⟩
  · simp only [Lays, builtinLayout?, toSize_folded, hsize]
    rfl
  · simp only [Formed, BuiltinFormed, toSize_folded, hsize]
    exact ⟨n, rfl⟩
  · simp only [blockBound, toSize_folded, hsize]
    exact fun _ _ => .refl _

end TypeArguments

/-- **Any instance of a builtin template**; arguments of other kinds or in other numbers make
none. -/
theorem tracks_compileBuiltin (hr : Tracked w resolve) (hs : s.Valid) (h : w.Follows s g)
    (hscope : scope.index < s.scopes.size) (hplace : g.place scope = place) (builtin : Builtin)
    (arguments : List Operand) :
    BuiltinTracked w owner place s g resolve scope builtin arguments := by
  cases builtin with
  | string =>
    rcases arguments with _ | ⟨⟨value | label⟩ | r, rest⟩
    · exact fun hformed => .excluded hformed id
    · exact fun hformed => .excluded hformed id
    · exact tracks_string hs h label rest
    · exact fun hformed => .excluded hformed id
  | array =>
    rcases arguments with _ | ⟨value | r, _ | ⟨length, rest⟩⟩
    · exact fun hformed => .excluded hformed id
    · exact fun hformed => .excluded hformed id
    · exact fun hformed => .excluded hformed id
    · exact tracks_list hr hs h hscope hplace r
    · exact tracks_sizedList hr hs h hscope hplace r length rest
  | padded =>
    rcases arguments with _ | ⟨value | r, _ | ⟨size, rest⟩⟩
    · exact fun hformed => .excluded hformed id
    · exact fun hformed => .excluded hformed id
    · exact fun hformed => .excluded hformed id
    · exact fun hformed => .excluded hformed id
    · exact tracks_padded hr hs h hscope hplace r size rest
  | bytes =>
    rcases arguments with _ | ⟨count, rest⟩
    · exact fun hformed => .excluded hformed id
    · exact tracks_bytes hs h count rest

/-! ### Bodies of blocks -/

theorem folded_locals? (body : BlockBody) : body.folded.locals? = body.locals? := by
  rcases body with (⟨shape, fields, locals⟩ | _ | _ | _) | _ <;> rfl

theorem tracks_compileDefinition (hr : Tracked w resolve) (hs : s.Valid) (h : w.Follows s g)
    (hscope : scope.index < s.scopes.size) (hplace : g.place scope = place) (ident : String)
    (definition : Definition)
    (hformed : w.Answered → Formed b.folded (BlockBody.definition definition).folded) :
    Tracks w owner s g
      (fun v levels => readParts v owner place b.folded levels
        ((BlockBody.definition definition).folded.references w.options))
      (compileDefinition resolve scope ident definition b)
      (Composes w b.folded (BlockBody.definition definition).folded) := by
  unfold compileDefinition
  cases definition with
  | struct body => exact tracks_compileStruct hr hs h hscope hplace body hformed
  | enum body => exact tracks_compileEnum hr hs h hscope hplace body
  | synonym target =>
    have hnullable : Formed b.folded (BlockBody.definition (.synonym target)).folded ↔
        (target.substitute b).nullable = false := by
      rw [← nullable_folded b target]
      rfl
    dsimp only
    split
    · next hbroken =>
      refine .excluded hformed fun hkept => ?_
      rw [hnullable.1 hkept] at hbroken
      cases hbroken
    · next hkept =>
      simp only [BlockBody.folded, Definition.folded, BlockBody.references, readParts_cons,
        readParts_nil, pure_bind]
      have hfirst := hr owner s g scope target b hs h hscope
      rw [hplace] at hfirst
      refine hfirst.bind fun node id t g' hcont hfollows hnode => Tracks.maxSize_bind ?_
      refine .pure hcont.advances.valid hfollows
        ⟨[id], Gathers.nil.cons hnode, ⟨id, rfl, rfl⟩, hnullable.2 (Bool.eq_false_iff.2 hkept), ?_⟩
      have hbound := hfollows.bounds id
      rw [hnode.2] at hbound
      exact hbound
  | template parameters body => exact .excluded hformed id

/-- **The body of a block.** -/
theorem tracks_compileBody (hr : Tracked w resolve) (hs : s.Valid) (h : w.Follows s g)
    {home : ScopeId} {nested : Option ScopeId}
    (hscope : (nested.getD home).index < s.scopes.size) {block : Block}
    (hplace : g.place (nested.getD home) = owner.inside block) (ident : String) {body : BlockBody}
    (hbody : block.body = body.folded) (hbindings : block.bindings = b.folded)
    (hbuiltin : ∀ builtin arguments, body = .builtin builtin arguments → nested = none ∧ b = [])
    (hformed : w.Answered → Formed block.bindings block.body) :
    Tracks w owner s g (fun w levels => w.parts (w.oracle levels) owner block)
      (compileBody resolve home nested ident b body) (Composes w block.bindings block.body) := by
  have hparts :
      w.Under s g fun v => ∃ enough, ∀ levels ≥ enough, v.parts (v.oracle levels) owner block =
      readParts v owner (owner.inside block) b.folded levels
      (body.folded.references w.options) := by
    refine fun admits _ => ⟨0, fun levels _ => ?_⟩
    rw [Source.parts, hbody, hbindings, readParts]
    rfl
  refine Tracks.congr ?_ h hparts
  rw [hbody, hbindings] at hformed ⊢
  cases body with
  | definition definition =>
    exact tracks_compileDefinition hr hs h hscope hplace ident definition hformed
  | builtin builtin arguments =>
    obtain ⟨rfl, rfl⟩ := hbuiltin builtin arguments rfl
    exact tracks_compileBuiltin hr hs h hscope hplace builtin arguments hformed

end Blocks

end Wireform.Meaning
