import Wireform.Proofs.Expression.Stability
import Wireform.Proofs.Expression.Substitution
import Wireform.Proofs.Session.Persistence

/-!
# What was resolved once is resolved so again

`Recurs s x` says of a step `x` that has succeeded from `s` on: it succeeds again in every closed
session that has all that the first run has left, and the session is closed again. Steps
`Lasts` if the second run even gives the same result.

A stable name leads to the namespace that it led to at first, and there to the entry that was
made at first; so the second run finds instances where the first one may have compiled them.
Arrays get a slot of their own each time, but the sizes are the same, and with them the
arguments in which they occur.

* `Lasts.bind`: one step after another.
* `recurs_resolveType`: a stable reference, at any number of levels.
-/

namespace Wireform.Session

variable {s t u : Session} {α β : Type}

/-- A run of `x` from `s` on that succeeds satisfies `post`. Later a run succeeds again, leaves
nothing open, and is the same as the first one in the sense of `same`. -/
def Recurs (s : Session) (x : Compile α) (post : α → Session → Prop)
    (same : α → Session → α → Session → Prop) : Prop :=
  ∀ a t, x s = .ok a t → Advances s t ∧ post a t ∧ ∀ u, u.Closed → Persists t u →
    ∃ b v, x u = .ok b v ∧ Advances u v ∧ v.Closed ∧ same a t b v

/-- It recurs with the same result. -/
def Lasts (s : Session) (x : Compile α) (post : α → Session → Prop) : Prop :=
  s.Recurs x post fun a _ b _ => b = a

/-! ### Steps add up -/

namespace Recurs

variable {x y : Compile α} {post : α → Session → Prop} {same : α → Session → α → Session → Prop}

theorem mono {same' : α → Session → α → Session → Prop} (h : s.Recurs x post same)
    (hsame : ∀ a t b v, same a t b v → same' a t b v) : s.Recurs x post same' := by
  intro a t hrun
  obtain ⟨hst, ha, hlater⟩ := h a t hrun
  refine ⟨hst, ha, fun u hu hpersists => ?_⟩
  obtain ⟨b, v, hagain, huv, hv, hab⟩ := hlater u hu hpersists
  exact ⟨b, v, hagain, huv, hv, hsame a t b v hab⟩

theorem fail {error : CompileError} : s.Recurs (.fail error) post same :=
  fun _ _ hrun => nomatch hrun

/-- What does the same now and later recurs as well. -/
theorem congr (h : s.Recurs y post same) (hnow : x s = y s)
    (hlater : ∀ u, u.Closed → Persists s u → x u = y u) : s.Recurs x post same := by
  intro a t hrun
  obtain ⟨hst, ha, hagain⟩ := h a t (hnow ▸ hrun)
  refine ⟨hst, ha, fun u hu hpersists => ?_⟩
  rw [hlater u hu (hst.toGrows.persists.trans hpersists)]
  exact hagain u hu hpersists

end Recurs

namespace Lasts

variable {x : Compile α} {post : α → Session → Prop}

/-- **One step after another.** -/
theorem bind {f : α → Compile β} {p : α → Session → Prop} {post : β → Session → Prop}
    {same : β → Session → β → Session → Prop} (h : s.Lasts x p)
    (hf : ∀ a t, Advances s t → p a t → t.Recurs (f a) post same) :
    s.Recurs (x >>= f) post same := by
  intro b w hrun
  obtain ⟨a, t, hx, hfa⟩ := exists_of_bind_ok hrun
  obtain ⟨hst, ha, hlater⟩ := h a t hx
  obtain ⟨htw, hb, hlater'⟩ := hf a t hst ha b w hfa
  refine ⟨hst.trans htw, hb, fun u hu hpersists => ?_⟩
  obtain ⟨_, v, hx', huv, hv, rfl⟩ := hlater u hu (htw.toGrows.persists.trans hpersists)
  obtain ⟨b', z, hfa', hvz, hz, hsame⟩ := hlater' v hv (hpersists.trans huv.toGrows.persists)
  exact ⟨b', z, (bind_of_ok hx').trans hfa', huv.trans hvz, hz, hsame⟩

theorem pure {a : α} (hs : s.Valid) (h : post a s) : s.Lasts (Pure.pure a) post := by
  rintro _ _ ⟨⟩
  exact ⟨Advances.refl hs, h, fun u hu _ => ⟨a, u, rfl, Advances.refl hu.toValid, hu, rfl⟩⟩

theorem orFail {x : Except CompileError α} (hs : s.Valid) :
    s.Lasts (Session.orFail x) fun a t => x = .ok a ∧ t = s := by
  cases x with
  | ok a => exact pure hs ⟨rfl, rfl⟩
  | error error => exact Recurs.fail

/-- A step that goes on with what it reads from the session lasts if that is there
later and the rest lasts. -/
theorem read {γ : Type} {g : Session → Option γ} {f : γ → Compile α} {error : CompileError}
    (hnone : ∀ t, g t = none → x t = .error (.failure error) t)
    (hsome : ∀ t found, g t = some found → x t = f found t)
    (hread : ∀ found, g s = some found → ∀ u, u.Closed → Persists s u → g u = some found)
    (h : ∀ found, g s = some found → s.Lasts (f found) post) : s.Lasts x post := by
  cases hfound : g s with
  | none =>
    intro a t hrun
    rw [hnone s hfound] at hrun
    cases hrun
  | some found =>
    exact (h found hfound).congr (hsome s found hfound)
      fun u hu hpersists => hsome u found (hread found hfound u hu hpersists)

/-- What is known of the first run may be used. -/
theorem of_sound {p : α → Session → Prop} (hx : s.Sound x p)
    (h : ∀ a t, x s = .ok a t → p a t → post a t ∧ ∀ u, u.Closed → Persists t u → x u = .ok a u) :
    s.Lasts x post := by
  intro a t hrun
  obtain ⟨hst, ha⟩ := Ensures.of_ok hx hrun
  obtain ⟨hpost, hlater⟩ := h a t hrun ha
  exact ⟨hst, hpost, fun u hu hpersists =>
    ⟨a, u, hlater u hu hpersists, Advances.refl hu.toValid, hu, rfl⟩⟩

end Lasts

/-! ### Expressions -/

variable {inner : Bool} {scope home : ScopeId} {resolve : Resolver}

section Expressions

variable {sizeOf : TypeRef → Compile Size}
  (hsize : ∀ (s : Session) (r : TypeRef), s.Valid → scope.index < s.scopes.size →
    r.isStable inner = true → s.Lasts (sizeOf r) fun _ _ => True)

/-- Operands that mean the same later. -/
def StableOperands (inner : Bool) (operands : List Operand) : Prop :=
  ∀ operand ∈ operands, operand.isStable inner = true

theorem lasts_number (hs : s.Valid) (name : String) (operand : Operand) :
    s.Lasts (Expression.number name operand) fun _ _ => True := by
  unfold Expression.number
  split
  · exact Lasts.pure hs trivial
  · exact Recurs.fail

include hsize

theorem lasts_sizeOfOperand (hs : s.Valid) (hscope : scope.index < s.scopes.size) (name : String)
    {operand : Operand} (hoperand : operand.isStable inner = true) :
    s.Lasts (Expression.sizeOfOperand sizeOf name operand)
      fun size _ => size.isStable inner = true := by
  cases operand with
  | constant value => exact Recurs.fail
  | type reference =>
    refine Lasts.bind (hsize s reference hs hscope hoperand) fun size t hst _ => ?_
    cases size with
    | bounded bytes => exact Lasts.pure hst.valid rfl
    | unbounded => exact Recurs.fail

theorem lasts_applyOperator (hs : s.Valid) (hscope : scope.index < s.scopes.size) (name : String)
    (operator : Operator) {stack : List Operand} (hstack : StableOperands inner stack) :
    s.Lasts (Expression.applyOperator sizeOf name operator stack)
      fun stack _ => StableOperands inner stack := by
  have hnumber : ∀ {value : Binary64} {rest : List Operand}, StableOperands inner rest →
      StableOperands inner (.number value :: rest) :=
    fun hrest => List.forall_mem_cons.2 ⟨rfl, hrest⟩
  unfold Expression.applyOperator
  split
  · have hrest := (List.forall_mem_cons.1 (List.forall_mem_cons.1 hstack).2).2
    refine Lasts.bind (lasts_number hs name _) fun _ t hst _ => ?_
    refine Lasts.bind (lasts_number hst.valid name _) fun _ u htu _ => ?_
    exact Lasts.pure htu.valid (hnumber hrest)
  · have hrest := (List.forall_mem_cons.1 hstack).2
    refine Lasts.bind (lasts_number hs name _) fun _ t hst _ => ?_
    exact Lasts.pure hst.valid (hnumber hrest)
  · obtain ⟨hoperand, hrest⟩ := List.forall_mem_cons.1 hstack
    refine Lasts.bind (lasts_sizeOfOperand hsize hs hscope name hoperand)
      fun size t hst hstable => ?_
    exact Lasts.pure hst.valid (List.forall_mem_cons.2 ⟨hstable, hrest⟩)
  · exact Recurs.fail

theorem lasts_step (hs : s.Valid) (hscope : scope.index < s.scopes.size) {stack : List Operand}
    (hstack : StableOperands inner stack) {token : Token}
    (htoken : isStableToken inner token = true) :
    s.Lasts (Expression.step sizeOf [] stack token) fun stack _ => StableOperands inner stack := by
  cases token with
  | number | string => exact Lasts.pure hs (List.forall_mem_cons.2 ⟨rfl, hstack⟩)
  | type reference =>
    refine Lasts.pure hs (List.forall_mem_cons.2 ⟨?_, hstack⟩)
    rw [TypeRef.substitute_nil]
    exact htoken
  | parameter name => exact Recurs.fail
  | operator name =>
    simp only [Expression.step]
    split
    · exact lasts_applyOperator hsize hs hscope name _ hstack
    · exact Recurs.fail

theorem lasts_run (hs : s.Valid) (hscope : scope.index < s.scopes.size) {stack : List Operand}
    (hstack : StableOperands inner stack) {expr : Expr} (hexpr : isStableExpr inner expr = true) :
    s.Lasts (Expression.run sizeOf [] stack expr) fun stack _ => StableOperands inner stack := by
  induction expr generalizing s stack with
  | nil => exact Lasts.pure hs hstack
  | cons token rest ih =>
    simp only [isStableExpr, Bool.and_eq_true] at hexpr
    refine Lasts.bind (lasts_step hsize hs hscope hstack hexpr.1) fun stack t hst hstack => ?_
    exact ih hst.valid (hst.scope_lt hscope) hstack hexpr.2

end Expressions

/-- What it makes of a stable reference has the same length later; a name leads to the same slot. -/
def Resolver.Recurs (resolve : Resolver) : Prop :=
  ∀ (s : Session) (scope : ScopeId) (inner : Bool) (r : TypeRef), s.Valid →
    scope.index < s.scopes.size → (inner = false → scope = root) → r.isStable inner = true →
    s.Recurs (resolve scope r []) (fun id t => id.index < t.arena.size) fun id t again v =>
      v.arena.maxSize again = t.arena.maxSize id ∧ (r.isName = true → again = id)

theorem lasts_sizeOf (hr : resolve.Recurs) (hroot : inner = false → scope = root)
    (s : Session) (r : TypeRef) (hs : s.Valid) (hscope : scope.index < s.scopes.size)
    (hstable : r.isStable inner = true) :
    s.Lasts (do maxSize (← resolve scope r [])) fun _ _ => True := by
  intro size t hrun
  obtain ⟨id, mid, hid, hmax⟩ := exists_of_bind_ok hrun
  obtain ⟨rfl, rfl⟩ : mid.arena.maxSize id = size ∧ mid = t := by cases hmax; exact ⟨rfl, rfl⟩
  obtain ⟨hst, -, hlater⟩ := hr s scope inner r hs hscope hroot hstable id mid hid
  refine ⟨hst, trivial, fun u hu hpersists => ?_⟩
  obtain ⟨again, v, hagain, huv, hv, hsize, -⟩ := hlater u hu hpersists
  exact ⟨_, v, bind_of_ok hagain, huv, hv, hsize⟩

theorem lasts_evaluate (hr : resolve.Recurs) (hroot : inner = false → scope = root) (hs : s.Valid)
    (hscope : scope.index < s.scopes.size) {expr : Expr} (hexpr : isStableExpr inner expr = true) :
    s.Lasts (evaluate resolve scope [] expr) fun operand _ => operand.isStable inner = true := by
  refine Lasts.bind (lasts_run (lasts_sizeOf hr hroot) hs hscope (List.forall_mem_nil _) hexpr)
    fun stack t hst hstack => ?_
  split
  · exact Lasts.pure hst.valid (hstack _ (List.mem_singleton_self _))
  · exact Recurs.fail

theorem lasts_evaluateArguments (hr : resolve.Recurs)
    (hroot : inner = false → scope = root) (hs : s.Valid) (hscope : scope.index < s.scopes.size)
    {arguments : Option (List Expr)} (harguments : isStableArguments inner arguments = true) :
    s.Lasts (evaluateArguments resolve scope [] arguments) fun operands _ =>
      ∀ given ∈ operands, StableOperands inner given := by
  cases arguments with
  | none => exact Lasts.pure hs fun _ h => nomatch h
  | some arguments =>
    have hoperands : s.Lasts (arguments.mapM (evaluate resolve scope [])) fun operands _ =>
        StableOperands inner operands := by
      induction arguments generalizing s with
      | nil => exact Lasts.pure hs (List.forall_mem_nil _)
      | cons expr rest ih =>
        simp only [isStableArguments, isStableExprs, Bool.and_eq_true] at harguments
        rw [List.mapM_cons]
        refine Lasts.bind (lasts_evaluate hr hroot hs hscope harguments.1)
          fun operand t hst hoperand => ?_
        refine Lasts.bind (ih hst.valid (hst.scope_lt hscope) harguments.2)
          fun operands u htu hoperands => ?_
        exact Lasts.pure htu.valid (List.forall_mem_cons.2 ⟨hoperand, hoperands⟩)
    refine Lasts.bind hoperands fun operands t hst hoperands => Lasts.pure hst.valid ?_
    rintro _ ⟨⟩
    exact hoperands

/-! ### Names -/

/-- What was entered at first is what is found later. -/
theorem lasts_resolveEntry (hr : resolve.Sound) (hs : s.Valid) (hhome : home.index < s.scopes.size)
    (name : String) :
    s.Lasts (resolveEntry resolve home name) fun r t => r.Entered t home name := by
  have hsound := sound_resolveEntry hr hs hhome name
  refine Lasts.of_sound hsound fun r t hrun hentered => ⟨hentered, fun u hu hpersists => ?_⟩
  have hlater := hpersists.entered hu ((hsound.of_ok hrun).1.scope_lt hhome) hentered
  rw [resolveEntry, get_bind, hlater]
  cases r <;> rfl

theorem stable_templateArguments {name : String} {template : Template}
    {arguments taken : List Operand} (harguments : StableOperands inner arguments)
    (htaken : templateArguments name template arguments = .ok taken) :
    StableOperands inner taken := by
  rcases templateArguments_eq htaken with rfl | ⟨-, rfl⟩
  · exact harguments
  · exact List.forall_mem_singleton.2 rfl

/-- An instance is found under the text under which it was entered. -/
theorem lasts_instantiate (hr : resolve.Sound) (hs : s.Valid) (hhome : home.index < s.scopes.size)
    {name : String} {template : Template}
    (hentered : (s.scope home).entries.get? name = some (.deferred template))
    {arguments : List Operand} (harguments : StableOperands inner arguments) :
    s.Lasts (instantiate resolve home name template arguments) fun _ _ => True := by
  have hsound := sound_instantiate hr hs hhome hentered arguments
  refine Lasts.of_sound hsound fun id t hrun hid => ⟨trivial, fun u hu hpersists => ?_⟩
  obtain ⟨taken, mid, htaken, -⟩ := exists_of_bind_ok hrun
  obtain ⟨taken, hok⟩ : ∃ taken, templateArguments name template arguments = .ok taken := by
    cases h : templateArguments name template arguments with
    | ok taken => exact ⟨taken, rfl⟩
    | error error => rw [h] at htaken; cases htaken
  obtain ⟨key, hkey⟩ := exists_instanceKey? name (stable_templateArguments harguments hok)
  have hlater :=
    hpersists.entered hu ((hsound.of_ok hrun).1.scope_lt hhome) (hid.2 taken hok key hkey)
  rw [instantiate, hok, orFail, pure_bind, get_bind, hkey, Option.bind_some, hlater]
  rfl

/-- The conditions under which a name is found where it was found. -/
def Plain (scope : ScopeId) (name : String) (localOnly : Bool) : Prop :=
  localOnly = true ∨ scope = root ∨ '<' ∉ name.toList

/-- What follows the lookup of a name lasts if it does at the place where the name is found. -/
theorem lasts_lookup {name : String} {localOnly : Bool} {f : ScopeId → Compile α}
    {error : CompileError} {post : α → Session → Prop} (hs : s.Valid)
    (hscope : scope.index < s.scopes.size) (hname : Plain scope name localOnly)
    (h : ∀ home, home.index < s.scopes.size → s.Lasts (f home) post) :
    s.Lasts (do
      match (← get).lookup? scope name localOnly with
      | none => .fail error
      | some home => f home) post :=
  Lasts.read (g := fun t => t.lookup? scope name localOnly)
    (fun t hnone => by rw [get_bind, hnone]; rfl) (fun t home hfound => by rw [get_bind, hfound])
    (fun _ hfound _ hu hpersists => hpersists.lookup? hs hu.toValid hscope hname hfound)
    fun home hfound => h home (hs.lookup hscope hfound)

theorem lasts_resolveInstance (hr : resolve.Sound) (hs : s.Valid)
    (hscope : scope.index < s.scopes.size) {name : String} {localOnly : Bool}
    (hname : Plain scope name localOnly) {arguments : List Operand}
    (harguments : StableOperands inner arguments) :
    s.Lasts (resolveInstance resolve scope name arguments localOnly) fun _ _ => True := by
  refine lasts_lookup hs hscope hname fun home hhome => ?_
  refine Lasts.bind (lasts_resolveEntry hr hs hhome name) fun r t hst hentered => ?_
  cases r with
  | type id => exact Recurs.fail
  | template template =>
    exact lasts_instantiate hr hst.valid (hst.scope_lt hhome) hentered harguments

theorem lasts_resolveName (hr : resolve.Sound) (hs : s.Valid) (hscope : scope.index < s.scopes.size)
    {name : String} {localOnly : Bool} (hname : Plain scope name localOnly)
    {arguments : Option (List Operand)}
    (harguments : ∀ operands ∈ arguments, StableOperands inner operands) :
    s.Lasts (resolveName resolve scope name arguments localOnly) fun _ _ => True := by
  cases arguments with
  | some operands => exact lasts_resolveInstance hr hs hscope hname (harguments operands rfl)
  | none =>
    refine lasts_lookup hs hscope hname fun home hhome => ?_
    refine Lasts.bind (lasts_resolveEntry hr hs hhome name) fun r t hst _ => ?_
    split
    · exact Lasts.pure hst.valid trivial
    · have hnone : StableOperands inner [] := List.forall_mem_nil _
      exact lasts_resolveInstance hr hst.valid (hst.scope_lt hscope) hname hnone
    · exact Recurs.fail

/-! ### References -/

theorem plain_of_isStable {localOnly : Bool} {name : String} (hroot : inner = false → scope = root)
    (h : (localOnly || !inner || !name.toList.contains '<') = true) :
    Plain scope name localOnly := by
  simp only [Bool.or_eq_true, Bool.not_eq_true', List.contains_eq_mem, decide_eq_false_iff_not] at h
  rcases h with (hlocal | houter) | hplain
  · exact Or.inl hlocal
  · exact Or.inr (Or.inl (hroot houter))
  · exact Or.inr (Or.inr hplain)

theorem lasts_resolvePath (hr : resolve.Sound) (hr' : resolve.Recurs) (whole : TypeRef)
    {segments : List PathSegment} {localOnly : Bool} (hs : s.Valid)
    (hscope : scope.index < s.scopes.size) (hroot : inner = false → scope = root)
    (hstable : isStableSegments inner localOnly segments = true) :
    s.Lasts (resolvePath resolve whole [] scope localOnly segments) fun _ _ => True := by
  induction segments generalizing s scope inner localOnly with
  | nil => exact Recurs.fail
  | cons segment rest ih =>
    obtain ⟨name, arguments⟩ := segment
    simp only [isStableSegments, Bool.and_eq_true] at hstable
    obtain ⟨⟨hname, harguments⟩, hrest⟩ := hstable
    unfold resolvePath
    refine Lasts.bind (lasts_evaluateArguments hr' hroot hs hscope harguments)
      fun operands t hst hoperands => ?_
    have hname := plain_of_isStable hroot hname
    refine Lasts.bind (lasts_resolveName hr hst.valid (hst.scope_lt hscope) hname hoperands)
      fun id u htu _ => ?_
    split
    · exact Lasts.pure htu.valid trivial
    · refine Lasts.read (g := fun t => t.nestedScope? id)
        (fun t hnone => by rw [get_bind, hnone]; rfl)
        (fun t nested hnested => by rw [get_bind, hnested])
        (fun nested hnested v hv hpersists => ?_) fun nested hnested => ?_
      · exact hpersists.nestedScope? hv hnested
      -- the next segment is looked up inside this type
      · exact ih htu.valid (htu.valid.nestedScope hnested) (fun h : true = false => nomatch h) hrest

theorem arrayType_maxSize {a b : Arena} {id id' : TypeId}
    (h : a.maxSize id = b.maxSize id') (size : ℕ) (nullable : Bool) :
    (arrayType a id size nullable).maxSize = (arrayType b id' size nullable).maxSize := by
  simp only [arrayType, h]

/-- An array gets another slot, but its length is the same. -/
theorem recurs_compileArray (hr : resolve.Sound) (hr' : resolve.Recurs) (hs : s.Valid)
    (hscope : scope.index < s.scopes.size) (hroot : inner = false → scope = root)
    {element : TypeRef} {size : Expr}
    (helement : element.isStable inner = true) (hsize : isStableExpr inner size = true) :
    s.Recurs (compileArray resolve scope element size []) (fun id t => id.index < t.arena.size)
      fun id t again v => v.arena.maxSize again = t.arena.maxSize id := by
  rw [compileArray_eq, TypeRef.substitute_nil]
  refine Lasts.bind (lasts_evaluate hr' hroot hs hscope hsize) fun operand t hst _ => ?_
  refine Lasts.bind (Lasts.orFail hst.valid) fun size t' htt' _ => ?_
  have hst' := hst.trans htt'
  have hscope := (hst.trans htt').scope_lt hscope
  intro id w hrun
  obtain ⟨part, v, hpart, hpush⟩ := exists_of_bind_ok hrun
  obtain ⟨htv, hlt, hlater⟩ :=
    hr' t' scope inner element htt'.valid hscope hroot helement part v hpart
  obtain ⟨hvw, hid⟩ :=
    (sound_push htv.valid (holds_arrayType hlt size element.nullable)).of_ok hpush
  refine ⟨htv.trans hvw, w.arena.lt_size_of_get? hid, fun u hu hpersists => ?_⟩
  -- the element has the same length again, and so has the array
  obtain ⟨again, z, hagain, huz, hz, hsize, -⟩ := hlater u hu (hvw.toGrows.persists.trans hpersists)
  have hscope := Nat.lt_of_lt_of_le ((htv.trans hvw).scope_lt hscope) hpersists.scopes_size_le
  have hlt := (Ensures.of_ok (hr u scope element [] hu.toValid hscope) hagain).2
  have hholds := holds_arrayType hlt size element.nullable
  refine ⟨⟨z.arena.size⟩, { z with arena := (z.arena.push _).2 }, bind_of_ok hagain,
    huz.trans (advances_push hz.toValid hholds), hz.push hholds, ?_⟩
  dsimp only
  rw [Arena.maxSize, Arena.maxSize, hid, Arena.get?_push, if_pos rfl]
  exact arrayType_maxSize hsize size element.nullable

/-- What leads to the same slot leads to a type of the same length. -/
theorem Lasts.recurs {x : Compile TypeId} {p : Prop}
    (hsound : s.Sound x fun id t => id.index < t.arena.size) (h : s.Lasts x fun _ _ => True) :
    s.Recurs x (fun id t => id.index < t.arena.size) fun id t again v =>
      v.arena.maxSize again = t.arena.maxSize id ∧ (p → again = id) := by
  intro id t hrun
  obtain ⟨hst, -, hlater⟩ := h id t hrun
  have hlt := (hsound.of_ok hrun).2
  refine ⟨hst, hlt, fun u hu hpersists => ?_⟩
  obtain ⟨again, v, hagain, huv, hv, rfl⟩ := hlater u hu hpersists
  exact ⟨again, v, hagain, huv, hv,
    (hpersists.trans huv.toGrows.persists).maxSize hv hlt, fun _ => rfl⟩

theorem recurs_resolveStep (hr : resolve.Sound) (hr' : resolve.Recurs) :
    (resolveStep resolve).Recurs := by
  intro s scope inner r hs hscope hroot hstable
  have hsound := sound_resolveStep hr s scope r [] hs hscope
  unfold resolveStep at hsound ⊢
  rw [TypeRef.substitute_nil] at hsound ⊢
  obtain ⟨kind, nullable⟩ := r
  cases kind with
  | parameter name => exact Recurs.fail
  | inline body => simp [TypeRef.isStable] at hstable
  | array element size =>
    simp only [TypeRef.isStable, Bool.and_eq_true] at hstable
    exact (recurs_compileArray hr hr' hs hscope hroot hstable.1 hstable.2).mono
      fun _ _ _ _ hsize => ⟨hsize, fun h => nomatch h⟩
  | path segments =>
    exact Lasts.recurs hsound (lasts_resolvePath hr hr' _ hs hscope hroot hstable)
  | named name arguments =>
    simp only [TypeRef.isStable, Bool.and_eq_true] at hstable
    obtain ⟨hname, harguments⟩ := hstable
    refine Lasts.recurs hsound
      (Lasts.bind (lasts_evaluateArguments hr' hroot hs hscope harguments) ?_)
    intro operands t hst hoperands
    have hplain : Plain scope name false := plain_of_isStable hroot hname
    exact lasts_resolveName hr hst.valid (hst.scope_lt hscope) hplain hoperands

/-- **A stable reference, at any number of levels.** -/
theorem recurs_resolveType (levels : ℕ) : (resolveType levels).Recurs := by
  induction levels with
  | zero => exact fun _ _ _ _ _ _ _ _ _ _ hrun => nomatch hrun
  | succ levels ih => exact recurs_resolveStep (sound_resolveType levels) ih

/-! ### Calls -/

/-- A step after which no type contains itself passes the check. -/
theorem checked_of_acyclic {step : Compile α} {a : α} (hstep : step s = .ok a t)
    (ht : t.arena.Acyclic) (start : ℕ) : checked start step s = .ok a t := by
  have hcycle : t.arena.cycle? start = none := by
    cases h : t.arena.cycle? start with
    | none => rfl
    | some id => exact absurd (Arena.cycle?_sound h) (ht id)
  have hcheck : checkContainment start t = .ok () t := by
    unfold checkContainment
    rw [get_bind, hcycle]
    rfl
  unfold checked
  rw [bind_of_ok hstep, bind_of_ok hcheck]
  rfl

/-- **A stable name that is resolved again leads to the same slot.** -/
theorem resolveRef_again (hs : s.Closed) {levels : ℕ} {r : TypeRef} {id : TypeId}
    (hname : r.isName = true) (hstable : r.isStable false = true)
    (hrun : resolveRef levels r s = .ok id t) (hu : u.Closed) (hpersists : Persists t u) :
    ∃ v, resolveRef levels r u = .ok id v := by
  -- the call has run the step and kept what it made
  have hstep : s.Sound (resolveType levels root r []) fun id mid =>
      resolveType levels root r [] s = .ok id mid :=
    (sound_resolveType levels s root r [] hs.toValid hs.root_lt).run.mono fun _ _ _ h => h.1
  obtain ⟨-, -, mid, hmid, rfl⟩ := (ensures_atomically hs hstep).of_ok hrun
  obtain ⟨-, -, hlater⟩ :=
    recurs_resolveType levels s root false r hs.toValid hs.root_lt
      (fun _ => rfl) hstable id mid hmid
  obtain ⟨again, v, hagain, huv, hv, -, hsame⟩ := hlater u hu ⟨hpersists.slots, hpersists.scopes⟩
  obtain rfl := hsame hname
  exact ⟨_, atomically_of_ok (checked_of_acyclic hagain hv.acyclic _)⟩

end Wireform.Session
