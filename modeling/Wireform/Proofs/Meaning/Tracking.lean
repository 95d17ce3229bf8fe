import Wireform.Proofs.Meaning.Legend
import Wireform.Proofs.Session.Layouts

/-!
# Compiling does what reading tells

A step of a compilation tracks a reading if it gives, whenever it succeeds, what is read with enough
levels, and the session still follows the definitions. While a block is compiled other blocks are
compiled too, but none that has begun before: so what a block has made by itself is only counted up
by its own steps. Where everything that is read has an answer, a step is stopped only by what
reading does not know of: which types are being compiled.

* `Continues`: what a step of a block leaves alone.
* `Excused`: reasons to stop that depend on what is being compiled.
* `Tracks.bind`: one step after another.
* `tracks_evaluate`: expressions are evaluated to what they are read to be.
-/

namespace Wireform.Meaning

open Session

variable {w : Source} {owner : Node} {s t u : Session} {g g' g'' : Legend} {α β γ δ : Type}

/-- From `s` to `t` a block has gone on: it may have made more nodes, blocks that had begun have
not, and what is new had not begun. -/
structure Continues (owner : Node) (s : Session) (g : Legend) (t : Session)
    (g' : Legend) : Prop where
  advances : Advances s t
  node : ∀ id : TypeId, id.index < s.arena.size → g'.node id = g.node id
  place : ∀ i : ScopeId, i.index < s.scopes.size → g'.place i = g.place i
  made : ∀ node, node ≠ owner → (g.made node).isSome → g'.made node = g.made node
  owner : ∀ k, g.made owner = some k → ∃ k' ≥ k, g'.made owner = some k'
  fresh : ∀ id : TypeId, s.arena.size ≤ id.index → id.index < t.arena.size →
    (g'.node id).block?.isSome → g.made (g'.node id) = none

namespace Continues

theorem agrees (h : Continues owner s g t g') : Agrees s g t g' :=
  ⟨h.advances.toGrows.options, h.advances.toGrows.extends, h.advances.scopes_size_le,
    h.node, h.place⟩

theorem refl (hs : s.Valid) (g : Legend) : Continues owner s g s g where
  advances := .refl hs
  node := fun _ _ => rfl
  place := fun _ _ => rfl
  made := fun _ _ _ => rfl
  owner := fun k hk => ⟨k, le_rfl, hk⟩
  fresh := fun _ hle hlt => absurd hlt (Nat.not_lt_of_le hle)

theorem isSome (h : Continues owner s g t g') {node : Node} (hnode : (g.made node).isSome) :
    (g'.made node).isSome := by
  by_cases heq : node = owner
  · subst heq
    obtain ⟨k, hk⟩ := Option.isSome_iff_exists.1 hnode
    obtain ⟨k', -, hk'⟩ := h.owner k hk
    rw [hk']
    rfl
  · rwa [h.made node heq hnode]

theorem trans (h : Continues owner s g t g') (h' : Continues owner t g' u g'') :
    Continues owner s g u g'' where
  advances := h.advances.trans h'.advances
  node := (h.agrees.trans h'.agrees).node
  place := (h.agrees.trans h'.agrees).place
  made := by
    intro node hne hnode
    rw [h'.made node hne (h.isSome hnode), h.made node hne hnode]
  owner := by
    intro k hk
    obtain ⟨k', hle, hk'⟩ := h.owner k hk
    obtain ⟨k'', hle', hk''⟩ := h'.owner k' hk'
    exact ⟨k'', hle.trans hle', hk''⟩
  fresh := by
    intro id hle hlt hblock
    rcases Nat.lt_or_ge id.index t.arena.size with hold | hnew
    · rw [h'.node id hold] at hblock ⊢
      exact h.fresh id hle hold hblock
    · -- what had not begun later had not begun at first
      by_contra hbegun
      have hlater := h.isSome (Option.isSome_iff_ne_none.2 hbegun)
      rw [h'.fresh id hnew hlt hblock] at hlater
      cases hlater

/-- One more slot that is not for a block. -/
theorem put {node : Node} (h : Advances s t) (hsize : t.arena.size = s.arena.size + 1)
    (hnode : ¬node.block?.isSome) :
    Continues owner s g t (g.put ⟨s.arena.size⟩ node) where
  advances := h
  node := fun _ hid => g.put_of_lt hid node
  place := fun _ _ => rfl
  made := fun _ _ _ => rfl
  owner := fun k hk => ⟨k, le_rfl, hk⟩
  fresh := by
    intro id hle hlt hblock
    obtain rfl : id = ⟨s.arena.size⟩ := congrArg TypeId.mk (by omega)
    rw [Legend.put_self] at hblock
    exact absurd hblock hnode

end Continues

/-- Reasons to stop that depend on what is being compiled. -/
inductive Excused : Stop CompileError → Prop
  /-- Too many blocks are being compiled. -/
  | depth (name : String) (limit : ℕ) : Excused (.failure (.recursionLimit name limit))
  /-- The size of a type is asked for that is being compiled, or holds one that is. -/
  | size (type : TypeRef) : Excused (.failure (.unboundedSizeof type))
  /-- A path leads through a synonym that is being compiled. -/
  | path (segments : List PathSegment) (nullable : Bool) (longer : 1 < segments.length) :
      Excused (.failure (.undefinedType (TypeRef.describe ⟨.path segments, nullable⟩)))
  /-- References stand too deep inside each other. -/
  | levels : Excused .outOfFuel

/-- **Every block that is admitted can be read**, keeps the rules, and is what its name stands
for. -/
structure Source.Answered (w : Source) : Prop where
  parts : ∀ node block, w.admits node → node.block? = some block →
    Answers (fun levels => w.parts (w.oracle levels) node block) 0
  formed : ∀ node block, w.admits node → node.block? = some block → Formed block.bindings block.body
  named : ∀ home key body bindings, w.admits (.keyed home key body bindings) → '<' ∉ key.toList →
    w.standing? home key = some (.type (.keyed home key body bindings))

/-- What holds whatever is admitted holds of what is. -/
theorem Source.Follows.of_under (h : w.Follows s g) {P : Source → Prop}
    (hunder : w.Under s g P) : P w :=
  hunder w.admits h.admitted

/-- A step does what is read. Whenever it succeeds, it gives what is read; if everything that is
read has an answer, it stops only for a reason that depends on what is being compiled. -/
structure Tracks (w : Source) (owner : Node) (s : Session) (g : Legend)
    (x : Source → ℕ → Reading β) (y : Compile α)
    (rel : β → α → Session → Legend → Prop) : Prop where
  gives : ∀ a t k, y s = .ok a t → g.made owner = some k → Fed (x w) k →
    ∃ b k' g', w.Under t g' (fun w => Reads (x w) k b k') ∧ g'.made owner = some k' ∧
    Continues owner s g t g' ∧
      w.Follows t g' ∧ rel b a t g'
  stops : ∀ stop t k, y s = .error stop t → g.made owner = some k → w.Answered →
    Answers (x w) k → Excused stop

/-- A slot stands for a node. -/
def Stands (node : Node) (id : TypeId) (s : Session) (g : Legend) : Prop :=
  id.index < s.arena.size ∧ g.node id = node

theorem Stands.later {node : Node} {id : TypeId} (h : Stands node id s g) (hag : Agrees s g t g') :
    Stands node id t g' := ⟨h.1.trans_le hag.arena.size_le, (hag.node id h.1).trans h.2⟩

/-- Resolving a reference gives a slot for the node that is read. -/
def Tracked (w : Source) (resolve : Resolver) : Prop :=
  ∀ (owner : Node) (s : Session) (g : Legend) (scope : ScopeId) (r : TypeRef) (b : Bindings),
    s.Valid → w.Follows s g → scope.index < s.scopes.size →
      Tracks w owner s g
        (fun w levels => (w.oracle levels).resolve owner (g.place scope) r.folded b.folded)
        (resolve scope r b) Stands

namespace Tracks

variable {x : Source → ℕ → Reading β} {y : Compile α} {rel : β → α → Session → Legend → Prop}

/-- A step that does not stop. -/
theorem of_gives (hruns : ∀ stop t, y s ≠ .error stop t)
    (h : ∀ a t k, y s = .ok a t → g.made owner = some k → Fed (x w) k →
      ∃ b k' g', w.Under t g' (fun w => Reads (x w) k b k') ∧ g'.made owner = some k' ∧
        Continues owner s g t g' ∧ w.Follows t g' ∧ rel b a t g') : Tracks w owner s g x y rel :=
  ⟨h, fun stop t _ hrun => absurd hrun (hruns stop t)⟩

theorem pure {a : α} {b : β} (hs : s.Valid) (h : w.Follows s g) (hrel : rel b a s g) :
    Tracks w owner s g (fun _ _ => Pure.pure b) (Pure.pure a) rel := by
  refine of_gives nofun ?_
  rintro _ _ k ⟨⟩ hk _
  exact ⟨b, k, g, fun _ _ => Reads.pure b k, hk, .refl hs g, h, hrel⟩

/-- A step that stops for a reason. -/
theorem fail {error : CompileError}
    (h : ∀ k, g.made owner = some k → w.Answered → Answers (x w) k → Excused (.failure error)) :
    Tracks w owner s g x (.fail error : Compile α) rel where
  gives := fun _ _ _ hrun => nomatch hrun
  stops := by
    rintro _ _ k ⟨⟩ hk
    exact h k hk

/-- A step that stops where nothing is read. -/
theorem refused {error : CompileError} (h : ∀ levels k, ∃ stop k', x w levels k = .error stop k') :
    Tracks w owner s g x (.fail error : Compile α) rel :=
  .fail fun k _ _ hanswers => absurd hanswers (not_answers fun levels => h levels k)

/-- A step that stops where a rule is broken. -/
theorem excluded {error : CompileError} {p : Prop} (h : w.Answered → p) (hbroken : ¬p) :
    Tracks w owner s g x (.fail error : Compile α) rel :=
  .fail fun _ _ hanswered _ => absurd (h hanswered) hbroken

theorem mono {rel' : β → α → Session → Legend → Prop} (h : Tracks w owner s g x y rel)
    (hrel : ∀ b a t g', Continues owner s g t g' → rel b a t g' → rel' b a t g') :
    Tracks w owner s g x y rel' where
  gives := by
    intro a t k hrun hk hfed
    obtain ⟨b, k', g', hreads, hk', hcont, hfollows, hb⟩ := h.gives a t k hrun hk hfed
    exact ⟨b, k', g', hreads, hk', hcont, hfollows, hrel b a t g' hcont hb⟩
  stops := h.stops

/-- **One step after another.** -/
theorem bind {f : Source → ℕ → β → Reading δ} {f' : α → Compile γ}
    {rel' : δ → γ → Session → Legend → Prop} (h : Tracks w owner s g x y rel)
    (hf : ∀ b a t g', Continues owner s g t g' → w.Follows t g' → rel b a t g' →
      Tracks w owner t g' (fun w levels => f w levels b) (f' a) rel') :
    Tracks w owner s g (fun w levels => x w levels >>= f w levels) (y >>= f') rel' where
  gives := by
    intro c u k hrun hk hfed
    obtain ⟨a, t, hfirst, hlast⟩ := exists_of_bind_ok hrun
    obtain ⟨b, k', g', hreads, hk', hcont, hfollows, hb⟩ := h.gives a t k hfirst hk hfed.left
    obtain ⟨d, k'', g'', hreads', hk'', hcont', hfollows', hd⟩ :=
      (hf b a t g' hcont hfollows hb).gives c u k' hlast
      hk' (hfed.right (hfollows.of_under hreads))
    refine ⟨d, k'', g'', fun admits hcovers => ?_, hk'', hcont.trans hcont', hfollows', hd⟩
    exact (hreads admits (hcont'.agrees.covers hcovers)).bind (hreads' admits hcovers)
  stops := by
    intro stop u k hrun hk hanswered hanswers
    cases hfirst : y s with
    | error stop' t =>
      obtain ⟨rfl, -⟩ := EStateM.Result.error.inj ((bind_of_error hfirst).symm.trans hrun)
      exact h.stops _ t k hfirst hk hanswered hanswers.left
    | ok a t =>
      obtain ⟨b, k', g', hreads, hk', hcont, hfollows, hb⟩ :=
        h.gives a t k hfirst hk hanswers.left.fed
      exact (hf b a t g' hcont hfollows hb).stops stop u k'
        ((bind_of_ok hfirst).symm.trans hrun) hk' hanswered
        (hanswers.right (hfollows.of_under hreads))

theorem of_succ (h : Tracks w owner s g (fun w levels => x w (levels + 1)) y rel) :
    Tracks w owner s g x y rel where
  gives := by
    intro a t k hrun hk hfed
    obtain ⟨b, k', g', hreads, hrest⟩ := h.gives a t k hrun hk hfed.succ
    exact ⟨b, k', g', fun admits hcovers => (hreads admits hcovers).of_succ, hrest⟩
  stops :=
    fun stop t k hrun hk hanswered hanswers => h.stops stop t k hrun hk hanswered hanswers.succ

theorem get_bind {f : Session → Compile α} (h : Tracks w owner s g x (f s) rel) :
    Tracks w owner s g x (get >>= f) rel := ⟨h.gives, h.stops⟩

theorem maxSize_bind {id : TypeId} {f : Size → Compile α}
    (h : Tracks w owner s g x (f (s.arena.maxSize id)) rel) :
    Tracks w owner s g x (maxSize id >>= f) rel :=
  ⟨h.gives, h.stops⟩

/-- Only what is read with enough levels counts. -/
theorem congr {x' : Source → ℕ → Reading β} (h : Tracks w owner s g x' y rel) (hs : w.Follows s g)
    (heq : w.Under s g fun w => ∃ enough, ∀ levels ≥ enough, x w levels = x' w levels) :
    Tracks w owner s g x y rel where
  gives := by
    intro a t k hrun hk hfed
    obtain ⟨enough, hsame⟩ := hs.of_under heq
    have hfed' : Fed (x' w) k := by
      obtain ⟨more, hfed⟩ := hfed
      refine ⟨max enough more, fun levels hlevels => ?_⟩
      rw [← hsame levels ((le_max_left _ _).trans hlevels)]
      exact hfed levels ((le_max_right _ _).trans hlevels)
    obtain ⟨c, k', g', hreads, hk', hcont, hrest⟩ := h.gives a t k hrun hk hfed'
    refine ⟨c, k', g', fun admits hcovers => ?_, hk', hcont, hrest⟩
    obtain ⟨enough, hsame⟩ := heq admits (hcont.agrees.covers hcovers)
    obtain ⟨more, hreads⟩ := hreads admits hcovers
    refine ⟨max enough more, fun levels hlevels => ?_⟩
    rw [hsame levels ((le_max_left _ _).trans hlevels)]
    exact hreads levels ((le_max_right _ _).trans hlevels)
  stops := by
    intro stop t k hrun hk hanswered hanswers
    obtain ⟨enough, hsame⟩ := hs.of_under heq
    obtain ⟨more, hanswers⟩ := hanswers
    refine h.stops stop t k hrun hk hanswered ⟨max enough more, fun levels hlevels => ?_⟩
    rw [← hsame levels ((le_max_left _ _).trans hlevels)]
    exact hanswers levels ((le_max_right _ _).trans hlevels)

end Tracks

/-! ### Bounds -/

theorem Source.Bounds.of_bounded {node : Node} {bytes : ℕ} (h : w.Bounds node (.bounded bytes)) :
    ∃ enough, ∀ levels ≥ enough, (w.oracle levels).size node = .bounded bytes := by
  obtain ⟨enough, h⟩ := h
  exact ⟨enough, fun levels hlevels => (h levels hlevels).of_bounded⟩

/-- The bound that is stored now is that of the node, or there is none as yet. -/
theorem Source.Follows.bounds (h : w.Follows s g) (id : TypeId) :
    w.Under s g fun w => w.Bounds (g.node id) (s.arena.maxSize id) := by
  unfold Arena.maxSize
  cases hid : s.arena.get? id with
  | none => exact fun _ _ => ⟨0, fun _ _ => Or.inl rfl⟩
  | some type => exact (h.describes id type hid).bound

/-! ### Expressions -/

/-- Two operands are the same once they are folded. -/
def SameFolded (operand' operand : Operand) : Prop := operand'.folded = operand.folded

theorem SameFolded.constant {operand : Operand} {value : Constant}
    (h : SameFolded operand (.constant value)) : operand = .constant value := by
  cases operand with
  | constant value' => exact h
  | type r => cases h

theorem SameFolded.type {operand : Operand} {r : TypeRef} (h : SameFolded operand (.type r)) :
    ∃ r', operand = .type r' ∧ r'.folded = r.folded := by
  cases operand with
  | constant value => cases h
  | type r' => exact ⟨r', rfl, Operand.type.inj h⟩

section Expressions

variable {resolve : Resolver} {scope : ScopeId} {b : Bindings} {place : Node}

/-- The size that an expression asks for, as it is read. -/
noncomputable def readSize (w : Source) (owner place : Node) (levels : ℕ) (r : TypeRef) :
    Reading Size := do
  return (w.oracle levels).size (← (w.oracle levels).resolve owner place r.folded [])

theorem tracks_number (hs : s.Valid) (h : w.Follows s g) (name : String)
    {operand operand' : Operand} (hlike : SameFolded operand' operand) :
    Tracks w owner s g (fun _ _ => Expression.number name operand') (Expression.number name operand)
      fun value' value _ _ => value' = value := by
  rcases operand with ⟨value | text⟩ | r
  · obtain rfl := hlike.constant
    exact .pure hs h rfl
  · obtain rfl := hlike.constant
    exact .refused fun _ _ => ⟨_, _, rfl⟩
  · obtain ⟨r', rfl, -⟩ := hlike.type
    exact .refused fun _ _ => ⟨_, _, rfl⟩

theorem tracks_sizeOfOperand (hr : Tracked w resolve) (hs : s.Valid) (h : w.Follows s g)
    (hscope : scope.index < s.scopes.size) (hplace : g.place scope = place) (name : String)
    {operand operand' : Operand} (hlike : SameFolded operand' operand) :
    Tracks w owner s g
      (fun w levels => Expression.sizeOfOperand (readSize w owner place levels) name operand')
      (Expression.sizeOfOperand (fun r => do maxSize (← resolve scope r [])) name operand)
      fun operand' operand _ _ => SameFolded operand' operand := by
  rcases operand with value | r
  · obtain rfl := hlike.constant
    exact .refused fun _ _ => ⟨_, _, rfl⟩
  obtain ⟨r', rfl, hfolded⟩ := hlike.type
  have hresolve := hr owner s g scope r [] hs h hscope
  rw [hplace, ← hfolded] at hresolve
  simp only [Expression.sizeOfOperand, readSize, bind_assoc, pure_bind]
  refine hresolve.bind fun node id t g' hcont hfollows hid => Tracks.maxSize_bind ?_
  cases hbound : t.arena.maxSize id with
  | unbounded => exact .fail fun _ _ _ _ => .size r
  | bounded bytes =>
    -- the bound is found by reading too
    have hbounds := hfollows.bounds id
    rw [hbound, hid.2] at hbounds
    have hread : Tracks w owner t g' (fun _ _ => pure (.number (.ofNat bytes)))
        (pure (.number (.ofNat bytes)) : Compile Operand)
        fun operand' operand _ _ => SameFolded operand' operand :=
      .pure hcont.advances.valid hfollows rfl
    refine hread.congr hfollows fun admits hcovers => ?_
    obtain ⟨enough, henough⟩ := (hbounds admits hcovers).of_bounded
    exact ⟨enough, fun levels hlevels => by rw [henough levels hlevels]⟩

theorem tracks_applyOperator (hr : Tracked w resolve) (hs : s.Valid) (h : w.Follows s g)
    (hscope : scope.index < s.scopes.size) (hplace : g.place scope = place) (name : String)
    (operator : Operator) {stack stack' : List Operand}
    (hlike : List.Forall₂ SameFolded stack' stack) :
    Tracks w owner s g (fun w levels =>
      Expression.applyOperator (readSize w owner place levels) name operator stack')
      (Expression.applyOperator (fun r => do maxSize (← resolve scope r [])) name operator stack)
      fun stack' stack _ _ => List.Forall₂ SameFolded stack' stack := by
  cases operator with
  | binary op =>
    rcases hlike with _ | ⟨hb, _ | ⟨ha, hrest⟩⟩
    · exact .refused fun _ _ => ⟨_, _, rfl⟩
    · exact .refused fun _ _ => ⟨_, _, rfl⟩
    · refine (tracks_number hs h name ha).bind fun x' x t g' hcont hfollows hx => ?_
      refine (tracks_number hcont.advances.valid hfollows name hb).bind
        fun y' y u g'' hcont' hfollows' hy => ?_
      subst hx hy
      exact .pure hcont'.advances.valid hfollows' (.cons rfl hrest)
  | unary op =>
    rcases hlike with _ | ⟨ha, hrest⟩
    · exact .refused fun _ _ => ⟨_, _, rfl⟩
    · refine (tracks_number hs h name ha).bind fun x' x t g' hcont hfollows hx => ?_
      subst hx
      exact .pure hcont.advances.valid hfollows (.cons rfl hrest)
  | sizeof =>
    rcases hlike with _ | ⟨ha, hrest⟩
    · exact .refused fun _ _ => ⟨_, _, rfl⟩
    · refine (tracks_sizeOfOperand hr hs h hscope hplace name ha).bind
        fun x' x t g' hcont hfollows hx => ?_
      exact .pure hcont.advances.valid hfollows (.cons hx hrest)

theorem tracks_step (hr : Tracked w resolve) (hs : s.Valid) (h : w.Follows s g)
    (hscope : scope.index < s.scopes.size) (hplace : g.place scope = place)
    {stack stack' : List Operand} (hlike : List.Forall₂ SameFolded stack' stack) (token : Token) :
    Tracks w owner s g
      (fun w levels => Expression.step (readSize w owner place levels) b.folded stack'
        (foldedToken token))
      (Expression.step (fun r => do maxSize (← resolve scope r [])) b stack token)
      fun stack' stack _ _ => List.Forall₂ SameFolded stack' stack := by
  cases token with
  | number value =>
    simp only [foldedToken]
    exact .pure hs h (.cons rfl hlike)
  | string text =>
    simp only [foldedToken]
    exact .pure hs h (.cons rfl hlike)
  | type r =>
    simp only [foldedToken]
    exact .pure hs h (.cons (congrArg Operand.type (TypeRef.folded_substitute b r)) hlike)
  | parameter name =>
    simp only [foldedToken, Expression.step, Bindings.get?_folded]
    cases b.get? name with
    | none => exact .refused fun _ _ => ⟨_, _, rfl⟩
    | some operand => exact .pure hs h (.cons operand.folded_folded hlike)
  | operator name =>
    simp only [foldedToken, Expression.step]
    cases Operator.ofName? name with
    | none => exact .refused fun _ _ => ⟨_, _, rfl⟩
    | some operator => exact tracks_applyOperator hr hs h hscope hplace name operator hlike

theorem tracks_run (hr : Tracked w resolve) (hs : s.Valid) (h : w.Follows s g)
    (hscope : scope.index < s.scopes.size) (hplace : g.place scope = place) (expr : Expr)
    {stack stack' : List Operand} (hlike : List.Forall₂ SameFolded stack' stack) :
    Tracks w owner s g
      (fun w levels => Expression.run (readSize w owner place levels) b.folded stack'
        (foldedTokens expr))
      (Expression.run (fun r => do maxSize (← resolve scope r [])) b stack expr)
      fun stack' stack _ _ => List.Forall₂ SameFolded stack' stack := by
  induction expr generalizing s g stack stack' with
  | nil => exact .pure hs h hlike
  | cons token rest ih =>
    refine (tracks_step hr hs h hscope hplace hlike token).bind
      fun stack' stack t g' hcont hfollows hlike => ?_
    exact ih hcont.advances.valid hfollows (hcont.advances.scope_lt hscope)
      ((hcont.place scope hscope).trans hplace) hlike

/-- **Expressions are evaluated to what they are read to be.** -/
theorem tracks_evaluate (hr : Tracked w resolve) (hs : s.Valid) (h : w.Follows s g)
    (hscope : scope.index < s.scopes.size) (hplace : g.place scope = place) (expr : Expr) :
    Tracks w owner s g
      (fun w levels => evaluate (w.oracle levels) owner place b.folded
        (foldedExpr expr (foldedTokens expr)))
      (Session.evaluate resolve scope b expr)
        fun operand' operand _ _ => operand' = operand.folded := by
  cases hfold : Expression.fold? expr with
  | some value =>
    -- closed arithmetic asks for nothing
    have hsame : ∀ expr : Expr, List.Forall₂ Token.Covers expr expr :=
      fun expr => List.forall₂_same.2 fun token _ => Or.inl (.same token)
    rw [foldedExpr_of_fold? hfold]
    have hvalue : Session.evaluate resolve scope b expr s = .ok (.constant value) s :=
      Expression.evaluate_of_fold? _ b s hfold (hsame expr)
    refine .of_gives (fun stop t hrun => nomatch hvalue.symm.trans hrun) fun a t k hrun hk _ => ?_
    obtain ⟨rfl, rfl⟩ := EStateM.Result.ok.inj (hvalue.symm.trans hrun)
    refine ⟨.constant value, k, g, fun _ _ => ⟨0, fun levels _ => ?_⟩, hk, .refl hs g, h, rfl⟩
    exact bind_of_ok (Expression.evaluate_of_fold? _ b.folded k (fold?_constant value) (hsame _))
  | none =>
    rw [foldedExpr_of_none hfold]
    have hevaluate : Tracks w owner s g
        (fun w levels => Expression.evaluate (readSize w owner place levels) b.folded
          (foldedTokens expr))
        (Session.evaluate resolve scope b expr)
        fun operand' operand _ _ => SameFolded operand' operand := by
      unfold Session.evaluate Expression.evaluate
      refine (tracks_run hr hs h hscope hplace expr .nil).bind
        fun stack' stack t g' hcont hfollows hlike => ?_
      rcases stack with _ | ⟨operand, _ | ⟨second, rest⟩⟩
      · cases hlike
        exact .refused fun _ _ => ⟨_, _, rfl⟩
      · cases hlike with
        | cons hfirst hrest =>
          cases hrest
          exact .pure hcont.advances.valid hfollows hfirst
      · rcases hlike with _ | ⟨-, _ | ⟨-, -⟩⟩
        exact .refused fun _ _ => ⟨_, _, rfl⟩
    have hfolded : Tracks w owner s g
        (fun w levels => evaluate (w.oracle levels) owner place b.folded (foldedTokens expr))
        (Session.evaluate resolve scope b expr >>= Pure.pure)
        fun operand' operand _ _ => operand' = operand.folded :=
      hevaluate.bind fun operand' operand t g' hcont hfollows hlike =>
        .pure hcont.advances.valid hfollows hlike
    rwa [bind_pure] at hfolded

theorem tracks_evaluateArguments (hr : Tracked w resolve) (hs : s.Valid) (h : w.Follows s g)
    (hscope : scope.index < s.scopes.size) (hplace : g.place scope = place)
    (arguments : Option (List Expr)) :
    Tracks w owner s g
      (fun w levels => evaluateArguments (w.oracle levels) owner place b.folded
        (foldedArguments arguments))
      (Session.evaluateArguments resolve scope b arguments)
      fun operands' operands _ _ => operands' = operands.map (List.map Operand.folded) := by
  cases arguments with
  | none =>
    simp only [foldedArguments]
    exact .pure hs h rfl
  | some exprs =>
    have hmapM : Tracks w owner s g
        (fun w levels => (foldedExprs exprs).mapM (evaluate (w.oracle levels) owner place b.folded))
        (exprs.mapM (Session.evaluate resolve scope b))
        fun operands' operands _ _ => operands' = operands.map Operand.folded := by
      induction exprs generalizing s g with
      | nil =>
        simp only [foldedExprs, List.mapM_nil]
        exact .pure hs h rfl
      | cons expr rest ih =>
        simp only [foldedExprs, List.mapM_cons]
        refine (tracks_evaluate hr hs h hscope hplace expr).bind
          fun operand' operand t g' hcont hfollows hop => ?_
        refine (ih hcont.advances.valid hfollows (hcont.advances.scope_lt hscope)
          ((hcont.place scope hscope).trans hplace)).bind
          fun operands' operands u g'' hcont' hfollows' hops => ?_
        subst hop hops
        exact .pure hcont'.advances.valid hfollows' rfl
    simp only [foldedArguments]
    refine hmapM.bind fun operands' operands t g' hcont hfollows hops => ?_
    subst hops
    exact .pure hcont.advances.valid hfollows rfl

end Expressions

end Wireform.Meaning
