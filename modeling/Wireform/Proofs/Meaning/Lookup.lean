import Wireform.Proofs.Meaning.Blocks
import Wireform.Proofs.Session.Persistence

/-!
# Names are found where they are read to be found

A namespace knows a name if its place does: what has been entered under it is what the
definitions say, and what has not been entered yet is a definition still. So the namespace in
which a name is found is that of the node in which it is read to be found, and the namespace of a
type is that of its node.

* `Source.Follows.knows_iff`: what a namespace knows.
* `Source.Follows.home?_eq`: where a name is found.
* `Source.Follows.nested?`: which namespace a type has.
-/

namespace Wireform.Meaning

open Session

variable {w : Source} {s : Session} {g : Legend} {scope home : ScopeId} {name : String}

/-- The standard names have no `<` in them. -/
theorem plain_of_standard {key : String} (h : rootEntries.contains key) : '<' ∉ key.toList := by
  have hall : ∀ key ∈ rootEntries.keys, '<' ∉ key.toList := by decide
  refine hall key ?_
  by_contra hkey
  rw [Assoc.contains, (Assoc.get?_eq_none_iff _ _).2 hkey] at h
  cases h

theorem contains_of_standard? {place : Node} (h : (standard? place name).isSome) :
    place = .root ∧ rootEntries.contains name := by
  cases place with
  | root =>
    refine ⟨rfl, ?_⟩
    rw [Assoc.contains]
    cases hentry : rootEntries.get? name with
    | none =>
      rw [standard?, hentry] at h
      cases h
    | some entry => rfl
  | _ => cases h

/-- The root namespace is the only one whose place is the root. -/
theorem Source.Follows.eq_root (h : w.Follows s g) (hscope : scope.index < s.scopes.size)
    (hplace : g.place scope = .root) : scope = root :=
  h.labels.places scope root hscope h.maps.rooted.1 (hplace.trans h.maps.rooted.2.symm)

/-- What has not been entered in a namespace is a definition, if it is anything. -/
theorem Source.Follows.standing?_of_new (h : w.Follows s g) (hscope : scope.index < s.scopes.size)
    (hnew : name ∉ (s.scope scope).entries.keys) : w.standing? (g.place scope) name =
      ((s.scope scope).definitions.get? name).map ((g.place scope).standing name) := by
  have hnone : standard? (g.place scope) name = none := by
    by_contra hsome
    obtain ⟨hroot, hcontains⟩ := contains_of_standard? (Option.isSome_iff_ne_none.2 hsome)
    obtain rfl := h.eq_root hscope hroot
    exact hnew (h.maps.standard name hcontains)
  rw [Source.standing?, hnone, Option.none_or, (h.maps.suits scope hscope).definitions]

/-- What an entry stands for. -/
def Legend.standing (g : Legend) : Entry → Standing
  | .compiled id => .type (g.node id)
  | .locked id _ => .type (g.node id)
  | .deferred template => .template template

/-- What has been entered under a name stands for what is read. -/
theorem Source.Follows.standing?_of_entry (h : w.Follows s g) (hscope : scope.index < s.scopes.size)
    (hname : '<' ∉ name.toList) {entry : Entry}
    (hentry : (s.scope scope).entries.get? name = some entry) :
    w.standing? (g.place scope) name = some (g.standing entry) := by
  have henters := h.maps.enters scope hscope name entry (Assoc.mem_of_get? hentry)
  cases entry with
  | compiled id => exact henters.2.plain hname
  | deferred template => exact henters.2
  | locked id inner => exact henters.2.1.plain hname

/-- **What a namespace knows.** -/
theorem Source.Follows.knows_iff (h : w.Follows s g) (hscope : scope.index < s.scopes.size)
    (hname : '<' ∉ name.toList) : s.knows scope name = true ↔
    (w.standing? (g.place scope) name).isSome := by
  by_cases hkey : name ∈ (s.scope scope).entries.keys
  · refine iff_of_true (Session.knows_iff.2 (Or.inl hkey)) ?_
    cases hentry : (s.scope scope).entries.get? name with
    | none => exact absurd hkey ((Assoc.get?_eq_none_iff _ _).1 hentry)
    | some entry =>
      rw [h.standing?_of_entry hscope hname hentry]
      rfl
  · rw [h.standing?_of_new hscope hkey, Session.knows_iff, or_iff_right hkey, Option.isSome_map,
      Option.isSome_iff_ne_none, ne_eq, Assoc.get?_eq_none_iff, not_not]

theorem Node.around_eq (place : Node) :
    place.around = place :: (place.block?.map fun block => block.home.around).getD [] := by
  cases place <;> rfl

theorem Source.Follows.lookupWithin?_eq (h : w.Follows s g) (hs : s.Valid)
    (hname : '<' ∉ name.toList) {count : ℕ} (hscope : scope.index < s.scopes.size)
    (hcount : scope.index < count) :
    (s.lookupWithin? name count scope).map g.place =
      (g.place scope).around.find? fun home => (w.standing? home name).isSome := by
  induction count generalizing scope with
  | zero => exact absurd hcount (Nat.not_lt_zero _)
  | succ count ih =>
    rw [lookupWithin?, Node.around_eq, List.find?_cons]
    by_cases hknows : s.knows scope name = true
    · rw [if_pos hknows, (h.knows_iff hscope hname).1 hknows]
      rfl
    · have hunknown : (w.standing? (g.place scope) name).isSome = false :=
        Bool.eq_false_iff.2 fun hsome => hknows ((h.knows_iff hscope hname).2 hsome)
      rw [if_neg hknows, hunknown]
      -- the namespace around it is that of the block's home
      have hparent := (h.maps.suits scope hscope).parent
      cases hp : (s.scope scope).parent with
      | none =>
        rw [hp, Option.map_none] at hparent
        cases hblock : (g.place scope).block? with
        | none => rfl
        | some block =>
          rw [hblock] at hparent
          cases hparent
      | some parent =>
        rw [hp, Option.map_some] at hparent
        have hlt := (hs.scopes _ _ (getElem?_scopes hscope)).parent parent hp
        cases hblock : (g.place scope).block? with
        | none =>
          rw [hblock] at hparent
          cases hparent
        | some block =>
          rw [hblock] at hparent
          rw [ih (hlt.trans hscope) (hlt.trans_le (Nat.le_of_lt_succ hcount)),
            Option.some.inj hparent]
          rfl

/-- **Where a name is found.** -/
theorem Source.Follows.home?_eq (h : w.Follows s g) (hs : s.Valid) (hname : '<' ∉ name.toList)
    (hscope : scope.index < s.scopes.size) (localOnly : Bool) :
    (s.lookup? scope name localOnly).map g.place = w.home? (g.place scope) name localOnly := by
  cases localOnly with
  | false => exact h.lookupWithin?_eq hs hname hscope (Nat.lt_succ_of_lt hscope)
  | true =>
    change (s.lookupWithin? name 1 scope).map g.place = [g.place scope].find? _
    rw [lookupWithin?, List.find?_cons]
    by_cases hknows : s.knows scope name = true
    · rw [if_pos hknows, (h.knows_iff hscope hname).1 hknows]
      rfl
    · have hunknown : (w.standing? (g.place scope) name).isSome = false :=
        Bool.eq_false_iff.2 fun hsome => hknows ((h.knows_iff hscope hname).2 hsome)
      rw [if_neg hknows, hunknown]
      cases (s.scope scope).parent <;> rfl

/-- A namespace in which a name is found knows what it stands for. -/
theorem Source.Follows.standing?_isSome (h : w.Follows s g) (hs : s.Valid)
    (hname : '<' ∉ name.toList) (hscope : scope.index < s.scopes.size) {localOnly : Bool}
    (hfound : s.lookup? scope name localOnly = some home) :
    home.index < s.scopes.size ∧ ∃ standing, w.standing? (g.place home) name = some standing := by
  refine ⟨hs.lookup hscope hfound, ?_⟩
  have hsome := h.home?_eq hs hname hscope localOnly
  rw [hfound, Option.map_some] at hsome
  unfold Source.home? at hsome
  exact Option.isSome_iff_exists.1
    (List.find?_some (p := fun home => (w.standing? home name).isSome) hsome.symm)

/-! ### Namespaces of types -/

theorem Source.nested?_of_locals (w : Source) {node : Node} (h : node.locals?.isSome) (levels : ℕ) :
    (w.oracle (levels + 1)).nested? node = some node := by
  change w.nestedStep? _ node = _
  unfold Source.nestedStep?
  cases hblock : node.block? with
  | none =>
    rw [Node.locals?, hblock] at h
    cases h
  | some block =>
    rw [Node.locals?_of_block hblock] at h
    exact if_pos h

theorem Source.HasParts.nested? {node target home : Node} {r : TypeRef} {bindings : Bindings}
    (h : w.HasParts node ⟨home, .definition (.synonym r), bindings⟩ [target])
    (hblock : node.block? = some ⟨home, .definition (.synonym r), bindings⟩) :
    ∃ enough, ∀ levels ≥ enough,
      (w.oracle (levels + 1)).nested? node = (w.oracle levels).nested? target := by
  obtain ⟨k, enough, h⟩ := h
  refine ⟨enough, fun levels hlevels => ?_⟩
  change w.nestedStep? _ node = _
  unfold Source.nestedStep?
  simp only [hblock, h levels hlevels]
  rfl

/-- **Which namespace a type has.** -/
theorem Source.Follows.nested? (h : w.Follows s g) {id : TypeId} {inner : ScopeId}
    (hinner : s.nestedScope? id = some inner) : inner.index < s.scopes.size ∧ w.Under s g fun w =>
      ∃ enough, ∀ levels ≥ enough, (w.oracle levels).nested? (g.node id) =
        some (g.place inner) := by
  have howns : ∀ {id : TypeId}, g.place inner = g.node id → (g.node id).locals?.isSome →
      w.Under s g fun w =>
      ∃ enough, ∀ levels ≥ enough, (w.oracle levels).nested? (g.node id) =
        some (g.place inner) := by
    intro id hplace hlocals
    refine fun admits _ => ⟨1, fun levels hlevels => ?_⟩
    obtain ⟨levels, rfl⟩ := Nat.exists_eq_add_of_le' hlevels
    rw [(w.admitting admits).nested?_of_locals hlocals, hplace]
  unfold nestedScope? at hinner
  generalize s.arena.size + 1 = steps at hinner
  induction steps generalizing id with
  | zero => cases hinner
  | succ steps ih =>
    unfold nestedScopeWithin? at hinner
    split at hinner
    · -- the type is being compiled, and its entry tells the namespace
      obtain ⟨found, hfound, hsome⟩ := List.exists_of_findSome?_eq_some hinner
      obtain ⟨⟨key, entry⟩, hentry, hlocked⟩ := List.exists_of_findSome?_eq_some hsome
      obtain ⟨i, hi⟩ := List.getElem?_of_mem hfound
      rw [Array.getElem?_toList] at hi
      have hlt : i < s.scopes.size := (Array.getElem?_eq_some_iff.1 hi).1
      rw [← scope_eq hi] at hentry
      have henters := h.maps.enters ⟨i⟩ hlt key entry hentry
      cases entry with
      | locked slot inner' =>
        dsimp only at hlocked
        split at hlocked
        · next heq =>
          subst heq
          obtain ⟨hlt, hplace, hlocals⟩ := henters.2.2 _ hlocked
          exact ⟨hlt, howns hplace hlocals⟩
        · cases hlocked
      | compiled id => cases hlocked
      | deferred template => cases hlocked
    · next type htype =>
      have hdescribes := h.describes id type htype
      split at hinner
      · next found hfound =>
        obtain rfl := Option.some.inj hinner
        obtain ⟨hlt, hplace, hlocals⟩ := hdescribes.scope _ hfound
        exact ⟨hlt, howns hplace hlocals⟩
      · next target hnone hlayout =>
        obtain ⟨home, bindings, r, hblock, hparts, -⟩ := hdescribes.laid.of_synonym hlayout
        obtain ⟨hlt, hnested⟩ := ih hinner
        refine ⟨hlt, hparts.map₂ hnested fun w hparts hnested => ?_⟩
        obtain ⟨enough, hnested⟩ := hnested
        obtain ⟨more, hsame⟩ := hparts.nested? hblock
        refine ⟨max enough more + 1, fun levels hlevels => ?_⟩
        obtain ⟨levels, rfl⟩ :=
          Nat.exists_eq_add_of_le' (Nat.le_trans (Nat.le_add_left 1 _) hlevels)
        have hle := Nat.le_of_succ_le_succ hlevels
        rw [hsame levels ((le_max_right _ _).trans hle),
          hnested levels ((le_max_left _ _).trans hle)]
      · cases hinner

end Wireform.Meaning
