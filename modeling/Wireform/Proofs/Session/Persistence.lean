import Wireform.Proofs.Session.Closed

/-!
# What later sessions still find

When a closed session has all that an earlier one has, then what the earlier one had begun has
come to an end: its slots are filled, and none of its entries is locked. What is added to a
nested namespace later is entered under the name of one of its definitions, which was known
there before, or under the text of an instance, which has a `<` in it. So a name without one
that is looked up again is found in the same namespace again, and one with it as well if it was
found in the very namespace it was looked up in.

* `Persists.lookup?`: names are found where they were found.
* `Persists.nestedScope?`: types have the namespaces that they had.
* `Persists.entered`: what was entered under a name is there.
-/

namespace Wireform.Session

variable {s t u : Session} {scope home inner : ScopeId}

/-! ### Names -/

theorem knows_iff {name : String} : s.knows scope name = true ↔
    name ∈ (s.scope scope).entries.keys ∨ name ∈ (s.scope scope).definitions.keys := by
  simp only [knows, Assoc.contains, Bool.or_eq_true, Option.isSome_iff_ne_none, ne_eq,
    Assoc.get?_eq_none_iff, not_not]

/-- Around the root there is nothing. -/
theorem Valid.parent_root (hs : s.Valid) : (s.scope root).parent = none := by
  cases hparent : (s.scope root).parent with
  | none => rfl
  | some parent =>
    cases hroot : s.scopes[root.index]? with
    | none => simp [Session.scope, hroot] at hparent
    | some found =>
      rw [scope_eq hroot] at hparent
      exact absurd ((hs.scopes _ _ hroot).parent parent hparent) (Nat.not_lt_zero _)

namespace Persists

variable (h : Persists s t)

include h

theorem knows (hscope : scope.index < s.scopes.size) {name : String}
    (hknows : s.knows scope name = true) :
    t.knows scope name = true := by
  obtain ⟨added, hadded⟩ := h.scope hscope
  rw [knows_iff] at hknows ⊢
  rw [hadded]
  refine hknows.imp_left fun hname => ?_
  rw [Assoc.keys, List.map_append]
  exact List.mem_append_left _ hname

/-- A nested namespace gets to know no name without a `<` in it. -/
theorem knows_of_plain (ht : t.Valid) (hscope : scope.index < s.scopes.size)
    (hnested : scope ≠ root) {name : String} (hname : '<' ∉ name.toList)
    (hknows : t.knows scope name = true) :
    s.knows scope name = true := by
  rw [knows_iff] at hknows ⊢
  rw [← h.definitions hscope]
  refine Or.inr (hknows.elim (fun hentry => ?_) id)
  have hlt := Nat.lt_of_lt_of_le hscope h.scopes_size_le
  rcases (ht.scopes _ _ (getElem?_scopes hlt)).keys name hentry with hroot | hdefined | hinstance
  · exact absurd (congrArg ScopeId.mk hroot) hnested
  · exact hdefined
  · exact absurd hinstance hname

theorem lookupWithin? (hs : s.Valid) (ht : t.Valid) {name : String} {count count' : ℕ}
    (hcount : count ≤ count') (hscope : scope.index < s.scopes.size)
    (hname : s.knows scope name = true ∨ '<' ∉ name.toList)
    (hfound : s.lookupWithin? name count scope = some home) :
    t.lookupWithin? name count' scope = some home := by
  induction count generalizing scope count' with
  | zero => cases hfound
  | succ count ih =>
    obtain ⟨count', rfl⟩ := Nat.exists_eq_succ_of_ne_zero (Nat.ne_of_gt (Nat.zero_lt_of_lt hcount))
    unfold Session.lookupWithin? at hfound ⊢
    split at hfound
    · next hknows => rwa [if_pos (h.knows hscope hknows)]
    · next hunknown =>
      split at hfound
      · next parent hparent =>
        have hplain := hname.resolve_left hunknown
        have hnested : scope ≠ root := by
          rintro rfl
          rw [hs.parent_root] at hparent
          cases hparent
        obtain ⟨added, hadded⟩ := h.scope hscope
        rw [if_neg fun hknows => hunknown (h.knows_of_plain ht hscope hnested hplain hknows),
          hadded]
        simp only [hparent]
        have hlt := (hs.scopes _ _ (getElem?_scopes hscope)).parent parent hparent
        exact ih (Nat.le_of_succ_le_succ hcount) (Nat.lt_trans hlt hscope) (Or.inr hplain) hfound
      · cases hfound

/-- **Names are found where they were found.** -/
theorem lookup? (hs : s.Valid) (ht : t.Valid) {name : String} {localOnly : Bool}
    (hscope : scope.index < s.scopes.size)
    (hname : localOnly = true ∨ scope = root ∨ '<' ∉ name.toList)
    (hfound : s.lookup? scope name localOnly = some home) :
    t.lookup? scope name localOnly = some home := by
  unfold Session.lookup? at hfound ⊢
  refine h.lookupWithin? hs ht ?_ hscope ?_ hfound
  · split
    · exact Nat.le_refl _
    · exact Nat.succ_le_succ h.scopes_size_le
  · by_cases hknows : s.knows scope name = true
    · exact Or.inl hknows
    -- what is not found at once is looked up further out
    · refine Or.inr ?_
      rcases hname with rfl | rfl | hplain
      · cases hparent : (s.scope scope).parent <;>
          simp [Session.lookupWithin?, hknows, hparent] at hfound
      · split at hfound <;> simp [Session.lookupWithin?, hknows, hs.parent_root] at hfound
      · exact hplain

end Persists

/-! ### What a closed session keeps -/

namespace Persists

variable (h : Persists s t) (ht : t.Closed)

include h ht

/-- A slot that was there holds a type by now. -/
theorem filled {id : TypeId} (hid : id.index < s.arena.size) :
    ∃ type, s.arena.get? id = some type ∧ t.arena.get? id = some type := by
  obtain ⟨more, hmore⟩ := h.slots
  obtain ⟨type, htype⟩ := ht.get? (Nat.lt_of_lt_of_le hid h.size_le)
  have hlt : id.index < s.arena.slots.size := hid
  have hsame : s.arena.get? id = t.arena.get? id := by
    rw [Arena.get?, Arena.get?, hmore, Array.getElem?_append_left hlt]
  exact ⟨type, hsame.trans htype, htype⟩

theorem maxSize {id : TypeId} (hid : id.index < s.arena.size) :
    t.arena.maxSize id = s.arena.maxSize id := by
  obtain ⟨type, hs, ht⟩ := h.filled ht hid
  rw [Arena.maxSize, Arena.maxSize, hs, ht]

theorem unlocked {i : ℕ} {found : Scope} (hfound : s.scopes[i]? = some found)
    (key : String) (slot : TypeId) (inner : Option ScopeId) :
    (key, Entry.locked slot inner) ∉ found.entries := by
  intro hentry
  obtain ⟨added, hadded⟩ := h.scopes i found hfound
  exact ht.unlocked i _ key slot inner hadded (List.mem_append_left _ hentry)

/-- What is entered stays entered, and nothing of it is locked any more. -/
theorem entered (hhome : home.index < s.scopes.size) {r : Resolved} {name : String}
    (hr : r.Entered s home name) : (t.scope home).entries.get? name = some
      (match r with
      | .type id => .compiled id
      | .template template => .deferred template) := by
  cases r with
  | template template => exact h.entry hhome hr
  | type id =>
    rcases hr.2 with hcompiled | ⟨inner, hlocked⟩
    · exact h.entry hhome hcompiled
    · exact absurd (Assoc.mem_of_get? hlocked) (h.unlocked ht (getElem?_scopes hhome) _ _ _)

theorem lockedScope? (id : TypeId) : s.lockedScope? id = none := by
  refine List.findSome?_eq_none_iff.2 fun found hfound => List.findSome?_eq_none_iff.2 ?_
  obtain ⟨i, hi⟩ := List.getElem?_of_mem hfound
  rw [Array.getElem?_toList] at hi
  rintro ⟨key, entry⟩ hentry
  cases entry with
  | locked slot inner => exact absurd hentry (h.unlocked ht hi key slot inner)
  | compiled | deferred => rfl

/-- **Types have the namespaces that they had.** -/
theorem nestedScope? {id : TypeId} (hinner : s.nestedScope? id = some inner) :
    t.nestedScope? id = some inner := by
  have hsteps : ∀ {steps steps' : ℕ} {id : TypeId}, steps ≤ steps' →
      s.nestedScopeWithin? steps id = some inner → t.nestedScopeWithin? steps' id = some inner := by
    intro steps
    induction steps with
    | zero =>
      intro steps' id _ hinner
      cases hinner
    | succ steps ih =>
      intro steps' id hle hinner
      cases steps' with
      | zero => exact absurd hle (Nat.not_succ_le_zero _)
      | succ steps' =>
        unfold nestedScopeWithin? at hinner ⊢
        split at hinner
        · rw [h.lockedScope? ht] at hinner
          cases hinner
        · next type htype =>
          rw [h.get? htype]
          dsimp only
          split at hinner
          · exact hinner
          · exact ih (Nat.le_of_succ_le_succ hle) hinner
          · cases hinner
  exact hsteps (Nat.succ_le_succ h.size_le) hinner

end Persists

end Wireform.Session
