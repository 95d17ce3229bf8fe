import Wireform.Proofs.Meaning.Lookup

/-!
# References are resolved to what is read

A name leads to the slot of its node: an entry that is there stands for the node, since no
two blocks that are admitted have one text in one namespace, and if there is none the block
is compiled. So it does not matter whether a type has been compiled before, is being
compiled, or is compiled now.

* `tracks_resolveEntry`, `tracks_instantiate`: names and instances.
* `tracked_resolveType`: any reference, at any number of levels.
-/

namespace Wireform.Meaning

open Session

variable {w : Source} {owner node : Node} {s t : Session} {g g' : Legend} {home scope : ScopeId}
  {b : Bindings} {resolve : Resolver} {name : String} {α β : Type}

/-! ### More steps that track a reading -/

namespace Tracks

variable {x : Source → ℕ → Reading β} {y : Compile α} {rel : β → α → Session → Legend → Prop}

/-- What is read may be said in another way for the definitions at hand. -/
theorem of_eq {x' : Source → ℕ → Reading β} (h : Tracks w owner s g x' y rel)
    (heq : ∀ admits levels, x (w.admitting admits) levels = x' (w.admitting admits) levels) :
    Tracks w owner s g x y rel := by
  have hsame : ∀ admits, x (w.admitting admits) = x' (w.admitting admits) :=
    fun admits => funext (heq admits)
  have hself : x w = x' w := hsame w.admits
  constructor
  case gives =>
    intro a t k hrun hk hfed
    obtain ⟨b, k', g', hreads, hrest⟩ := h.gives a t k hrun hk (hself ▸ hfed)
    refine ⟨b, k', g', fun admits hcovers => ?_, hrest⟩
    dsimp only
    rw [hsame admits]
    exact hreads admits hcovers
  case stops =>
    intro stop t k hrun hk hanswered hanswers
    exact h.stops stop t k hrun hk hanswered (hself ▸ hanswers)

/-- A step that does not succeed where nothing is read. -/
theorem barren (hruns : ∀ a t, y s ≠ .ok a t)
    (h : ∀ levels k, ∃ stop k', x w levels k = .error stop k') :
    Tracks w owner s g x y rel where
  gives := fun a t _ hrun => absurd hrun (hruns a t)
  stops := fun _ _ k _ _ _ hanswers => absurd hanswers (not_answers fun levels => h levels k)

/-- Only names that do not look like the text of an instance are looked up. -/
theorem plainly (h : '<' ∉ name.toList → Tracks w owner s g x y rel) :
    Tracks w owner s g (fun w levels => Reading.plainly name (x w levels)) y rel := by
  by_cases hname : '<' ∈ name.toList
  · have hstarves : ∀ levels k, Reading.plainly name (x w levels) k = .error .outOfFuel k := by
      intro levels k
      rw [Reading.plainly, if_pos hname]
      rfl
    constructor
    case gives =>
      rintro a t k - - ⟨enough, hfed⟩
      exact absurd ⟨k, hstarves enough k⟩ (hfed enough le_rfl)
    case stops =>
      intro _ _ k _ _ _ hanswers
      exact absurd hanswers (not_answers fun levels => ⟨_, _, hstarves levels k⟩)
  · simp only [Reading.plainly, if_neg hname]
    exact h hname

/-- What is known already is not compiled again. -/
theorem known {id : TypeId} {a : α} {rel : Node → α → Session → Legend → Prop} (hs : s.Valid)
    (h : w.Follows s g) (hstands : Stands node id s g) (hrel : rel node a s g) :
    Tracks w owner s g (fun w _ => w.ask node) (Pure.pure a) rel := by
  refine .of_gives nofun ?_
  rintro _ _ k ⟨⟩ hk -
  exact ⟨node, k, g, hstands.reads_ask k, hk, .refl hs g, h, hrel⟩

end Tracks

/-! ### Folded arguments -/

theorem Bindings.folded_put (b : Bindings) (name : String) (operand : Operand) :
    Bindings.folded (b.put name operand) = Assoc.put b.folded name operand.folded := by
  induction b with
  | nil => rfl
  | cons entry rest ih =>
    obtain ⟨k, v⟩ := entry
    by_cases hk : k = name
    · simp [Assoc.put, Bindings.folded, hk]
    · simp only [Assoc.put, if_neg hk, Bindings.folded, List.map_cons] at ih ⊢
      rw [ih]

theorem Bindings.folded_putAll (b : Bindings) (parameters : List String)
    (arguments : List Operand) :
    Bindings.folded (b.putAll (parameters.zip arguments)) =
      Assoc.putAll b.folded (parameters.zip (arguments.map Operand.folded)) := by
  induction parameters generalizing b arguments with
  | nil => rfl
  | cons parameter rest ih =>
    cases arguments with
    | nil => rfl
    | cons operand operands =>
      simp only [List.zip_cons_cons, List.map_cons, Assoc.putAll, List.foldl_cons] at ih ⊢
      rw [← Bindings.folded_put, ih]

theorem templateArguments_folded (name : String) (template : Template) (arguments : List Operand) :
    templateArguments name template (arguments.map Operand.folded) =
      (templateArguments name template arguments).map (List.map Operand.folded) := by
  cases template with
  | user parameters body =>
    simp only [templateArguments, List.length_map]
    split <;> rfl
  | builtin builtin =>
    simp only [templateArguments, Builtin.fillDefaults, List.length_map, List.isEmpty_map]
    split
    · rfl
    · split <;> rfl

/-- The block of an instance, as it is compiled. -/
def rawInstance (scope : Scope) (template : Template) (arguments : List Operand) :
    BlockBody × Bindings :=
  match template with
  | .builtin builtin => (.builtin builtin arguments, [])
  | .user parameters body => (.definition body, scope.bindings.putAll (parameters.zip arguments))

/-! ### Names -/

section Names

variable (hclear : w.Clear) (hr : Tracked w resolve) (hsound : resolve.Sound) (hs : s.Valid)
  (h : w.Follows s g) (hhome : home.index < s.scopes.size)

include h hhome in
/-- A block whose text is new in its namespace has not begun. -/
theorem Source.Follows.made_eq_none {key : String} {body : BlockBody} {bindings : Bindings}
    (hnew : key ∉ (s.scope home).entries.keys) :
    g.made (.keyed (g.place home) key body bindings) = none := by
  by_contra hne
  obtain ⟨i, hi, hplace, hkey⟩ := h.labels.entered _ _ _ _ (Option.isSome_iff_ne_none.2 hne)
  obtain rfl := h.labels.places i home hi hhome hplace
  exact hnew hkey

include hclear hr hsound hs h hhome

theorem tracks_resolveEntry_type (hname : '<' ∉ name.toList)
    (hstanding : w.standing? (g.place home) name = some (.type node)) :
    Tracks w owner s g (fun w _ => w.ask node) (resolveEntry resolve home name)
      fun node r t g' => ∃ id, r = .type id ∧ Stands node id t g' := by
  unfold resolveEntry
  refine Tracks.get_bind ?_
  dsimp only
  have hentry : ∀ {entry}, (s.scope home).entries.get? name = some entry →
      g.standing entry = .type node :=
    fun he => Option.some.inj ((h.standing?_of_entry hhome hname he).symm.trans hstanding)
  split
  · next id he =>
    have hlt := (h.maps.enters home hhome name _ (Assoc.mem_of_get? he)).1
    have hid : Stands node id s g := ⟨hlt, Standing.type.inj (hentry he)⟩
    exact .known hs h hid ⟨id, rfl, hid⟩
  · next id inner he =>
    have hlt := (h.maps.enters home hhome name _ (Assoc.mem_of_get? he)).1
    have hid : Stands node id s g := ⟨hlt, Standing.type.inj (hentry he)⟩
    exact .known hs h hid ⟨id, rfl, hid⟩
  · next template he => cases hentry he
  · next hnone =>
    -- nothing is entered under the name, so the definition is compiled now
    have hnew := (Assoc.get?_eq_none_iff _ _).1 hnone
    have hdefined := (h.standing?_of_new hhome hnew).symm.trans hstanding
    split
    · next hdefinition =>
      rw [hdefinition] at hdefined
      cases hdefined
    · next parameters body hdefinition =>
      rw [hdefinition] at hdefined
      cases hdefined
    · next definition hne hdefinition =>
      rw [hdefinition, Option.map_some] at hdefined
      have hnode : node = .keyed (g.place home) name (BlockBody.definition definition).folded
          (g.place home).bindings := by
        cases definition with
        | template parameters body => exact absurd rfl (hne parameters body)
        | _ => exact (Standing.type.inj (Option.some.inj hdefined)).symm
      subst hnode
      refine Tracks.ask fun hadmits => ?_
      have hready : Ready w g home (some name) (.definition definition) (s.scope home).bindings
          (.keyed (g.place home) name (BlockBody.definition definition).folded
            (g.place home).bindings) := by
        refine ⟨?_, h.made_eq_none hhome hnew, hadmits rfl, ?_, ?_, nofun⟩
        · rw [(h.maps.suits home hhome).bindings]
          rfl
        · rintro _ ⟨⟩
          exact ⟨Or.inl ⟨_, _, rfl, hadmits rfl⟩, fun _ => hstanding⟩
        · rintro _ _ _ _ ⟨⟩
          exact ⟨rfl, rfl⟩
      refine (tracks_compileBlock hclear hr hsound hs h hhome ?_ ?_ name
        (by rintro _ _ ⟨⟩) hready).then_pure ?_
      · rintro _ ⟨⟩
        exact hnew
      · rintro _ ⟨⟩
        exact admits_of_definition home.index hdefinition
      · exact fun node id t g' _ hid => ⟨id, rfl, hid⟩

omit hclear hr hsound in
/-- A template is entered, but not compiled. -/
theorem tracks_insertTemplate {parameters : List String} {body : Definition}
    (hname : '<' ∉ name.toList) (hnew : name ∉ (s.scope home).entries.keys)
    (hdefinition : (s.scope home).definitions.get? name = some (.template parameters body)) :
    Tracks w owner s g (fun _ _ => pure ())
      (insert home name (.deferred (.user parameters body))) fun _ _ t _ =>
      (t.scope home).entries.get? name = some (.deferred (.user parameters body)) := by
  have hstanding : w.standing? (g.place home) name = some (.template (.user parameters body)) := by
    rw [h.standing?_of_new hhome hnew, hdefinition]
    rfl
  have hsound : s.Sound (insert home name (.deferred (.user parameters body))) fun _ t =>
      (t.scope home).entries.get? name = some (.deferred (.user parameters body)) := by
    refine sound_insertTemplate hs hhome _ hnew (admits_of_definition home.index hdefinition)
      fun found hfound => ?_
    obtain rfl := Option.some.inj (hdefinition.symm.trans hfound)
    trivial
  obtain ⟨scopes, hinsert, hsize, hscopes⟩ :=
    insert_eq hnew (Entry.deferred (.user parameters body))
  refine .of_gives (fun stop t herror => nomatch hinsert.symm.trans herror) ?_
  rintro _ t k hrun hk -
  obtain ⟨hadv, hentered⟩ := hsound.of_ok hrun
  obtain ⟨-, rfl⟩ := EStateM.Result.ok.inj (hinsert.symm.trans hrun)
  set t : Session := { s with scopes, journal := (home, name) :: s.journal }
  have hag : Agrees s g t g := ⟨rfl, .refl _, hsize.symm.le, fun _ _ => rfl, fun _ _ => rfl⟩
  have hscope : ∀ i : ScopeId, i.index < s.scopes.size → t.scope i =
      if home.index = i.index then
        { s.scope i with entries := (s.scope i).entries ++
          [(name, .deferred (.user parameters body))] } else s.scope i :=
    fun i hi => scope_eq (hscopes _ _ (getElem?_scopes hi))
  have hfollows : w.Follows t g := by
    refine ⟨h.options, ?_, h.describes_later hag fun _ _ => Or.inl, ?_, h.admitted.same hag rfl⟩
    · refine h.maps.later hs hag (fun i hi => ?_)
        (fun i hle hlt => absurd (hsize ▸ hlt) (Nat.not_lt_of_le hle))
        fun i hi key entry he => ?_
      · rw [hscope i hi]
        split
        · refine ⟨rfl, rfl, rfl, fun key hkey => ?_⟩
          rw [Assoc.keys, List.map_append]
          exact List.mem_append_left _ hkey
        · exact .refl _
      · have hi : i.index < s.scopes.size := hsize ▸ hi
        rw [hscope i hi] at he
        split at he
        · next heq =>
          rcases List.mem_append.1 he with he | he
          · exact Or.inl ⟨hi, he⟩
          · obtain ⟨rfl, rfl⟩ := Prod.mk.inj (List.mem_singleton.1 he)
            obtain rfl : home = i := congrArg ScopeId.mk heq
            exact Or.inr ⟨hname, hstanding⟩
        · exact Or.inl ⟨hi, he⟩
    · refine h.labels.later hag (fun i hi key hkey => ?_) (fun _ k hk => ⟨k, le_rfl, hk⟩)
        (fun _ => Or.inl)
        (fun _ _ => Iff.rfl) (fun id hle hlt => absurd hlt (Nat.not_lt_of_le hle))
        fun i hle hlt => absurd (hsize ▸ hlt) (Nat.not_lt_of_le hle)
      rw [hscope i hi]
      split
      · rw [Assoc.keys, List.map_append]
        exact List.mem_append_left _ hkey
      · exact hkey
  have hcont : Continues owner s g t g :=
    ⟨hadv, fun _ _ => rfl, fun _ _ => rfl, fun _ _ _ => rfl, fun k hk => ⟨k, le_rfl, hk⟩,
      fun id hle hlt => absurd hlt (Nat.not_lt_of_le hle)⟩
  exact ⟨(), k, g, fun _ _ => .pure () k, hk, hcont, hfollows, hentered⟩

omit hclear hr hsound in
theorem tracks_resolveEntry_template (resolve : Resolver) (hname : '<' ∉ name.toList)
    {template : Template}
    (hstanding : w.standing? (g.place home) name = some (.template template)) :
    Tracks w owner s g (fun _ _ => pure ()) (resolveEntry resolve home name) fun _ r t _ =>
      r = .template template ∧ (t.scope home).entries.get? name = some (.deferred template) := by
  unfold resolveEntry
  refine Tracks.get_bind ?_
  dsimp only
  have hentry : ∀ {entry}, (s.scope home).entries.get? name = some entry →
      g.standing entry = .template template :=
    fun he => Option.some.inj ((h.standing?_of_entry hhome hname he).symm.trans hstanding)
  split
  · next id he => cases hentry he
  · next id inner he => cases hentry he
  · next found he =>
    obtain rfl := Standing.template.inj (hentry he)
    exact .pure hs h ⟨rfl, he⟩
  · next hnone =>
    have hnew := (Assoc.get?_eq_none_iff _ _).1 hnone
    have hdefined := (h.standing?_of_new hhome hnew).symm.trans hstanding
    split
    · next hdefinition =>
      rw [hdefinition] at hdefined
      cases hdefined
    · next parameters body hdefinition =>
      rw [hdefinition] at hdefined
      obtain rfl := Standing.template.inj (Option.some.inj hdefined)
      exact (tracks_insertTemplate hs h hhome hname hnew hdefinition).then_pure
        fun _ _ _ _ _ he => ⟨rfl, he⟩
    · next definition hne hdefinition =>
      rw [hdefinition, Option.map_some] at hdefined
      cases definition with
      | template parameters body => exact absurd rfl (hne parameters body)
      | _ => cases hdefined

omit hclear hr hsound hs in
/-- What stands for a type is resolved to one. -/
theorem type_of_resolveEntry (hname : '<' ∉ name.toList)
    (hstanding : w.standing? (g.place home) name = some (.type node)) {r : Resolved}
    (hrun : resolveEntry resolve home name s = .ok r t) : ∃ id, r = .type id := by
  have hentry : ∀ {entry}, (s.scope home).entries.get? name = some entry →
      g.standing entry = .type node :=
    fun he => Option.some.inj ((h.standing?_of_entry hhome hname he).symm.trans hstanding)
  unfold resolveEntry at hrun
  obtain ⟨_, _, hget, hrun⟩ := exists_of_bind_ok hrun
  obtain ⟨rfl, rfl⟩ := EStateM.Result.ok.inj hget
  cases hnone : (s.scope home).entries.get? name with
  | some entry =>
    have hstands := hentry hnone
    simp only [hnone] at hrun
    cases entry with
    | compiled id | locked id inner => exact ⟨id, (EStateM.Result.ok.inj hrun).1.symm⟩
    | deferred template => cases hstands
  | none =>
    have hdefined :=
      (h.standing?_of_new hhome ((Assoc.get?_eq_none_iff _ _).1 hnone)).symm.trans hstanding
    cases hdefinition : (s.scope home).definitions.get? name with
    | none =>
      simp only [hnone, hdefinition] at hrun
      cases hrun
    | some definition =>
      rw [hdefinition] at hdefined
      simp only [hnone, hdefinition] at hrun
      cases definition with
      | template parameters body => cases hdefined
      | _ =>
        obtain ⟨id, _, -, hlast⟩ := exists_of_bind_ok hrun
        exact ⟨id, (EStateM.Result.ok.inj hlast).1.symm⟩

/-! ### Instances -/

omit h hs hr hclear hsound hhome in
theorem Source.Follows.instance_folded (h : w.Follows s g) (hhome : home.index < s.scopes.size)
    (template : Template) (arguments : List Operand) :
    instanceOf (g.place home) template (arguments.map Operand.folded) =
      ((rawInstance (s.scope home) template arguments).1.folded,
        Bindings.folded (rawInstance (s.scope home) template arguments).2) := by
  cases template with
  | builtin builtin => rfl
  | user parameters body =>
    simp only [instanceOf, rawInstance, Bindings.folded_putAll, (h.maps.suits home hhome).bindings]

omit hclear hr hsound hs h hhome in
/-- What is entered under the text of an instance is the instance. -/
theorem node_of_key (hclear : w.Clear) {key : String} {arguments : List Operand}
    {template : Template} {body : BlockBody} {bindings : Bindings}
    (hentered : (s.scope home).entries.get? name = some (.deferred template))
    (hkey : instanceKey? name arguments = some key)
    (hadmits : w.admits (.keyed (g.place home) key body bindings))
    (hne : (s.scope home).entries.get? key ≠ some (.deferred template))
    (hnamed : w.Named (g.place home) key node) :
    node = .keyed (g.place home) key body bindings := by
  rcases hnamed.made with ⟨body', bindings', rfl, hadmits'⟩ | hstandard
  · obtain ⟨rfl, rfl⟩ := hclear.apart _ _ _ _ _ _ hadmits hadmits'
    rfl
  · -- a standard name has no arguments, and under a name without arguments there is the template
    obtain ⟨-, hcontains⟩ := contains_of_standard? (by rw [hstandard]; rfl)
    by_cases hnil : arguments = []
    · subst hnil
      obtain rfl := Option.some.inj hkey
      exact absurd hentered hne
    · exact absurd (mem_of_instanceKey? hnil hkey) (plain_of_standard hcontains)

/-- A new instance is compiled under its text. -/
theorem tracks_newInstance {key : String} {body : BlockBody} {bindings : Bindings}
    (hnew : key ∉ (s.scope home).entries.keys) (hplain : '<' ∈ key.toList)
    (hadmits : w.admits (.keyed (g.place home) key body.folded bindings.folded))
    (hbuiltin : ∀ builtin arguments, body = .builtin builtin arguments → bindings = [])
    (ident : String) :
    Tracks w owner s g (fun w _ => w.ask (.keyed (g.place home) key body.folded bindings.folded))
      (compileBlock resolve home (some key) ident body bindings) Stands := by
  have hready : Ready w g home (some key) body bindings
      (.keyed (g.place home) key body.folded bindings.folded) := by
    refine ⟨rfl, h.made_eq_none hhome hnew, hadmits, ?_, ?_, nofun⟩
    · rintro _ ⟨⟩
      exact ⟨Or.inl ⟨_, _, rfl, hadmits⟩, fun hname => absurd hplain hname⟩
    · rintro _ _ _ _ ⟨⟩
      exact ⟨rfl, rfl⟩
  refine tracks_compileBlock hclear hr hsound hs h hhome ?_ ?_ ident hbuiltin hready
  · rintro _ ⟨⟩
    exact hnew
  · rintro _ ⟨⟩
    exact Or.inr (Or.inr hplain)

/-- **An instance is known by its text, or compiled now.** -/
theorem tracks_instantiate {template : Template}
    (hentered : (s.scope home).entries.get? name = some (.deferred template))
    (arguments : List Operand) :
    Tracks w owner s g
      (fun w _ => w.instantiate owner (g.place home) name template (arguments.map Operand.folded))
      (instantiate resolve home name template arguments) Stands := by
  unfold Session.instantiate Source.instantiate
  simp only [templateArguments_folded]
  refine Tracks.orFail_bind (fun error herror => .refused fun levels k => ?_)
    fun taken htaken => Tracks.get_bind ?_
  · rw [herror]
    exact ⟨_, _, rfl⟩
  simp only [htaken, Except.map, Reading.orFail, pure_bind, instanceKey?_folded,
    h.instance_folded hhome]
  generalize hraw : rawInstance (s.scope home) template taken = raw
  have hbuiltin : ∀ builtin arguments, raw.1 = .builtin builtin arguments → raw.2 = [] := by
    rw [← hraw]
    cases template with
    | builtin builtin => exact fun _ _ _ => rfl
    | user parameters body => rintro _ _ ⟨⟩
  cases hkey : instanceKey? name taken with
  | none =>
    refine Tracks.next hs h fun k hk hcounted => Tracks.ask fun hadmits => ?_
    have htracks : Tracks w owner s (g.count owner) _
        (compileBlock resolve home none (instanceText name taken) raw.1 raw.2) Stands :=
      tracks_compileBlock hclear hr hsound hs hcounted hhome (by rintro _ ⟨⟩) (by rintro _ ⟨⟩)
        (instanceText name taken) hbuiltin (h.ready_loose hk home raw.1 raw.2 (hadmits rfl))
    subst hraw
    cases template <;> exact htracks
  | some key =>
    refine Tracks.ask fun hadmits => ?_
    have hadmitted := hadmits rfl
    have hknown : ∀ {id : TypeId}, id.index < s.arena.size →
        (s.scope home).entries.get? key ≠ some (.deferred template) →
        w.Named (g.place home) key (g.node id) →
        Stands (.keyed (g.place home) key raw.1.folded (Bindings.folded raw.2)) id s g :=
        fun hlt hne hnamed =>
      ⟨hlt, node_of_key hclear hentered hkey hadmitted hne hnamed⟩
    simp only [Option.bind_some]
    split
    · next id he =>
      have henters := h.maps.enters home hhome key _ (Assoc.mem_of_get? he)
      have hid := hknown henters.1 (by rw [he]; nofun) henters.2
      exact .known hs h hid hid
    · next id inner he =>
      have henters := h.maps.enters home hhome key _ (Assoc.mem_of_get? he)
      have hid := hknown henters.1 (by rw [he]; nofun) henters.2.1
      exact .known hs h hid hid
    · next found he =>
      -- what is known as a template is no block
      obtain ⟨hplain, hstanding⟩ := h.maps.enters home hhome key _ (Assoc.mem_of_get? he)
      refine .excluded (fun hanswered => hanswered.named _ key _ _ hadmitted hplain) fun htype => ?_
      rw [hstanding] at htype
      cases htype
    · next hnone =>
      have hnew := (Assoc.get?_eq_none_iff _ _).1 hnone
      have hplain : '<' ∈ key.toList := by
        refine mem_of_instanceKey? ?_ hkey
        rintro rfl
        obtain rfl := Option.some.inj hkey
        rw [hentered] at hnone
        cases hnone
      have htracks : Tracks w owner s g _
          (compileBlock resolve home (some key) (instanceText name taken) raw.1 raw.2) Stands :=
        tracks_newInstance hclear hr hsound hs h hhome hnew hplain hadmitted hbuiltin _
      subst hraw
      cases template <;> exact htracks

omit hhome

theorem tracks_resolveInstance (hscope : scope.index < s.scopes.size) (name : String)
    (arguments : List Operand) (localOnly : Bool) :
    Tracks w owner s g
      (fun w _ => w.resolveInstance owner (g.place scope) name
        (arguments.map Operand.folded) localOnly)
      (resolveInstance resolve scope name arguments localOnly) Stands := by
  refine Tracks.plainly fun hname => Tracks.get_bind ?_
  have hhome? := h.home?_eq hs hname hscope localOnly
  cases hfound : s.lookup? scope name localOnly with
  | none =>
    rw [hfound, Option.map_none] at hhome?
    refine .refused fun levels k => ?_
    rw [← hhome?]
    exact ⟨_, _, rfl⟩
  | some home =>
    rw [hfound, Option.map_some] at hhome?
    obtain ⟨hhome, standing, hstanding⟩ := h.standing?_isSome hs hname hscope hfound
    cases standing with
    | type node =>
      -- a type takes no arguments
      refine .barren (fun a u hrun => ?_) fun levels k => ?_
      · obtain ⟨r, t, hentry, hlast⟩ := exists_of_bind_ok hrun
        obtain ⟨id, rfl⟩ := type_of_resolveEntry h hhome hname hstanding hentry
        cases hlast
      · simp only [← hhome?, hstanding]
        exact ⟨_, _, rfl⟩
    | template template =>
      refine Tracks.of_eq (?_ : Tracks w owner s g
        (fun w _ => w.instantiate owner (g.place home) name template (arguments.map Operand.folded))
        _ Stands)
        fun admits _ => by
        simp only [Source.home?_admitting, Source.standing?_admitting, ← hhome?, hstanding]
      refine (tracks_resolveEntry_template hs h hhome resolve hname hstanding).step ?_
      rintro r t g' hcont hfollows ⟨rfl, hentered⟩
      rw [← hcont.place home hhome]
      exact tracks_instantiate hclear hr hsound hcont.advances.valid hfollows
        (hcont.advances.scope_lt hhome)
        hentered arguments

theorem tracks_resolveName (hscope : scope.index < s.scopes.size) (name : String)
    (arguments : Option (List Operand)) (localOnly : Bool) :
    Tracks w owner s g
      (fun w _ => w.resolveName owner (g.place scope) name
        (arguments.map (List.map Operand.folded)) localOnly)
      (resolveName resolve scope name arguments localOnly) Stands := by
  cases arguments with
  | some arguments =>
    exact tracks_resolveInstance hclear hr hsound hs h hscope name arguments localOnly
  | none =>
    refine Tracks.plainly fun hname => Tracks.get_bind ?_
    have hhome? := h.home?_eq hs hname hscope localOnly
    cases hfound : s.lookup? scope name localOnly with
    | none =>
      rw [hfound, Option.map_none] at hhome?
      refine .refused fun levels k => ?_
      rw [← hhome?]
      exact ⟨_, _, rfl⟩
    | some home =>
      rw [hfound, Option.map_some] at hhome?
      obtain ⟨hhome, standing, hstanding⟩ := h.standing?_isSome hs hname hscope hfound
      rcases standing with node | parameters | builtin
      · refine Tracks.of_eq (?_ : Tracks w owner s g (fun w _ => w.ask node) _ Stands)
          fun admits _ => by
          simp only [Source.home?_admitting, Source.standing?_admitting, ← hhome?, hstanding]
        refine (tracks_resolveEntry_type hclear hr hsound hs h hhome hname hstanding).andThen ?_
        rintro node r t g' hcont hfollows ⟨id, rfl, hid⟩
        exact .pure hcont.advances.valid hfollows hid
      · refine (tracks_resolveEntry_template hs h hhome resolve hname hstanding).step ?_
        rintro r t g' hcont hfollows ⟨rfl, -⟩
        refine .refused fun levels k => ?_
        simp only [← hhome?, hstanding]
        exact ⟨_, _, rfl⟩
      · refine Tracks.of_eq (?_ : Tracks w owner s g
          (fun w _ => w.resolveInstance owner (g.place scope) name [] localOnly) _ Stands)
          fun admits _ => by
          simp only [Source.home?_admitting, Source.standing?_admitting, ← hhome?, hstanding]
        refine (tracks_resolveEntry_template hs h hhome resolve hname hstanding).step ?_
        rintro r t g' hcont hfollows ⟨rfl, -⟩
        rw [← hcont.place scope hscope]
        exact tracks_resolveInstance hclear hr hsound hcont.advances.valid hfollows
          (hcont.advances.scope_lt hscope)
          name [] localOnly

/-! ### References -/

theorem tracks_resolvePath (hscope : scope.index < s.scopes.size) {whole : TypeRef} (b : Bindings)
    (localOnly : Bool) {segments : List PathSegment}
    (hwhole : 1 < segments.length → Excused (.failure (.undefinedType whole.describe))) :
    Tracks w owner s g
      (fun w levels => w.resolvePath (w.oracle levels) owner b.folded (g.place scope) localOnly
        (foldedSegments segments))
      (resolvePath resolve whole b scope localOnly segments) Stands := by
  induction segments generalizing s g scope localOnly with
  | nil =>
    simp only [foldedSegments]
    exact .refused fun _ _ => ⟨_, _, rfl⟩
  | cons segment rest ih =>
    obtain ⟨name, arguments⟩ := segment
    simp only [foldedSegments]
    unfold Session.resolvePath Source.resolvePath
    refine (tracks_evaluateArguments hr hs h hscope rfl arguments).bind
      fun _ arguments t g' hcont hfollows heq => ?_
    subst heq
    rw [← hcont.place scope hscope]
    refine (tracks_resolveName hclear hr hsound hcont.advances.valid hfollows
      (hcont.advances.scope_lt hscope) name
      arguments localOnly).bind fun node id u g'' hcont' hfollows' hid => ?_
    cases rest with
    | nil =>
      simp only [foldedSegments]
      exact .pure hcont'.advances.valid hfollows' hid
    | cons second rest =>
      dsimp only
      refine Tracks.get_bind ?_
      cases hinner : u.nestedScope? id with
      | none => exact .fail fun _ _ _ _ => hwhole (Nat.succ_lt_succ (Nat.zero_lt_succ _))
      | some inner =>
        obtain ⟨hlt, hnested⟩ := hfollows'.nested? hinner
        rw [hid.2] at hnested
        refine (ih hcont'.advances.valid hfollows' hlt true
          fun hlong => hwhole (Nat.lt_succ_of_lt hlong)).congr
          hfollows' (hnested.map fun w hnested => ?_)
        obtain ⟨enough, hnested⟩ := hnested
        refine ⟨enough, fun levels hlevels => ?_⟩
        obtain ⟨name', arguments'⟩ := second
        simp only [foldedSegments, hnested levels hlevels]

omit hclear hr hsound hs h in
/-- The bound of an array is that of its node. -/
theorem Source.Follows.bounds_array (h : w.Follows s g) {id : TypeId} (hid : Stands node id s g)
    (position size : ℕ) (nullable : Bool) :
    w.Under s g fun w =>
      w.Bounds (.array owner position node size nullable)
        (arrayType s.arena id size nullable).maxSize := by
  have hbounds := h.bounds id
  rw [hid.2] at hbounds
  refine hbounds.map fun w hbounds => ?_
  have helements := hbounds.times size
  have hbound : w.Sketched (arrayType s.arena id size nullable).maxSize
      fun o => arrayBound (o.size node) size nullable := by
    cases nullable with
    | true => exact helements.add (.refl _)
    | false => exact helements
  obtain ⟨enough, hbound⟩ := hbound
  refine ⟨enough + 1, fun levels hlevels => ?_⟩
  obtain ⟨levels, rfl⟩ := Nat.exists_eq_add_of_le' (Nat.le_trans (Nat.le_add_left 1 enough) hlevels)
  exact hbound levels (Nat.le_of_succ_le_succ hlevels)

omit hclear hr hsound in
/-- An array of fixed length gets the next slot. -/
theorem tracks_pushArray {id : TypeId} (hid : Stands node id s g) (size : ℕ) (nullable : Bool) :
    Tracks w owner s g (fun _ _ => do
        let position ← Reading.next
        return Node.array owner position node size nullable)
      (push (arrayType s.arena id size nullable)) Stands := by
  refine Tracks.next hs h fun k hk hcounted => ?_
  refine .of_gives nofun ?_
  rintro found t j hrun hj -
  have hadv : Advances s t := by
    obtain ⟨-, rfl⟩ := EStateM.Result.ok.inj hrun
    exact advances_push hs (holds_arrayType hid.1 size nullable)
  obtain ⟨rfl, ht⟩ := EStateM.Result.ok.inj hrun
  have harena : t.arena = (s.arena.push (arrayType s.arena id size nullable)).2 := by subst ht; rfl
  have hscopes : t.scopes = s.scopes := by rw [← ht]
  have hempty : t.emptyTuple = s.emptyTuple := by rw [← ht]
  have hsize : t.arena.size = s.arena.size + 1 := by rw [harena, Arena.size_push]
  let g' := (g.count owner).put ⟨s.arena.size⟩ (.array owner k node size nullable)
  have hcont : Continues owner s (g.count owner) t g' := .put hadv hsize nofun
  refine ⟨.array owner k node size nullable, j, g', fun _ _ => .pure _ j, hj, hcont, ?_,
    hsize ▸ Nat.lt_succ_self _, Legend.put_self _ _ _⟩
  refine hcounted.push hs hcont.agrees harena hscopes (fun _ k hk => ⟨k, le_rfl, hk⟩)
    (fun _ => Or.inl)
    (fun _ _ => by rw [hempty]) ?_ ?_ ?_
  · refine ⟨rfl, fun old hold heq => ?_, fun hblock => ?_, fun _ _ _ _ _ heq => ?_,
      iff_of_false (fun heq => ?_) ?_⟩
    · -- no older array has this number
      rw [Legend.put_self] at heq
      obtain ⟨made, hmade, hlt⟩ := h.labels.arrays old hold _ _ _ _ _ heq
      obtain rfl := Option.some.inj (hk.symm.trans hmade)
      exact Nat.lt_irrefl _ hlt
    · rw [Legend.put_self] at hblock
      cases hblock
    · rw [Legend.put_self] at heq
      obtain ⟨rfl, rfl, -, -, -⟩ := Node.array.inj heq
      exact ⟨k + 1, g.count_made owner hk, Nat.lt_succ_self k⟩
    · rw [Legend.put_self] at heq
      cases heq
    · rw [hempty]
      exact next_ne_emptyTuple hs
  · rw [Legend.put_self]
    have hag := ((Continues.count hs g owner).trans hcont).agrees
    have hid' : Stands node id t _ := hid.later hag
    exact ⟨nofun, hag.under (h.bounds_array hid k size nullable),
      .array hid'.1 hid'.2 _, nofun, nofun⟩
  · rw [Legend.put_self]
    exact nofun

omit hclear hsound in
theorem tracks_compileArray (hscope : scope.index < s.scopes.size) (b : Bindings)
    (element : TypeRef) (size : Expr) :
    Tracks w owner s g
      (fun w levels => resolveArray (w.oracle levels) owner (g.place scope) b.folded element.folded
        (foldedExpr size (foldedTokens size)))
      (compileArray resolve scope element size b) Stands := by
  rw [compileArray_eq]
  unfold resolveArray
  simp only [TypeRef.folded_substitute, TypeRef.folded_nullable]
  refine (tracks_evaluate hr hs h hscope rfl size).bind fun _ operand t g' hcont hfollows heq => ?_
  subst heq
  simp only [toSize_folded]
  refine Tracks.orFail_bind (fun error herror => .refused fun levels k => ?_) fun n hn => ?_
  · rw [herror]
    exact ⟨_, _, rfl⟩
  simp only [hn, Reading.orFail, pure_bind]
  rw [← hcont.place scope hscope]
  refine (hr owner t g' scope _ b hcont.advances.valid hfollows
    (hcont.advances.scope_lt hscope)).bind
    fun node id u g'' hcont' hfollows' hid => Tracks.get_bind ?_
  exact tracks_pushArray hcont'.advances.valid hfollows' hid n _

theorem tracks_resolveStep (hscope : scope.index < s.scopes.size) (r : TypeRef) (b : Bindings) :
    Tracks w owner s g
      (fun w levels => w.resolveStep (w.oracle levels) owner (g.place scope) r.folded b.folded)
      (resolveStep resolve scope r b) Stands := by
  unfold Session.resolveStep Source.resolveStep
  rw [TypeRef.folded_substitute]
  generalize r.substitute b = r
  obtain ⟨kind, nullable⟩ := r
  dsimp only
  cases kind with
  | parameter name =>
    simp only [TypeRef.folded]
    split
    · exact .refused fun _ _ => ⟨_, _, rfl⟩
    · exact .refused fun _ _ => ⟨_, _, rfl⟩
  | inline body =>
    simp only [TypeRef.folded]
    exact tracks_resolveInline hclear hr hsound hs h hscope _ body
  | array element size =>
    simp only [TypeRef.folded]
    exact tracks_compileArray hr hs h hscope b element size
  | path segments =>
    simp only [TypeRef.folded]
    exact tracks_resolvePath hclear hr hsound hs h hscope b false (.path segments nullable)
  | named name arguments =>
    simp only [TypeRef.folded]
    refine (tracks_evaluateArguments hr hs h hscope rfl arguments).bind
      fun _ arguments t g' hcont hfollows heq => ?_
    subst heq
    rw [← hcont.place scope hscope]
    exact tracks_resolveName hclear hr hsound hcont.advances.valid hfollows
      (hcont.advances.scope_lt hscope) name
      arguments false

end Names

/-- **Any reference, at any number of levels.** -/
theorem tracked_resolveType (hclear : w.Clear) (levels : ℕ) : Tracked w (resolveType levels) := by
  induction levels with
  | zero =>
    intro owner s g scope r b hs h hscope
    refine ⟨nofun, ?_⟩
    rintro _ _ _ ⟨⟩ - - -
    exact .levels
  | succ levels ih =>
    intro owner s g scope r b hs h hscope
    exact Tracks.of_succ (tracks_resolveStep hclear ih (sound_resolveType levels) hs h hscope r b)

end Wireform.Meaning
