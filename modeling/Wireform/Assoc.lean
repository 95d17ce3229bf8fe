/-!
# Association lists in insertion order

Names with values, in the order in which the names first came. Storing under a
known name keeps its place and replaces its value; a new name goes to the end.

* `keys_put`: the names after storing.
* `get?_put_self`, `get?_put_of_ne`: what is found after storing.
* `put_append`: storing behind entries that do not have the name.
-/

namespace Wireform

/-- Names with values, in insertion order. -/
abbrev Assoc (α : Type u) := List (String × α)

namespace Assoc

variable {α : Type u}

/-- The value stored under a name; the first one if the name is repeated. -/
def get? : Assoc α → String → Option α
  | [], _ => none
  | (k, v) :: rest, name => if k = name then some v else get? rest name

/-- Whether a name is present. -/
def contains (entries : Assoc α) (name : String) : Bool := (entries.get? name).isSome

/-- Stores a value: a known name keeps its place, a new one goes to the end. -/
def put : Assoc α → String → α → Assoc α
  | [], name, value => [(name, value)]
  | (k, v) :: rest, name, value =>
    if k = name then (k, value) :: rest else (k, v) :: put rest name value

/-- Removes a name. -/
def erase (entries : Assoc α) (name : String) : Assoc α :=
  entries.filter fun entry => entry.1 ≠ name

/-- The names, in order. -/
def keys (entries : Assoc α) : List String := entries.map Prod.fst

/-- Stores every entry of the second list, in its order. -/
def putAll (entries : Assoc α) (more : Assoc α) : Assoc α :=
  more.foldl (fun acc entry => acc.put entry.1 entry.2) entries

/-- Repeated names collapse: the first place, the last value. -/
def collapse (entries : Assoc α) : Assoc α := putAll [] entries

@[simp]
theorem get?_put_self (entries : Assoc α) (name : String) (value : α) :
    (entries.put name value).get? name = some value := by
  induction entries with
  | nil => simp [put, get?]
  | cons entry rest ih =>
    obtain ⟨k, v⟩ := entry
    by_cases h : k = name <;> simp [put, get?, h, ih]

theorem get?_put_of_ne (entries : Assoc α) {name other : String} (value : α) (h : other ≠ name) :
    (entries.put name value).get? other = entries.get? other := by
  induction entries with
  | nil => simp [put, get?, h.symm]
  | cons entry rest ih =>
    obtain ⟨k, v⟩ := entry
    by_cases hk : k = name
    · subst hk; simp [put, get?, h.symm]
    · simp only [put, if_neg hk, get?, ih]

/-- Storing under a known name changes no name and no order; a new name goes to the end. -/
theorem keys_put (entries : Assoc α) (name : String) (value : α) :
    (entries.put name value).keys =
      if name ∈ entries.keys then entries.keys else entries.keys ++ [name] := by
  induction entries with
  | nil => simp [put, keys]
  | cons entry rest ih =>
    obtain ⟨k, v⟩ := entry
    by_cases h : k = name
    · simp [put, keys, h]
    · simp only [keys] at ih
      by_cases hm : name ∈ List.map Prod.fst rest <;>
        simp_all [put, keys, Ne.symm h]

theorem get?_eq_none_iff (entries : Assoc α) (name : String) :
    entries.get? name = none ↔ name ∉ entries.keys := by
  induction entries with
  | nil => simp [get?, keys]
  | cons entry rest ih =>
    obtain ⟨k, v⟩ := entry
    by_cases h : k = name
    · simp [get?, keys, h]
    · simp only [keys] at ih
      simp [get?, keys, h, ih, Ne.symm h]

theorem mem_of_get? {entries : Assoc α} {name : String} {value : α}
    (h : entries.get? name = some value) : (name, value) ∈ entries := by
  induction entries with
  | nil => simp [get?] at h
  | cons entry rest ih =>
    obtain ⟨k, v⟩ := entry
    by_cases hk : k = name
    · simp [get?, hk] at h; simp [hk, h]
    · simp only [get?, if_neg hk] at h; exact List.mem_cons_of_mem _ (ih h)

theorem mem_keys {entries : Assoc α} {name : String} {value : α} (h : (name, value) ∈ entries) :
    name ∈ entries.keys := List.mem_map_of_mem (f := Prod.fst) h

/-- If no name is repeated, every entry is found under its name. -/
theorem get?_of_mem {entries : Assoc α} (hnodup : entries.keys.Nodup) {name : String} {value : α}
    (h : (name, value) ∈ entries) : entries.get? name = some value := by
  induction entries with
  | nil => cases h
  | cons entry rest ih =>
    obtain ⟨k, v⟩ := entry
    obtain ⟨hnew, hrest⟩ := List.nodup_cons.1 hnodup
    rcases List.mem_cons.1 h with heq | h
    · obtain ⟨rfl, rfl⟩ := Prod.mk.inj heq
      simp [get?]
    · have hne : k ≠ name := by
        rintro rfl
        exact hnew (mem_keys h)
      rw [get?, if_neg hne, ih hrest h]

/-- The order of entries whose names are all different is of no account. -/
theorem get?_of_perm {entries other : Assoc α} (hperm : entries.Perm other)
    (hnodup : entries.keys.Nodup) (name : String) : entries.get? name = other.get? name := by
  have hnodup' : other.keys.Nodup := (hperm.map Prod.fst).nodup_iff.1 hnodup
  cases hother : other.get? name with
  | some value => exact get?_of_mem hnodup (hperm.mem_iff.2 (mem_of_get? hother))
  | none =>
    rw [get?_eq_none_iff] at hother ⊢
    exact fun hmem => hother ((hperm.map Prod.fst).mem_iff.1 hmem)

theorem mem_put {entries : Assoc α} {name other : String} {value new : α}
    (h : (other, value) ∈ entries.put name new) :
    (other, value) ∈ entries ∨ name = other ∧ value = new := by
  induction entries with
  | nil =>
    obtain ⟨rfl, rfl⟩ := Prod.mk.inj (List.mem_singleton.1 h)
    exact Or.inr ⟨rfl, rfl⟩
  | cons entry rest ih =>
    obtain ⟨k, v⟩ := entry
    by_cases hk : k = name
    · simp only [put, if_pos hk, List.mem_cons, Prod.mk.injEq] at h
      rcases h with ⟨rfl, rfl⟩ | h
      · exact Or.inr ⟨hk.symm, rfl⟩
      · exact Or.inl (List.mem_cons_of_mem _ h)
    · simp only [put, if_neg hk, List.mem_cons] at h
      rcases h with h | h
      · exact Or.inl (by rw [h]; exact List.mem_cons_self)
      · exact (ih h).imp_left (List.mem_cons_of_mem _)

/-- What has been stored is in the one list or in the other. -/
theorem mem_putAll {entries more : Assoc α} {name : String} {value : α}
    (h : (name, value) ∈ entries.putAll more) : (name, value) ∈ entries ∨ (name, value) ∈ more := by
  induction more generalizing entries with
  | nil => exact Or.inl h
  | cons entry rest ih =>
    rcases ih h with hbefore | hrest
    · rcases mem_put hbefore with hbefore | ⟨rfl, rfl⟩
      · exact Or.inl hbefore
      · exact Or.inr List.mem_cons_self
    · exact Or.inr (List.mem_cons_of_mem _ hrest)

/-- What is stored under other names is not seen. -/
theorem get?_putAll_of_not_mem {entries more : Assoc α} {name : String} (h : name ∉ more.keys) :
    (entries.putAll more).get? name = entries.get? name := by
  induction more generalizing entries with
  | nil => rfl
  | cons entry rest ih =>
    obtain ⟨hne, hrest⟩ := List.ne_and_not_mem_of_not_mem_cons h
    exact (ih hrest).trans (get?_put_of_ne entries entry.2 hne)

/-- What is stored last under a name is found there. -/
theorem get?_putAll_append {entries front back : Assoc α} {name : String} {value : α}
    (h : name ∉ back.keys) :
    (entries.putAll (front ++ (name, value) :: back)).get? name = some value := by
  have hsplit : entries.putAll (front ++ (name, value) :: back) =
      ((entries.putAll front).put name value).putAll back := List.foldl_append
  rw [hsplit, get?_putAll_of_not_mem h, get?_put_self]

theorem get?_append (entries more : Assoc α) (name : String) :
    Assoc.get? (entries ++ more) name = (entries.get? name).or (more.get? name) := by
  induction entries with
  | nil => simp [get?]
  | cons entry rest ih =>
    obtain ⟨k, v⟩ := entry
    by_cases h : k = name <;> simp [get?, h, ih]

/-- What is stored behind entries that do not have the name leaves them alone. -/
theorem put_append {entries : Assoc α} {name : String} (h : name ∉ entries.keys)
    (more : Assoc α) (value : α) :
    Assoc.put (entries ++ more) name value = entries ++ more.put name value := by
  induction entries with
  | nil => rfl
  | cons entry rest ih =>
    obtain ⟨k, v⟩ := entry
    have hk : k ≠ name := by rintro rfl; simp [keys] at h
    have hr : name ∉ Assoc.keys rest := fun hm => h (List.mem_cons_of_mem _ hm)
    simp [put, hk, ih hr]

/-- A new name goes to the end. -/
theorem put_eq_append {entries : Assoc α} {name : String} (h : name ∉ entries.keys) (value : α) :
    entries.put name value = entries ++ [(name, value)] := by
  have hput := put_append h [] value
  rwa [List.append_nil] at hput

/-- A name that is not repeated further on is new. -/
theorem not_mem_keys_of_nodup {entries more : Assoc α} {name : String} {value : α}
    (h : (keys (entries ++ (name, value) :: more)).Nodup) : name ∉ entries.keys := by
  intro hmem
  unfold keys at h hmem
  rw [List.map_append] at h
  exact (List.nodup_append.1 h).2.2 name hmem name List.mem_cons_self rfl

/-- Entries with new names, all different, are put behind the others. -/
theorem putAll_eq_append {entries more : Assoc α} (hnodup : (keys (entries ++ more)).Nodup) :
    entries.putAll more = entries ++ more := by
  induction more generalizing entries with
  | nil => exact (List.append_nil entries).symm
  | cons entry rest ih =>
    obtain ⟨name, value⟩ := entry
    have hput := put_eq_append (not_mem_keys_of_nodup hnodup) value
    -- one entry after the other moves over
    have hassoc : entries ++ (name, value) :: rest = (entries ++ [(name, value)]) ++ rest := by
      rw [List.append_assoc]
      rfl
    rw [hassoc] at hnodup ⊢
    change putAll (entries.put name value) rest = _
    rw [hput, ih hnodup]

/-- Storing repeats no name. -/
theorem nodup_keys_putAll {entries more : Assoc α} (hnodup : entries.keys.Nodup) :
    (entries.putAll more).keys.Nodup := by
  induction more generalizing entries with
  | nil => exact hnodup
  | cons entry rest ih =>
    obtain ⟨name, value⟩ := entry
    refine ih ?_
    change (entries.put name value).keys.Nodup
    rw [keys_put]
    split
    · exact hnodup
    · next hnew =>
      refine List.nodup_append.2 ⟨hnodup, List.nodup_cons.2 ⟨List.not_mem_nil, List.nodup_nil⟩, ?_⟩
      rintro other hother _ hmem rfl
      exact hnew (List.mem_singleton.1 hmem ▸ hother)

theorem nodup_keys_collapse (entries : Assoc α) : entries.collapse.keys.Nodup :=
  nodup_keys_putAll List.nodup_nil

/-- Entries whose names are all different stay as they are. -/
theorem collapse_of_nodup {entries : Assoc α} (hnodup : entries.keys.Nodup) :
    entries.collapse = entries := by
  have hall : (keys ([] ++ entries)).Nodup := hnodup
  exact putAll_eq_append hall

end Assoc

end Wireform
