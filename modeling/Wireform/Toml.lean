import Wireform.Assoc

/-!
# TOML values

What a settings file says: strings, integers, booleans, tables, and other values
that are read but not used.

A table comes about by a header, by a longer header that passes through it, or by a
dotted key. Only one that was merely passed through may still get a header of its
own, and only one made by dotted keys takes further dotted keys.

* `Toml.define?`: one more setting under a dotted key; nothing may be set twice.
* `Toml.openTable?`: one more table header.
-/

namespace Wireform

/-- How a table came about. -/
inductive TableOrigin where
  | header
  /-- A longer header passed through it. -/
  | passage
  | dottedKey
deriving DecidableEq

/-- A TOML value. -/
inductive Toml where
  | string (text : String)
  | integer (value : Int)
  | boolean (value : Bool)
  /-- A float, a date or a time. -/
  | scalar (text : String)
  | array (items : List Toml)
  /-- A table in braces; nothing is added to it. -/
  | record (entries : List (String × Toml))
  /-- The tables of a repeated header, the last one in front. -/
  | tables (items : List (List (String × Toml)))
  | table (origin : TableOrigin) (entries : List (String × Toml))

namespace Toml

/-- Sets a dotted key in a table, given whether a setting may go into the table itself. -/
def define? : Bool → List String → Toml → Assoc Toml → Option (Assoc Toml)
  | _, [], _, _ => none
  | isOpen, [key], value, entries =>
    if isOpen && !entries.contains key then some (entries.put key value) else none
  | _, key :: path, value, entries =>
    match entries.get? key with
    | none =>
      (define? true path value []).map fun inner => entries.put key (.table .dottedKey inner)
    | some (.table .dottedKey inner) =>
      (define? true path value inner).map fun inner => entries.put key (.table .dottedKey inner)
    | some (.table .passage inner) =>
      (define? false path value inner).map fun inner => entries.put key (.table .passage inner)
    | some (.tables (last :: before)) =>
      (define? false path value last).map fun last => entries.put key (.tables (last :: before))
    | some _ => none

/-- Changes the table at a path; tables on the way are made if they are missing. -/
def change? (change : Assoc Toml → Option (Assoc Toml)) :
    List String → Assoc Toml → Option (Assoc Toml)
  | [], entries => change entries
  | key :: path, entries =>
    match entries.get? key with
    | none =>
      (change? change path []).map fun inner => entries.put key (.table .passage inner)
    | some (.table origin inner) =>
      (change? change path inner).map fun inner => entries.put key (.table origin inner)
    | some (.tables (last :: before)) =>
      (change? change path last).map fun last => entries.put key (.tables (last :: before))
    | some _ => none

/-- Opens a table under a key. -/
def openTable? (key : String) (entries : Assoc Toml) : Option (Assoc Toml) :=
  match entries.get? key with
  | none => some (entries.put key (.table .header []))
  | some (.table .passage inner) => some (entries.put key (.table .header inner))
  | some _ => none

/-- Opens one more table of a repeated header under a key. -/
def openRepeated? (key : String) (entries : Assoc Toml) : Option (Assoc Toml) :=
  match entries.get? key with
  | none => some (entries.put key (.tables [[]]))
  | some (.tables items) => some (entries.put key (.tables ([] :: items)))
  | some _ => none

end Toml

end Wireform
