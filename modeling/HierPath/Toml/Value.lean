/-
  The data of a TOML document.

  A document is a table of named values. Tables come about
  in four ways, and the way decides what may be added to a
  table later on. Numbers and moments are kept without
  their value, as far as nobody asks for it.

  Key definitions include:
    * `Toml.Origin`
    * `Toml.Value`
    * `Toml.Fields`
    * `Toml.Fields.put`
    * `Toml.Fields.change`
    * `Toml.Fields.startTable?`
    * `Toml.Fields.closeTable`
    * `Toml.Fields.closeElement`
-/

------------------------------------------------------------
-- Values
------------------------------------------------------------

namespace HierPath

namespace Toml

/-
  How a table came about: by a header of its own, as part
  of the way in a longer header, as part of a dotted key,
  or between braces.
-/
inductive Origin where
  | header
  | implied
  | dotted
  | inlined
deriving DecidableEq

/-
  A value. A number is kept as it is written, and a list of
  tables that have one header in common is a kind of its
  own.
-/
inductive Value where
  | text (value : String)
  | boolean (value : Bool)
  | integer (value : Int)
  | decimal (written : String)
  | moment (written : String)
  | array (elements : List Value)
  | table (origin : Origin) (fields : List (String × Value))
  | tables (elements : List (List (String × Value)))

/- The named values of a table. -/
abbrev Fields :=
  List (String × Value)

end Toml

end HierPath

------------------------------------------------------------
-- Adding Named Values
------------------------------------------------------------

namespace HierPath

namespace Toml

namespace Fields

/- Give a name a value, in place of the one it has. -/
def replace
    (fields : Fields)
    (name : String)
    (value : Value) : Fields :=
  match fields with
  | [] => [(name, value)]
  | (other, old) :: rest =>
      if other = name then
        (name, value) :: rest
      else
        (other, old) :: replace rest name value

/- Put changed fields in the last table of a list. -/
def replaceLast
    (elements : List Fields)
    (fields : Fields) : List Fields :=
  elements.dropLast ++ [fields]

/-
  Set a dotted key. The names before the last one are the
  way to the table that gets the value. The way makes the
  tables that are missing, may pass tables that are part of
  a way already, and has to end in a table that was made by
  a dotted key. No name is given a value twice.
-/
def put
    (fields : Fields)
    (name : String)
    (value : Value) : List String → Option Fields
  | [] =>
      match fields.lookup name with
      | none => some (fields ++ [(name, value)])
      | some _ => none
  | key :: way =>
      match fields.lookup key with
      | none => do
          let inner ← put [] name value way
          return fields ++ [(key, .table .dotted inner)]
      | some (.table .dotted inner) => do
          let inner ← put inner name value way
          return fields.replace key (.table .dotted inner)
      | some (.table .implied inner) =>
          if way.isEmpty then
            none
          else do
            let inner ← put inner name value way
            return fields.replace key (.table .implied inner)
      | some (.tables elements) =>
          if way.isEmpty then
            none
          else do
            let last := elements.getLast?.getD []
            let inner ← put last name value way
            return fields.replace key
              (.tables (replaceLast elements inner))
      | some _ => none

/-
  Go down the way of a header and change the fields at its
  end. Tables that are missing are made; a list of tables
  stands for its last one.
-/
def change
    (fields : Fields)
    (edit : Fields → Option Fields) :
    List String → Option Fields
  | [] => edit fields
  | key :: way =>
      match fields.lookup key with
      | none => do
          let inner ← change [] edit way
          return fields ++ [(key, .table .implied inner)]
      | some (.table .inlined _) => none
      | some (.table origin inner) => do
          let inner ← change inner edit way
          return fields.replace key (.table origin inner)
      | some (.tables elements) => do
          let last := elements.getLast?.getD []
          let inner ← change last edit way
          return fields.replace key
            (.tables (replaceLast elements inner))
      | some _ => none

/-
  The fields of the table at the end of a way, if there is
  one, and nothing if the way is blocked.
-/
def inside
    (fields : Fields) : List String → Option Fields
  | [] => some fields
  | key :: way =>
      match fields.lookup key with
      | none => some []
      | some (.table .inlined _) => none
      | some (.table _ inner) => inside inner way
      | some (.tables elements) =>
          inside (elements.getLast?.getD []) way
      | some _ => none

end Fields

end Toml

end HierPath

------------------------------------------------------------
-- Headers
------------------------------------------------------------

namespace HierPath

namespace Toml

namespace Fields

/-
  The fields that a table has when its header is met. Only
  a table that was part of the way of another header may
  get a header of its own.
-/
def startTable?
    (fields : Fields)
    (way : List String)
    (name : String) : Option Fields := do
  let outer ← fields.inside way
  match outer.lookup name with
  | none => some []
  | some (.table .implied inner) => some inner
  | some _ => none

/-
  A list of tables can be met under a name: there is one
  already, or the name is free.
-/
def startsList
    (fields : Fields)
    (way : List String)
    (name : String) : Bool :=
  match fields.inside way with
  | none => false
  | some outer =>
      match outer.lookup name with
      | none => true
      | some (.tables _) => true
      | some _ => false

/- Close a table: put its fields where its header says. -/
def closeTable
    (fields : Fields)
    (way : List String)
    (name : String)
    (inner : Fields) : Option Fields :=
  fields.change
    (fun outer => some (outer.replace name (.table .header inner)))
    way

/- Close a table as the last one of a list of tables. -/
def closeElement
    (fields : Fields)
    (way : List String)
    (name : String)
    (inner : Fields) : Option Fields :=
  fields.change
    (fun outer =>
      match outer.lookup name with
      | none => some (outer ++ [(name, .tables [inner])])
      | some (.tables elements) =>
          some (outer.replace name (.tables (elements ++ [inner])))
      | some _ => none)
    way

end Fields

end Toml

end HierPath
