/-
  Lists of named things, sorted by name. They hold the
  children of a tree node.

  Names are compared by their characters, so a list that is
  only built by `insert` is strictly ascending in its names.

  Key definitions include:
    * `Children`
    * `Children.find?`
    * `Children.insert`
-/

------------------------------------------------------------
-- Named Lists
------------------------------------------------------------

namespace HierPath

universe u

/- Things with a name each, in ascending order of name. -/
abbrev Children (α : Type u) :=
  List (String × α)

namespace Children

variable {α : Type u}

/- The thing of a name. -/
def find?
    (name : String) : Children α → Option α
  | [] => none
  | (other, a) :: rest =>
      if other = name then some a else find? name rest

/-
  Put a thing under its name, in place of a thing that has
  the name already.
-/
def insert
    (name : String)
    (a : α) : Children α → Children α
  | [] => [(name, a)]
  | (other, b) :: rest =>
      match compare name other with
      | .lt => (name, a) :: (other, b) :: rest
      | .eq => (name, a) :: rest
      | .gt => (other, b) :: insert name a rest

end Children

end HierPath
