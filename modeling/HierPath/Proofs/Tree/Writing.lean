import HierPath.Tree.Basic
import HierPath.Proofs.Tree.Children

/-
  Laws of looking up, writing and grafting in trees.

  A tree is seen as the values that lists of names lead to.
  A write changes this view at one list of names. Writing
  in a subtree and grafting the result is the same as
  writing from the top, so every change of a tree is a
  series of writes.

  Key definitions include:
    * `Tree.valueAt`
    * `Tree.lastValue`

  Key theorems include:
    * `Tree.descend?_append`
    * `Tree.get_eq`
    * `Tree.contains_eq`
    * `Tree.valueAt_write`
    * `Tree.valueAt_addAll`
    * `Tree.previous_write`
    * `Tree.write_append`
    * `Tree.graft_write`
    * `Tree.assign_eq`
-/

------------------------------------------------------------
-- Looking Up
------------------------------------------------------------

namespace HierPath

universe u

namespace Tree

variable {V : Type u}

/- The value that a list of names leads to. -/
def valueAt
    (tree : Tree V)
    (names : List String) : Option V :=
  (tree.descend? names).bind item

/- No name leads to the tree itself. -/
@[simp] theorem descend?_nil
    (tree : Tree V) :
    tree.descend? [] = some tree := by
  cases tree
  rfl

/- The first name leads to a child. -/
theorem descend?_cons
    (tree : Tree V)
    (name : String)
    (rest : List String) :
    tree.descend? (name :: rest) =
      (tree.child? name).bind fun child =>
        child.descend? rest := by
  cases tree with
  | node path item named =>
      rw [descend?, child?, children]
      cases Children.find? name named <;> rfl

/- No name leads to nothing but the tree itself. -/
theorem eq_of_descend?_nil
    {tree found : Tree V}
    (hFound : tree.descend? [] = some found) :
    tree = found := by
  rw [descend?_nil] at hFound
  exact Option.some.inj hFound

/- A node below a name is reached through a child. -/
theorem descend?_cons_eq_some_iff
    {tree found : Tree V}
    {name : String}
    {rest : List String} :
    tree.descend? (name :: rest) = some found ↔
      ∃ child, tree.child? name = some child ∧
        child.descend? rest = some found := by
  rw [descend?_cons, Option.bind_eq_some_iff]

/- Names in two parts are followed part by part. -/
theorem descend?_append
    (tree : Tree V)
    (names others : List String) :
    tree.descend? (names ++ others) =
      (tree.descend? names).bind fun found =>
        found.descend? others := by
  induction names generalizing tree with
  | nil =>
      simp
  | cons name rest ih =>
      rw [List.cons_append, descend?_cons, descend?_cons]
      cases tree.child? name with
      | none => rfl
      | some child => exact ih child

/- The value at no names is that of the tree itself. -/
@[simp] theorem valueAt_nil
    (tree : Tree V) :
    tree.valueAt [] = tree.item := by
  simp [valueAt]

/- The first name leads to the values of a child. -/
theorem valueAt_cons
    (tree : Tree V)
    (name : String)
    (rest : List String) :
    tree.valueAt (name :: rest) =
      (tree.child? name).bind fun child =>
        child.valueAt rest := by
  rw [valueAt, descend?_cons]
  cases tree.child? name <;> rfl

/- Values below a node are those of the subtree there. -/
theorem valueAt_append
    {tree found : Tree V}
    {names : List String}
    (hFound : tree.descend? names = some found)
    (others : List String) :
    tree.valueAt (names ++ others) =
      found.valueAt others := by
  simp [valueAt, descend?_append, hFound]

/- A subtree is the node that the segments lead to. -/
theorem subtree_eq_ok_iff
    (tree : Tree V)
    (key : Path)
    (found : Tree V) :
    tree.subtree key = .ok found ↔
      tree.descend? key.segments = some found := by
  unfold subtree
  cases tree.descend? key.segments <;> simp

/- What a look-up finds is the value at the segments. -/
theorem get_eq
    (tree : Tree V)
    (key : Path) :
    tree.get key =
      match tree.valueAt key.segments with
      | none => .error (.notFound key)
      | some value => .ok value :=
  rfl

/- A key is contained where a value is at its segments. -/
theorem contains_eq
    (tree : Tree V)
    (key : Path) :
    tree.contains key =
      (tree.valueAt key.segments).isSome := by
  unfold contains valueAt
  cases tree.descend? key.segments <;> rfl

/- A key that is found holds the value at its segments. -/
theorem get_eq_ok_iff
    (tree : Tree V)
    (key : Path)
    (value : V) :
    tree.get key = .ok value ↔
      tree.valueAt key.segments = some value := by
  rw [get_eq]
  cases tree.valueAt key.segments <;> simp

/- A new tree has no children. -/
@[simp] theorem child?_ofRoot
    (path : Path)
    (name : String) :
    (ofRoot path : Tree V).child? name = none :=
  rfl

/- A new tree holds no values. -/
@[simp] theorem valueAt_ofRoot
    (path : Path)
    (names : List String) :
    (ofRoot path : Tree V).valueAt names = none := by
  cases names with
  | nil => rfl
  | cons name rest => simp [valueAt_cons]

end Tree

end HierPath

------------------------------------------------------------
-- Writing
------------------------------------------------------------

namespace HierPath

universe u

namespace Tree

variable {V : Type u}

/-
  The child that a write goes on in. It is made where there
  is none yet.
-/
def childFor
    (tree : Tree V)
    (name : String) : Tree V :=
  (tree.child? name).getD (ofRoot (tree.path.below name))

/- A write keeps the path of the node it starts from. -/
@[simp] theorem path_write
    (tree : Tree V)
    (names : List String)
    (value : V) :
    (tree.write names value).tree.path = tree.path := by
  cases tree
  cases names <;> rfl

/- A write at the node itself keeps the children. -/
@[simp] theorem children_write_nil
    (tree : Tree V)
    (value : V) :
    (tree.write [] value).tree.children =
      tree.children := by
  cases tree
  rfl

/- A write at the node itself stores the value there. -/
@[simp] theorem item_write_nil
    (tree : Tree V)
    (value : V) :
    (tree.write [] value).tree.item = some value := by
  cases tree
  rfl

/- A write below a node puts in the child it went to. -/
theorem children_write_cons
    (tree : Tree V)
    (name : String)
    (rest : List String)
    (value : V) :
    (tree.write (name :: rest) value).tree.children =
      Children.insert name
        ((tree.childFor name).write rest value).tree
        tree.children := by
  cases tree
  rfl

/- A write below a node keeps the value of the node. -/
@[simp] theorem item_write_cons
    (tree : Tree V)
    (name : String)
    (rest : List String)
    (value : V) :
    (tree.write (name :: rest) value).tree.item =
      tree.item := by
  cases tree
  rfl

/- A write below a node changes one child. -/
theorem child?_write_cons
    (tree : Tree V)
    (name : String)
    (rest : List String)
    (value : V)
    (other : String) :
    (tree.write (name :: rest) value).tree.child? other =
      if name = other then
        some ((tree.childFor name).write rest value).tree
      else
        tree.child? other := by
  rw [child?, children_write_cons, Children.find?_insert]
  rfl

/- The values of a child are those below its name. -/
theorem valueAt_childFor
    (tree : Tree V)
    (name : String)
    (rest : List String) :
    (tree.childFor name).valueAt rest =
      tree.valueAt (name :: rest) := by
  rw [valueAt_cons, childFor]
  cases tree.child? name <;> simp

/- A write changes the value at its own names only. -/
theorem valueAt_write
    (tree : Tree V)
    (names : List String)
    (value : V)
    (others : List String) :
    (tree.write names value).tree.valueAt others =
      if others = names then
        some value
      else
        tree.valueAt others := by
  induction names generalizing tree others with
  | nil =>
      cases others with
      | nil =>
          simp
      | cons other others =>
          simp [valueAt_cons, child?]
  | cons name rest ih =>
      cases others with
      | nil =>
          simp
      | cons other others =>
          rw [valueAt_cons, child?_write_cons]
          by_cases hName : name = other
          · subst other
            simp [ih, valueAt_childFor]
          · simp [hName, Ne.symm hName, valueAt_cons]

/- The value that entries give to names last. -/
def lastValue
    (entries : List (Path × V))
    (names : List String) : Option V :=
  (entries.reverse.find? fun entry =>
    entry.1.segments = names).map Prod.snd

/- No entries give no values. -/
@[simp] theorem lastValue_nil
    (names : List String) :
    lastValue ([] : List (Path × V)) names = none :=
  rfl

/- What comes later goes before the first entry. -/
theorem lastValue_cons
    (entry : Path × V)
    (rest : List (Path × V))
    (names : List String) :
    lastValue (entry :: rest) names =
      (lastValue rest names).or
        (if names = entry.1.segments then
          some entry.2
        else
          none) := by
  unfold lastValue
  rw [List.reverse_cons, List.find?_append]
  by_cases hNames : names = entry.1.segments
  · cases rest.reverse.find? _ <;> simp [hNames]
  · cases rest.reverse.find? _ <;>
      simp [hNames, Ne.symm hNames]

/- Only names that no entry is for have no last value. -/
theorem lastValue_eq_none_iff
    (entries : List (Path × V))
    (names : List String) :
    lastValue entries names = none ↔
      ∀ entry ∈ entries, entry.1.segments ≠ names := by
  simp [lastValue]

/- The last value is that of an entry with none after it. -/
theorem lastValue_eq_some_iff
    (entries : List (Path × V))
    (names : List String)
    (value : V) :
    lastValue entries names = some value ↔
      ∃ before key after,
        entries = before ++ (key, value) :: after
          ∧ key.segments = names
          ∧ ∀ entry ∈ after, entry.1.segments ≠ names := by
  rw [lastValue, Option.map_eq_some_iff]
  constructor
  · intro hLast
    rcases hLast with ⟨⟨key, held⟩, hFind, rfl⟩
    rcases List.find?_eq_some_iff_append.mp hFind with
      ⟨hKey, after, before, hTurned, hAfter⟩
    refine ⟨before.reverse, key, after.reverse, ?_,
      by simpa using hKey, by simpa using hAfter⟩
    rw [← List.reverse_reverse entries, hTurned]
    simp
  · intro hLast
    rcases hLast with ⟨before, key, after, rfl, hKey, hAfter⟩
    refine ⟨(key, value), ?_, rfl⟩
    apply List.find?_eq_some_iff_append.mpr
    refine ⟨by simpa using hKey, after.reverse,
      before.reverse, ?_, by simpa using hAfter⟩
    simp

/-
  Writes leave the last values of their entries, and the old
  values where they have not been.
-/
theorem valueAt_addAll
    (tree : Tree V)
    (entries : List (Path × V))
    (names : List String) :
    (tree.addAll entries).valueAt names =
      (lastValue entries names).or (tree.valueAt names) := by
  induction entries generalizing tree with
  | nil =>
      rfl
  | cons entry rest ih =>
      have hRest :
          (tree.addAll (entry :: rest)).valueAt names =
            (lastValue rest names).or
              ((tree.add entry.1 entry.2).tree.valueAt
                names) :=
        ih (tree.add entry.1 entry.2).tree
      rw [hRest, add, valueAt_write, lastValue_cons,
        Option.or_assoc]
      by_cases hNames : names = entry.1.segments <;>
        simp [hNames]

/- A write gives back the value that it has replaced. -/
theorem previous_write
    (tree : Tree V)
    (names : List String)
    (value : V) :
    (tree.write names value).previous =
      tree.valueAt names := by
  induction names generalizing tree with
  | nil =>
      cases tree
      rfl
  | cons name rest ih =>
      have hBelow :
          (tree.write (name :: rest) value).previous =
            ((tree.childFor name).write
              rest value).previous := by
        cases tree
        rfl
      rw [hBelow, ih, valueAt_childFor]

end Tree

end HierPath

------------------------------------------------------------
-- Grafting
------------------------------------------------------------

namespace HierPath

universe u

namespace Tree

variable {V : Type u}

/- A graft at a child puts in the child it went to. -/
theorem graft_cons
    {tree child : Tree V}
    {name : String}
    (hChild : tree.child? name = some child)
    (rest : List String)
    (new : Tree V) :
    tree.graft (name :: rest) new =
      .node tree.path tree.item
        (Children.insert name (child.graft rest new)
          tree.children) := by
  cases tree with
  | node path item named =>
      have hFind : Children.find? name named = some child :=
        hChild
      simp [graft, hFind, Tree.path, Tree.item, children]

/- The node at the place of a graft is what was grafted. -/
theorem descend?_graft
    {tree found : Tree V}
    {names : List String}
    (hFound : tree.descend? names = some found)
    (new : Tree V) :
    (tree.graft names new).descend? names = some new := by
  induction names generalizing tree with
  | nil =>
      simp [graft]
  | cons name rest ih =>
      rcases descend?_cons_eq_some_iff.mp hFound with
        ⟨child, hChild, hRest⟩
      rw [graft_cons hChild, descend?_cons, child?, children,
        Children.find?_insert]
      simpa using ih hRest

/- The second of two grafts at one place counts. -/
theorem graft_graft
    {tree found : Tree V}
    {names : List String}
    (hFound : tree.descend? names = some found)
    (first second : Tree V) :
    (tree.graft names first).graft names second =
      tree.graft names second := by
  induction names generalizing tree with
  | nil =>
      simp [graft]
  | cons name rest ih =>
      rcases descend?_cons_eq_some_iff.mp hFound with
        ⟨child, hChild, hRest⟩
      have hGrafted :
          (tree.graft (name :: rest) first).child? name =
            some (child.graft rest first) := by
        rw [graft_cons hChild, child?, children,
          Children.find?_insert]
        simp
      rw [graft_cons hGrafted, graft_cons hChild,
        graft_cons hChild, ih hRest]
      simp [path, item, children, Children.insert_insert]

/- A graft in a subtree is a graft further down. -/
theorem graft_append
    {tree found : Tree V}
    {names : List String}
    (hFound : tree.descend? names = some found)
    (others : List String)
    (new : Tree V) :
    tree.graft names (found.graft others new) =
      tree.graft (names ++ others) new := by
  induction names generalizing tree with
  | nil =>
      rw [eq_of_descend?_nil hFound]
      rfl
  | cons name rest ih =>
      rcases descend?_cons_eq_some_iff.mp hFound with
        ⟨child, hChild, hRest⟩
      rw [List.cons_append, graft_cons hChild,
        graft_cons hChild, ih hRest]

/-
  A write that passes through a node does what the node
  does with the names that are left.
-/
theorem write_append
    {tree found : Tree V}
    {names : List String}
    (hFound : tree.descend? names = some found)
    (others : List String)
    (value : V) :
    tree.write (names ++ others) value =
      { found.write others value with
        tree :=
          tree.graft names
            (found.write others value).tree } := by
  induction names generalizing tree with
  | nil =>
      rw [eq_of_descend?_nil hFound]
      rfl
  | cons name rest ih =>
      rcases descend?_cons_eq_some_iff.mp hFound with
        ⟨child, hChild, hRest⟩
      cases tree with
      | node path item named =>
          have hFind :
              Children.find? name named = some child :=
            hChild
          simp [write, graft, hFind, ih hRest]

/- A write in a subtree is a write further down. -/
theorem graft_write
    {tree found : Tree V}
    {names : List String}
    (hFound : tree.descend? names = some found)
    (others : List String)
    (value : V) :
    tree.graft names (found.write others value).tree =
      (tree.write (names ++ others) value).tree := by
  rw [write_append hFound]

/-
  An assignment is a write at a key that holds a value, and
  fails at any other key.
-/
theorem assign_eq
    (tree : Tree V)
    (key : Path)
    (value : V) :
    tree.assign key value =
      match tree.valueAt key.segments with
      | none => .error (.notFound key)
      | some old => .ok (old, (tree.add key value).tree) := by
  unfold valueAt
  cases hFound : tree.descend? key.segments with
  | none =>
      simp [assign, hFound]
  | some found =>
      have hWrite := graft_write hFound [] value
      rw [List.append_nil] at hWrite
      cases found with
      | node path held named =>
          cases held with
          | none =>
              simp [assign, hFound, item]
          | some old =>
              simp only [assign, hFound, Option.bind_some,
                item, add, ← hWrite]
              rfl

end Tree

end HierPath
