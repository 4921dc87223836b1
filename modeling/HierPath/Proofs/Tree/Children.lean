import HierPath.Tree.Children
import Mathlib.Algebra.Ring.Nat
import Mathlib.Data.List.Forall2
import Mathlib.Logic.Basic

/-
  Laws of lists of named things.

  Looking up a name after an insertion needs no order. The
  order matters where a thing is put in place of itself:
  only a sorted list stays as it is.

  Key definitions include:
    * `Children.Sorted`

  Key theorems include:
    * `Children.find?_insert`
    * `Children.insert_insert`
    * `Children.sorted_insert`
    * `Children.insert_find?`
    * `Children.mem_iff_find?`
    * `Children.rel_find?_of_forall₂`
    * `Children.forall₂_of_rel_find?`
    * `Children.sum_insert`
-/

------------------------------------------------------------
-- Lookup And Insertion
------------------------------------------------------------

namespace HierPath

universe u

namespace Children

variable {α : Type u}

/- An inserted thing is found under its own name only. -/
theorem find?_insert
    (name other : String)
    (a : α)
    (children : Children α) :
    find? other (insert name a children) =
      if name = other then
        some a
      else
        find? other children := by
  induction children with
  | nil =>
      simp [insert, find?]
  | cons first rest ih =>
      rcases first with ⟨key, b⟩
      rw [insert]
      cases hCompare : compare name key with
      | lt =>
          simp [find?]
      | eq =>
          have hKey : name = key :=
            Std.LawfulEqOrd.eq_of_compare hCompare
          subst key
          by_cases hName : name = other <;>
            simp [find?, hName]
      | gt =>
          have hKey : name ≠ key := by
            rintro rfl
            simp at hCompare
          by_cases hOther : key = other
          · have hName : name ≠ other := by
              rwa [← hOther]
            simp [find?, hOther, hName]
          · simp [find?, hOther, ih]

/- The second of two things of one name replaces the first. -/
theorem insert_insert
    (name : String)
    (a b : α)
    (children : Children α) :
    insert name b (insert name a children) =
      insert name b children := by
  induction children with
  | nil =>
      simp [insert]
  | cons first rest ih =>
      rcases first with ⟨key, c⟩
      cases hCompare : compare name key with
      | lt =>
          simp [insert, hCompare]
      | eq =>
          simp [insert, hCompare]
      | gt =>
          simp [insert, hCompare, ih]

end Children

end HierPath

------------------------------------------------------------
-- Order
------------------------------------------------------------

namespace HierPath

universe u

namespace Children

variable {α : Type u}

/- The names are strictly ascending. -/
def Sorted
    (children : Children α) : Prop :=
  children.Pairwise fun first second =>
    compare first.1 second.1 = .lt

/- The first name comes before all others. -/
theorem sorted_cons
    {key : String}
    {a : α}
    {rest : Children α} :
    Sorted ((key, a) :: rest) ↔
      (∀ entry ∈ rest, compare key entry.1 = .lt)
        ∧ Sorted rest :=
  List.pairwise_cons

/- An insertion brings in nothing but the new thing. -/
private theorem mem_insert
    {name : String}
    {a : α}
    {children : Children α}
    {entry : String × α}
    (hEntry : entry ∈ insert name a children) :
    entry = (name, a) ∨ entry ∈ children := by
  induction children with
  | nil =>
      simpa [insert] using hEntry
  | cons first rest ih =>
      rcases first with ⟨key, b⟩
      rw [insert] at hEntry
      cases hCompare : compare name key with
      | lt =>
          simpa [hCompare] using hEntry
      | eq =>
          simp only [hCompare, List.mem_cons] at hEntry
          rcases hEntry with hEntry | hEntry
          · exact Or.inl hEntry
          · exact Or.inr (List.mem_cons_of_mem _ hEntry)
      | gt =>
          simp only [hCompare, List.mem_cons] at hEntry
          rcases hEntry with hEntry | hEntry
          · exact Or.inr (hEntry ▸ List.mem_cons_self)
          · rcases ih hEntry with hEntry | hEntry
            · exact Or.inl hEntry
            · exact Or.inr (List.mem_cons_of_mem _ hEntry)

/- An insertion keeps the names ascending. -/
theorem sorted_insert
    (name : String)
    (a : α)
    {children : Children α}
    (hSorted : Sorted children) :
    Sorted (insert name a children) := by
  induction children with
  | nil =>
      simp [insert, Sorted]
  | cons first rest ih =>
      rcases first with ⟨key, b⟩
      rcases sorted_cons.mp hSorted with ⟨hFirst, hRest⟩
      rw [insert]
      cases hCompare : compare name key with
      | lt =>
          refine sorted_cons.mpr ⟨?_, hSorted⟩
          intro entry hEntry
          rcases List.mem_cons.mp hEntry with
            rfl | hEntry
          · exact hCompare
          · exact Std.TransCmp.lt_trans hCompare
              (hFirst entry hEntry)
      | eq =>
          have hKey : name = key :=
            Std.LawfulEqOrd.eq_of_compare hCompare
          subst key
          exact sorted_cons.mpr ⟨hFirst, hRest⟩
      | gt =>
          have hKey : compare key name = .lt :=
            Std.OrientedCmp.gt_iff_lt.mp hCompare
          refine sorted_cons.mpr ⟨?_, ih hRest⟩
          intro entry hEntry
          rcases mem_insert hEntry with rfl | hEntry
          · exact hKey
          · exact hFirst entry hEntry

/- A sorted list finds exactly what it holds. -/
theorem mem_iff_find?
    {children : Children α}
    (hSorted : Sorted children)
    (name : String)
    (a : α) :
    (name, a) ∈ children ↔ find? name children = some a := by
  induction children with
  | nil =>
      simp [find?]
  | cons first rest ih =>
      rcases first with ⟨key, b⟩
      rcases sorted_cons.mp hSorted with ⟨hFirst, hRest⟩
      by_cases hKey : key = name
      · subst key
        have hOnce : (name, a) ∉ rest := by
          intro hEntry
          simpa using hFirst (name, a) hEntry
        simp [find?, hOnce, eq_comm]
      · simp [find?, hKey, Ne.symm hKey, ih hRest]

/- A thing put in its own place changes nothing. -/
theorem insert_find?
    {name : String}
    {a : α}
    {children : Children α}
    (hSorted : Sorted children)
    (hFind : find? name children = some a) :
    insert name a children = children := by
  induction children with
  | nil =>
      simp [find?] at hFind
  | cons first rest ih =>
      rcases first with ⟨key, b⟩
      rcases sorted_cons.mp hSorted with ⟨hFirst, hRest⟩
      by_cases hKey : key = name
      · subst key
        have hSame : b = a := by
          simpa [find?] using hFind
        simp [insert, hSame]
      · have hTail : find? name rest = some a := by
          simpa [find?, hKey] using hFind
        have hEntry :=
          (mem_iff_find? hRest name a).mpr hTail
        have hCompare : compare name key = .gt :=
          Std.OrientedCmp.gt_iff_lt.mpr
            (hFirst (name, a) hEntry)
        simp [insert, hCompare, ih hRest hTail]

end Children

end HierPath

------------------------------------------------------------
-- Lists With The Same Names
------------------------------------------------------------

namespace HierPath

universe u

namespace Children

variable {α : Type u}

/- A name that comes before all names of a list is not found. -/
private theorem find?_eq_none_of_first
    {name : String}
    {children : Children α}
    (hFirst :
      ∀ entry ∈ children, compare name entry.1 = .lt) :
    find? name children = none := by
  induction children with
  | nil =>
      rfl
  | cons first rest ih =>
      have hOther : first.1 ≠ name := by
        rintro rfl
        simpa using hFirst first List.mem_cons_self
      rw [find?, if_neg hOther]
      exact ih fun entry hEntry =>
        hFirst entry (List.mem_cons_of_mem first hEntry)

/- Nor is it found where it comes before the first name. -/
private theorem find?_eq_none_of_before
    {name key : String}
    {a : α}
    {rest : Children α}
    (hSorted : Sorted ((key, a) :: rest))
    (hBefore : compare name key = .lt) :
    find? name ((key, a) :: rest) = none := by
  apply find?_eq_none_of_first
  intro entry hEntry
  rcases List.mem_cons.mp hEntry with rfl | hEntry
  · exact hBefore
  · exact Std.TransCmp.lt_trans hBefore
      ((sorted_cons.mp hSorted).1 entry hEntry)

/- Sorted lists in which names find alike start alike. -/
private theorem key_eq_of_find?
    {R : α → α → Prop}
    {key other : String}
    {a b : α}
    {rest others : Children α}
    (hSorted : Sorted ((key, a) :: rest))
    (hOther : Sorted ((other, b) :: others))
    (hFind :
      ∀ name,
        Option.Rel R (find? name ((key, a) :: rest))
          (find? name ((other, b) :: others))) :
    key = other := by
  cases hCompare : compare key other with
  | lt =>
      have hNone := find?_eq_none_of_before hOther hCompare
      have hKey := hFind key
      rw [hNone, find?, if_pos rfl] at hKey
      cases hKey
  | eq =>
      exact Std.LawfulEqOrd.eq_of_compare hCompare
  | gt =>
      have hTurned : compare other key = .lt :=
        Std.OrientedCmp.gt_iff_lt.mp hCompare
      have hNone := find?_eq_none_of_before hSorted hTurned
      have hKey := hFind other
      rw [hNone, find?, if_pos rfl] at hKey
      cases hKey

/-
  In lists that hold related things under the same names,
  one by one, every name finds alike.
-/
theorem rel_find?_of_forall₂
    {R : α → α → Prop}
    {children others : Children α}
    (hBoth :
      List.Forall₂ (fun a b => a.1 = b.1 ∧ R a.2 b.2)
        children others)
    (name : String) :
    Option.Rel R (find? name children)
      (find? name others) := by
  induction hBoth with
  | nil =>
      exact .none
  | @cons first second _ _ hFirst _ ih =>
      rw [find?, find?, ← hFirst.1]
      by_cases hName : first.1 = name
      · rw [if_pos hName, if_pos hName]
        exact .some hFirst.2
      · rw [if_neg hName, if_neg hName]
        exact ih

/-
  Sorted lists in which every name finds alike hold related
  things under the same names, one by one.
-/
theorem forall₂_of_rel_find?
    {R : α → α → Prop}
    {children others : Children α}
    (hSorted : Sorted children)
    (hOther : Sorted others)
    (hFind :
      ∀ name,
        Option.Rel R (find? name children)
          (find? name others)) :
    List.Forall₂ (fun a b => a.1 = b.1 ∧ R a.2 b.2)
      children others := by
  induction children generalizing others with
  | nil =>
      cases others with
      | nil =>
          exact .nil
      | cons second others =>
          simpa [find?] using hFind second.1
  | cons first rest ih =>
      cases others with
      | nil =>
          simpa [find?] using hFind first.1
      | cons second others =>
          have hKey :=
            key_eq_of_find? hSorted hOther hFind
          rcases sorted_cons.mp hSorted with ⟨hFirst, hRest⟩
          rcases sorted_cons.mp hOther with
            ⟨hSecond, hOthers⟩
          have hHead := hFind first.1
          simp only [find?, hKey, if_true] at hHead
          refine .cons ⟨hKey, by simpa using hHead⟩
            (ih hRest hOthers ?_)
          -- The first name is in neither of the rests.
          intro name
          by_cases hName : first.1 = name
          · subst hName
            rw [find?_eq_none_of_first hFirst, hKey,
              find?_eq_none_of_first hSecond]
            exact .none
          · have hTail := hFind name
            rw [find?, find?, ← hKey, if_neg hName,
              if_neg hName] at hTail
            exact hTail

end Children

end HierPath

------------------------------------------------------------
-- Sums
------------------------------------------------------------

namespace HierPath

universe u

namespace Children

variable {α : Type u}

/-
  An insertion puts the new thing into a sum and takes the
  thing that it replaces out.
-/
theorem sum_insert
    (f : α → Nat)
    (name : String)
    (a : α)
    {children : Children α}
    (hSorted : Sorted children) :
    ((insert name a children).map fun entry => f entry.2).sum
        + ((find? name children).map f).getD 0 =
      (children.map fun entry => f entry.2).sum + f a := by
  induction children with
  | nil =>
      simp [insert, find?]
  | cons first rest ih =>
      rcases first with ⟨key, b⟩
      have hRest := ih (sorted_cons.mp hSorted).2
      cases hCompare : compare name key with
      | lt =>
          rw [find?_eq_none_of_before hSorted hCompare]
          simp [insert, hCompare, Nat.add_comm]
      | eq =>
          have hKey : name = key :=
            Std.LawfulEqOrd.eq_of_compare hCompare
          subst key
          simp only [insert, hCompare, find?, if_true,
            List.map_cons, List.sum_cons, Option.map_some,
            Option.getD_some]
          omega
      | gt =>
          have hKey : key ≠ name := by
            rintro rfl
            simp at hCompare
          simp only [insert, hCompare, find?, if_neg hKey,
            List.map_cons, List.sum_cons]
          omega

end Children

end HierPath
