/-
  Comparing texts by their characters and by their bytes.

  A list comes before another one where it is a beginning of
  it, or where the two part and the first has the smaller
  item there. A code that keeps the items of two lists apart
  in the same way keeps the order of the lists too.

  Texts compare as their lists of characters. The bytes of a
  character have its number in digits of six bits, with the
  highest first and the number of digits in front, so texts
  compare as their lists of bytes do.

  Key definitions include:
    * `Precedes`
    * `Text.bytes`

  Key theorems include:
    * `compare_append_left`
    * `prefix_of_between`
    * `compare_eq_lt_iff`
    * `compare_flatMap`
    * `Text.compare_toList`
    * `Text.precedes_utf8EncodeChar`
    * `Text.compare_bytes`
-/

------------------------------------------------------------
-- Lists With A Front In Common
------------------------------------------------------------

namespace HierPath

universe u

variable {α : Type u}
variable [Ord α]

/- Lists with a front in common compare as their ends. -/
theorem compare_append_left
    [Std.ReflOrd α]
    (base items others : List α) :
    compare (base ++ items) (base ++ others) =
      compare items others := by
  induction base with
  | nil =>
      rfl
  | cons item rest ih =>
      have hItem : compare item item = .eq :=
        Std.ReflCmp.compare_self
      rw [List.cons_append, List.cons_append,
        List.compare_cons_cons, hItem, Ordering.eq_then, ih]

/-
  A list that lies between another list and a continuation
  of it continues the other list too.
-/
theorem prefix_of_between
    [Std.TransOrd α]
    [Std.LawfulEqOrd α]
    {items others rest : List α}
    (hLow : (compare items others).isLE = true)
    (hHigh : (compare others (items ++ rest)).isLE = true) :
    items <+: others := by
  induction items generalizing others with
  | nil =>
      exact List.nil_prefix
  | cons item items ih =>
      cases others with
      | nil =>
          cases hLow
      | cons other others =>
          rw [List.compare_cons_cons] at hLow
          rw [List.cons_append, List.compare_cons_cons]
            at hHigh
          have hEq : compare item other = .eq :=
            Std.OrientedCmp.isLE_antisymm
              (Ordering.isLE_left_of_isLE_then hLow)
              (Ordering.isLE_left_of_isLE_then hHigh)
          have hSame : item = other :=
            Std.LawfulEqOrd.eq_of_compare hEq
          subst hSame
          rw [hEq, Ordering.eq_then] at hLow hHigh
          exact List.cons_prefix_cons.mpr
            ⟨rfl, ih hLow hHigh⟩

end HierPath

------------------------------------------------------------
-- Lists That Part
------------------------------------------------------------

namespace HierPath

universe u v

variable {α : Type u} {β : Type v}
variable [Ord α] [Ord β]

/-
  The lists part after a front in common, and the first one
  has the smaller item there.
-/
def Precedes
    (items others : List α) : Prop :=
  ∃ base item other,
    compare item other = .lt
      ∧ base ++ [item] <+: items
      ∧ base ++ [other] <+: others

namespace Precedes

variable {items others : List α}

/- Lists part at once where their first items differ. -/
theorem of_first
    {item other : α}
    (hItems : compare item other = .lt)
    (items others : List α) :
    Precedes (item :: items) (other :: others) :=
  ⟨[], item, other, hItems, by simp, by simp⟩

/- Lists that part do so after any front. -/
theorem append_left
    (hParts : Precedes items others)
    (base : List α) :
    Precedes (base ++ items) (base ++ others) := by
  rcases hParts with
    ⟨front, item, other, hItems, hFirst, hSecond⟩
  refine ⟨base ++ front, item, other, hItems, ?_, ?_⟩
  · rw [List.append_assoc]
    exact (List.prefix_append_right_inj base).mpr hFirst
  · rw [List.append_assoc]
    exact (List.prefix_append_right_inj base).mpr hSecond

/- Lists that part do so however they go on. -/
theorem append_right
    (hParts : Precedes items others)
    (rest more : List α) :
    Precedes (items ++ rest) (others ++ more) := by
  rcases hParts with
    ⟨front, item, other, hItems, hFirst, hSecond⟩
  exact ⟨front, item, other, hItems,
    hFirst.trans (List.prefix_append _ _),
    hSecond.trans (List.prefix_append _ _)⟩

/- Lists that part compare as the items there. -/
theorem compare_eq_lt
    [Std.ReflOrd α]
    (hParts : Precedes items others) :
    compare items others = .lt := by
  rcases hParts with
    ⟨front, item, other, hItems, ⟨rest, rfl⟩, ⟨more, rfl⟩⟩
  rw [List.append_assoc, List.append_assoc,
    compare_append_left, List.singleton_append,
    List.singleton_append, List.compare_cons_cons, hItems]
  rfl

end Precedes

/-
  A list comes before another one where that one goes on
  from it, or where the two part.
-/
theorem compare_eq_lt_iff
    [Std.LawfulEqOrd α]
    {items others : List α} :
    compare items others = .lt ↔
      (∃ item rest, others = items ++ item :: rest)
        ∨ Precedes items others := by
  constructor
  · intro hLess
    induction items generalizing others with
    | nil =>
        cases others with
        | nil =>
            cases hLess
        | cons item rest =>
            exact Or.inl ⟨item, rest, rfl⟩
    | cons item items ih =>
        cases others with
        | nil =>
            cases hLess
        | cons other others =>
            rw [List.compare_cons_cons, Ordering.then_eq_lt]
              at hLess
            rcases hLess with hItems | ⟨hEq, hLess⟩
            · exact Or.inr (.of_first hItems items others)
            · have hSame : item = other :=
                Std.LawfulEqOrd.eq_of_compare hEq
              subst hSame
              rcases ih hLess with
                ⟨next, rest, rfl⟩ | hParts
              · exact Or.inl ⟨next, rest, rfl⟩
              · exact Or.inr (hParts.append_left [item])
  · rintro (⟨item, rest, rfl⟩ | hParts)
    · have hCompare :=
        compare_append_left items [] (item :: rest)
      rw [List.append_nil] at hCompare
      rw [hCompare]
      rfl
    · exact hParts.compare_eq_lt

/-
  Lists compare as their codes, item by item, where smaller
  items have codes that part from those of larger ones.
-/
theorem compare_flatMap
    [Std.OrientedOrd α]
    [Std.LawfulEqOrd α]
    [Std.OrientedOrd β]
    {code : α → List β}
    (hSome : ∀ item, code item ≠ [])
    (hParts :
      ∀ item other, compare item other = .lt →
        Precedes (code item) (code other))
    (items others : List α) :
    compare (items.flatMap code) (others.flatMap code) =
      compare items others := by
  induction items generalizing others with
  | nil =>
      cases others with
      | nil =>
          rfl
      | cons other others =>
          rw [List.flatMap_nil, List.flatMap_cons]
          cases hCode : code other with
          | nil => exact absurd hCode (hSome other)
          | cons first rest => rfl
  | cons item items ih =>
      cases others with
      | nil =>
          rw [List.flatMap_nil, List.flatMap_cons]
          cases hCode : code item with
          | nil => exact absurd hCode (hSome item)
          | cons first rest => rfl
      | cons other others =>
          rw [List.flatMap_cons, List.flatMap_cons,
            List.compare_cons_cons]
          cases hItems : compare item other with
          | lt =>
              exact ((hParts item other hItems).append_right
                _ _).compare_eq_lt
          | eq =>
              have hSame : item = other :=
                Std.LawfulEqOrd.eq_of_compare hItems
              rw [hSame, compare_append_left, ih]
              rfl
          | gt =>
              have hTurned : compare other item = .lt :=
                Std.OrientedCmp.lt_of_gt hItems
              exact Std.OrientedCmp.gt_of_lt
                ((hParts other item hTurned).append_right
                  _ _).compare_eq_lt

end HierPath

------------------------------------------------------------
-- Characters Of Texts
------------------------------------------------------------

namespace HierPath

namespace Text

/- Characters compare by their numbers. -/
theorem compare_char_eq_lt_iff
    {c d : Char} :
    compare c d = .lt ↔ c < d :=
  compareOfLessAndEq_eq_lt

/- Lists of characters compare as they are ordered. -/
private theorem compare_chars_eq_lt_iff
    {chars others : List Char} :
    compare chars others = .lt ↔ chars < others := by
  induction chars generalizing others with
  | nil =>
      cases others <;> simp
  | cons c chars ih =>
      cases others with
      | nil =>
          simp
      | cons d others =>
          rw [List.compare_cons_cons, Ordering.then_eq_lt,
            List.cons_lt_cons_iff, ih,
            compare_char_eq_lt_iff,
            Std.LawfulEqOrd.compare_eq_iff_eq]

/- Texts compare as their lists of characters. -/
theorem compare_toList
    (text other : String) :
    compare text other =
      compare text.toList other.toList := by
  have hLess
      (first second : String) :
      compare first second = .lt ↔
        compare first.toList second.toList = .lt := by
    rw [compare_chars_eq_lt_iff]
    exact compareOfLessAndEq_eq_lt
  cases hTexts : compare text other with
  | lt =>
      exact ((hLess text other).mp hTexts).symm
  | eq =>
      rw [Std.LawfulEqOrd.eq_of_compare hTexts]
      exact Std.ReflCmp.compare_self.symm
  | gt =>
      have hTurned := Std.OrientedCmp.lt_of_gt hTexts
      exact (Std.OrientedCmp.gt_of_lt
        ((hLess other text).mp hTurned)).symm

end Text

end HierPath

------------------------------------------------------------
-- Bytes Of Texts
------------------------------------------------------------

namespace HierPath

namespace Text

/- The bytes that a text is stored as. -/
def bytes
    (text : String) : List UInt8 :=
  text.toUTF8.data.toList

/- The bytes of a text are those of its characters. -/
theorem bytes_eq
    (text : String) :
    bytes text =
      text.toList.flatMap String.utf8EncodeChar := by
  rw [bytes, String.toUTF8_eq_toByteArray,
    ← String.utf8Encode_toList, List.utf8Encode,
    List.toList_data_toByteArray]

/- Numbers below 256 compare as bytes. -/
private theorem precedes_ofNat
    {m n : Nat}
    (hLess : m < n)
    (hBound : n < 256)
    (bytes others : List UInt8) :
    Precedes (UInt8.ofNat m :: bytes)
      (UInt8.ofNat n :: others) := by
  apply Precedes.of_first
  rw [Std.compare_eq_lt, UInt8.lt_iff_toNat_lt,
    UInt8.toNat_ofNat', UInt8.toNat_ofNat']
  omega

/-
  One more digit of six bits keeps the order of the numbers
  that bytes stand for.
-/
private theorem precedes_digit
    (bytes others : List UInt8)
    {m n : Nat}
    (hLess : m < n)
    (hFront : m / 64 < n / 64 → Precedes bytes others)
    (hSame : m / 64 = n / 64 → bytes = others) :
    Precedes (bytes ++ [UInt8.ofNat (m % 64 + 128)])
      (others ++ [UInt8.ofNat (n % 64 + 128)]) := by
  rcases Nat.lt_or_ge (m / 64) (n / 64) with hLow | hHigh
  · exact (hFront hLow).append_right _ _
  · rw [hSame (by omega)]
    refine Precedes.append_left ?_ others
    exact precedes_ofNat (by omega) (by omega) [] []

/-
  The bytes of a character part from those of the characters
  after it, in the number of digits or in the first digit
  that differs.
-/
theorem precedes_utf8EncodeChar
    {c d : Char}
    (hLess : c < d) :
    Precedes (String.utf8EncodeChar c)
      (String.utf8EncodeChar d) := by
  have hNumbers : c.val.toNat < d.val.toNat := hLess
  have hBound : d.val.toNat < 0x110000 := by
    have hValid : d.val.toNat.isValidChar := d.valid
    rw [Nat.isValidChar] at hValid
    omega
  unfold String.utf8EncodeChar
  generalize c.val.toNat = m at hNumbers
  generalize d.val.toNat = n at hNumbers hBound
  have hNext : ∀ k, k / 4096 = k / 64 / 64 := by
    omega
  have hLast : ∀ k, k / 262144 = k / 64 / 64 / 64 := by
    omega
  simp only [hNext, hLast]
  -- By the size of the first character. The other one is as
  -- long, and digits decide, or the first bytes do.
  by_cases hOne : m ≤ 0x7f
  · rw [if_pos hOne]
    repeat' split
    all_goals exact precedes_ofNat (by omega) (by omega) _ _
  rw [if_neg hOne, if_neg (by omega : ¬ n ≤ 0x7f)]
  by_cases hTwo : m ≤ 0x7ff
  · rw [if_pos hTwo]
    split
    · refine precedes_digit [_] [_] hNumbers ?_
        (fun hSame => by rw [hSame])
      intro hDigits
      exact precedes_ofNat (by omega) (by omega) _ _
    · split
      all_goals exact precedes_ofNat (by omega) (by omega) _ _
  rw [if_neg hTwo, if_neg (by omega : ¬ n ≤ 0x7ff)]
  by_cases hThree : m ≤ 0xffff
  · rw [if_pos hThree]
    split
    · refine precedes_digit [_, _] [_, _] hNumbers ?_
        (fun hSame => by rw [hSame])
      intro hDigits
      refine precedes_digit [_] [_] hDigits ?_
        (fun hSame => by rw [hSame])
      intro hDigits
      exact precedes_ofNat (by omega) (by omega) _ _
    · exact precedes_ofNat (by omega) (by omega) _ _
  rw [if_neg hThree, if_neg (by omega : ¬ n ≤ 0xffff)]
  refine precedes_digit [_, _, _] [_, _, _] hNumbers ?_
    (fun hSame => by rw [hSame])
  intro hDigits
  refine precedes_digit [_, _] [_, _] hDigits ?_
    (fun hSame => by rw [hSame])
  intro hDigits
  refine precedes_digit [_] [_] hDigits ?_
    (fun hSame => by rw [hSame])
  intro hDigits
  exact precedes_ofNat (by omega) (by omega) _ _

/- Texts compare as their lists of bytes. -/
theorem compare_bytes
    (text other : String) :
    compare (bytes text) (bytes other) =
      compare text other := by
  rw [bytes_eq, bytes_eq, compare_toList]
  refine compare_flatMap (fun c => ?_) ?_ _ _
  · exact String.utf8EncodeChar_ne_nil
  · intro c d hLess
    exact precedes_utf8EncodeChar
      (compare_char_eq_lt_iff.mp hLess)

end Text

end HierPath
