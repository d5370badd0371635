import Mathlib.Logic.Function.Basic

/-
  Tables of file descriptors.

  A table maps the descriptor numbers to open files.  New
  descriptors take the lowest free number.  Numbers are
  integers, as -1 stands for a call that failed.

  Main declarations:
    * `DescriptorTable`
    * `allocate`, `dup`, `dup2`, `close`
    * `lowestFree_eq_iff`
    * `file_install`, `file_install_saved`
-/

------------------------------------------------------------
-- Tables
------------------------------------------------------------

/- The open files by number; numbers from `bound` on are free. -/
structure DescriptorTable (F : Type) where
  file : Int → Option F
  bound : Nat
  negative : ∀ n, n < 0 → file n = none
  unused : ∀ n : Int, bound ≤ n → file n = none

namespace DescriptorTable

variable {F : Type}

/- The table without an open file. -/
def empty : DescriptorTable F where
  file _ := none
  bound := 0
  negative _ _ := rfl
  unused _ _ := rfl

/- The descriptor refers to an open file. -/
def IsOpen (t : DescriptorTable F) (n : Int) : Prop :=
  t.file n ≠ none

/- The first of the next numbers that is free. -/
def firstFree (file : Int → Option F) : Nat → Nat → Nat
| 0, n => n
| fuel + 1, n =>
    match file n with
    | none => n
    | some _ => firstFree file fuel (n + 1)

/- The lowest free number. -/
def lowestFree (t : DescriptorTable F) : Nat :=
  firstFree t.file t.bound 0

/- Let a number refer to a file. -/
def put
    (t : DescriptorTable F) (n : Nat) (f : F) :
    DescriptorTable F where
  file := Function.update t.file n (some f)
  bound := max t.bound (n + 1)
  negative := by
    intro m hNegative
    rw [Function.update_of_ne (by omega)]
    exact t.negative m hNegative
  unused := by
    intro m hLarge
    rw [Function.update_of_ne (by omega)]
    exact t.unused m (by omega)

/- A new descriptor for a file. -/
def allocate
    (t : DescriptorTable F) (f : F) :
    Int × DescriptorTable F :=
  (t.lowestFree, t.put t.lowestFree f)

/- A copy of a descriptor, and -1 if it is not open. -/
def dup
    (t : DescriptorTable F) (old : Int) :
    Int × DescriptorTable F :=
  match t.file old with
  | none => (-1, t)
  | some f => t.allocate f

/- Let `new` refer to the file of `old`, which must be open. -/
def dup2
    (t : DescriptorTable F) (old : Int) (new : Nat) :
    Option (DescriptorTable F) :=
  match t.file old with
  | none => none
  | some f => some (t.put new f)

/- Close a descriptor. -/
def close
    (t : DescriptorTable F) (n : Int) :
    DescriptorTable F where
  file := Function.update t.file n none
  bound := t.bound
  negative := by
    intro m hNegative
    by_cases hSame : m = n
    · rw [hSame, Function.update_self]
    · rw [Function.update_of_ne hSame]
      exact t.negative m hNegative
  unused := by
    intro m hLarge
    by_cases hSame : m = n
    · rw [hSame, Function.update_self]
    · rw [Function.update_of_ne hSame]
      exact t.unused m hLarge

------------------------------------------------------------
-- The Lowest Free Number
------------------------------------------------------------

/- The search ends at a free number and passes none. -/
theorem firstFree_spec
    {file : Int → Option F} {last : Nat}
    (hLast : file last = none) :
    ∀ {fuel n : Nat},
      last = n + fuel →
        file (firstFree file fuel n) = none ∧
          n ≤ firstFree file fuel n ∧
          ∀ m : Nat, n ≤ m → m < firstFree file fuel n →
            file m ≠ none
| 0, n, hFuel => by
    have hSame : last = n := by omega
    subst hSame
    refine ⟨hLast, Nat.le_refl _, ?_⟩
    intro m hLower hUpper
    simp only [firstFree] at hUpper
    omega
| fuel + 1, n, hFuel => by
    cases hFile : file n with
    | none =>
        simp only [firstFree, hFile]
        refine ⟨trivial, Nat.le_refl _, ?_⟩
        intro m hLower hUpper
        omega
    | some f =>
        have hRest :=
          firstFree_spec hLast
            (show last = (n + 1) + fuel by omega)
        simp only [firstFree, hFile]
        refine ⟨hRest.1, by omega, ?_⟩
        intro m hLower hUpper
        by_cases hFirst : m = n
        · subst hFirst
          simp [hFile]
        · exact hRest.2.2 m (by omega) hUpper

theorem file_lowestFree (t : DescriptorTable F) :
    t.file t.lowestFree = none :=
  (firstFree_spec (t.unused t.bound (Int.le_refl _))
    (Nat.zero_add _).symm).1

theorem isOpen_of_lt_lowestFree
    (t : DescriptorTable F)
    {m : Nat} (hLess : m < t.lowestFree) :
    t.IsOpen m :=
  (firstFree_spec (t.unused t.bound (Int.le_refl _))
    (Nat.zero_add _).symm).2.2 m (Nat.zero_le _) hLess

/- What a number must satisfy to be the lowest free one. -/
theorem lowestFree_eq_iff
    (t : DescriptorTable F) (n : Nat) :
    t.lowestFree = n ↔
      t.file n = none ∧ ∀ m : Nat, m < n → t.IsOpen m := by
  constructor
  · rintro rfl
    exact ⟨t.file_lowestFree,
      fun m hLess => t.isOpen_of_lt_lowestFree hLess⟩
  · rintro ⟨hFree, hOpen⟩
    rcases Nat.lt_trichotomy t.lowestFree n with
      hLess | hSame | hMore
    · exact absurd t.file_lowestFree (hOpen _ hLess)
    · exact hSame
    · exact absurd hFree (t.isOpen_of_lt_lowestFree hMore)

/- Open descriptors differ from the lowest free number. -/
theorem ne_lowestFree_of_isOpen
    {t : DescriptorTable F} {n : Int}
    (hOpen : t.IsOpen n) :
    n ≠ t.lowestFree := by
  rintro rfl
  exact hOpen t.file_lowestFree

------------------------------------------------------------
-- The Operations
------------------------------------------------------------

@[simp]
theorem file_put
    (t : DescriptorTable F) (n : Nat) (f : F) :
    (t.put n f).file = Function.update t.file n (some f) :=
  rfl

@[simp]
theorem file_close (t : DescriptorTable F) (n : Int) :
    (t.close n).file = Function.update t.file n none :=
  rfl

theorem IsOpen.put
    {t : DescriptorTable F} {m : Int}
    (hOpen : t.IsOpen m)
    (n : Nat) (f : F) :
    (t.put n f).IsOpen m := by
  rw [IsOpen, file_put]
  by_cases hSame : m = n
  · rw [hSame, Function.update_self]
    exact Option.some_ne_none f
  · rw [Function.update_of_ne hSame]
    exact hOpen

/- Closing a number that has no free number below it. -/
theorem lowestFree_close
    {t : DescriptorTable F} {n : Nat}
    (hOpen : ∀ m : Nat, m < n → t.IsOpen m) :
    (t.close n).lowestFree = n := by
  rw [lowestFree_eq_iff, file_close, Function.update_self]
  refine ⟨rfl, ?_⟩
  intro m hLess
  rw [IsOpen, file_close, Function.update_of_ne (by omega)]
  exact hOpen m hLess

theorem dup_of_file
    {t : DescriptorTable F} {old : Int} {f : F}
    (hFile : t.file old = some f) :
    t.dup old = t.allocate f := by
  simp [dup, hFile]

theorem dup2_of_file
    {t : DescriptorTable F} {old : Int} {f : F}
    (hFile : t.file old = some f)
    (new : Nat) :
    t.dup2 old new = some (t.put new f) := by
  simp [dup2, hFile]

/- Install a new descriptor's file under `n` and close it. -/
theorem file_install
    {t : DescriptorTable F}
    {n : Nat} (hOpen : t.IsOpen n)
    (f : F) :
    (((t.put t.lowestFree f).put n f).close
        t.lowestFree).file =
      Function.update t.file n (some f) := by
  have hApart : (n : Int) ≠ t.lowestFree :=
    ne_lowestFree_of_isOpen hOpen
  have hFree := t.file_lowestFree
  funext m
  by_cases hNew : m = t.lowestFree
  · subst hNew
    simp [hApart.symm, hFree]
  · by_cases hSame : m = n
    · subst hSame
      simp [hNew]
    · simp [hNew, hSame]

/- The same after a copy of `n` to the next free number. -/
theorem file_install_saved
    {t : DescriptorTable F}
    {n : Nat} (hOpen : t.IsOpen n)
    (f g : F) :
    ((((t.put t.lowestFree f).put
          (t.put t.lowestFree f).lowestFree g).put n f).close
        t.lowestFree).file =
      Function.update
        (Function.update t.file
          (t.put t.lowestFree f).lowestFree (some g))
        n (some f) := by
  have hApart : (n : Int) ≠ t.lowestFree :=
    ne_lowestFree_of_isOpen hOpen
  have hNext :
      (t.lowestFree : Int) ≠
        (t.put t.lowestFree f).lowestFree := by
    apply ne_lowestFree_of_isOpen
    simp [IsOpen]
  have hFree := t.file_lowestFree
  funext m
  by_cases hNew : m = t.lowestFree
  · subst hNew
    simp [hApart.symm, hNext, hFree]
  · by_cases hSame : m = n
    · subst hSame
      simp [hNew]
    · simp [hNew, hSame, Function.update_apply]

/- A number that is free after a new descriptor was free. -/
theorem file_lowestFree_put
    (t : DescriptorTable F) (f : F) :
    t.file (t.put t.lowestFree f).lowestFree = none := by
  have hFree := (t.put t.lowestFree f).file_lowestFree
  rw [file_put] at hFree
  by_cases hSame :
      ((t.put t.lowestFree f).lowestFree : Int) = t.lowestFree
  · rw [hSame]
    exact t.file_lowestFree
  · rwa [Function.update_of_ne hSame] at hFree

end DescriptorTable
