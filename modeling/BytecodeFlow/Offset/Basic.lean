/-
  BytecodeFlow.Offset.Basic — OFFSETS: positions in a function body, and finding one by halving.

  An offset counts bytes from the start of the body.  Offsets live in one 64-bit word, so going
  forward by an argument can leave the word; `Offset.advance?` says when it does.  Nothing in
  the library wraps around.

  The search keeps a window that must hold the offset if the array does, and halves it until one
  entry is left.  It needs no order to end, but only on an ascending array is its answer
  membership: `bisect_iff`.
-/

namespace BytecodeFlow

/-! ## §1. Words -/

/-- A position in a function body, in bytes from its start. -/
abbrev Offset := Nat

namespace Offset

/-- The largest offset a 64-bit word holds, one less than the 64th power of two. -/
def limit : Offset := 0xFFFFFFFFFFFFFFFF

/-- The position `n` bytes past `o`, if a word holds it. -/
def advance? (o : Offset) (n : Nat) : Option Offset :=
  if o + n ≤ limit then some (o + n) else none

/-- Where the sum fits the word it is the plain sum. -/
theorem advance?_eq_some_iff {o n p : Nat} : advance? o n = some p ↔ o + n ≤ limit ∧ p = o + n := by
  grind [advance?]

theorem advance?_eq_none_iff {o n : Nat} : advance? o n = none ↔ limit < o + n := by
  grind [advance?]

/-- Offsets in the order given, separated by a comma and a blank. -/
def joined (os : List Offset) : String := ", ".intercalate (os.map toString)

end Offset

/-! ## §2. Bisection -/

/-- Whether `x` is found among the `size` entries of `a` from `base` on. -/
def bisectWindow (a : Array Offset) (x : Offset) (base size : Nat) : Bool :=
  if 1 < size then
    let half := size / 2
    -- both windows have this size: the lower one keeps an entry more than it must
    if (a[base + half]?).any (x < ·) then bisectWindow a x base (size - half)
    else bisectWindow a x (base + half) (size - half)
  else a[base]? == some x
termination_by size

/-- Whether `x` is found in `a`. -/
def bisect (a : Array Offset) (x : Offset) : Bool := bisectWindow a x 0 a.size

theorem mem_of_bisectWindow {a : Array Offset} {x : Offset} {base size : Nat}
    (h : bisectWindow a x base size = true) : x ∈ a := by
  fun_induction bisectWindow a x base size with
  | case1 _ _ _ _ _ ih => exact ih h
  | case2 _ _ _ _ _ ih => exact ih h
  | case3 => exact Array.mem_of_getElem? (by simpa using h)

/-- In an ascending array, entries before the place of `x` are smaller and those behind it larger. -/
theorem compare_of_getElem? {a : Array Offset} {x y : Offset} {i j : Nat}
    (hasc : a.toList.Pairwise (· < ·)) (hi : a[i]? = some x) (hj : a[j]? = some y) :
    (j < i → y < x) ∧ (i < j → x < y) := by
  rw [← Array.getElem?_toList] at hi hj
  obtain ⟨hilt, rfl⟩ := List.getElem?_eq_some_iff.1 hi
  obtain ⟨hjlt, rfl⟩ := List.getElem?_eq_some_iff.1 hj
  exact ⟨List.pairwise_iff_getElem.1 hasc j i hjlt hilt,
    List.pairwise_iff_getElem.1 hasc i j hilt hjlt⟩

/-- In an ascending array the window keeps the place of `x`. -/
theorem bisectWindow_of_getElem? {a : Array Offset} {x : Offset} {base size i : Nat}
    (hasc : a.toList.Pairwise (· < ·)) (hi : a[i]? = some x) (hsize : base + size ≤ a.size)
    (hlo : base ≤ i) (hhi : i < base + size) : bisectWindow a x base size = true := by
  -- the window keeps the place `i` of `x`, whichever half is taken
  fun_induction bisectWindow a x base size with
  | case1 base size hwide half hgt ih =>
    obtain ⟨y, hy⟩ : ∃ y, a[base + half]? = some y := ⟨_, Array.getElem?_eq_getElem (by omega)⟩
    have hxy : x < y := by simpa [hy] using hgt
    have := compare_of_getElem? hasc hi hy
    exact ih (by omega) (by omega) (by grind)
  | case2 base size hwide half hle ih =>
    obtain ⟨y, hy⟩ : ∃ y, a[base + half]? = some y := ⟨_, Array.getElem?_eq_getElem (by omega)⟩
    have hyx : y ≤ x := by simpa [hy] using hle
    have := compare_of_getElem? hasc hi hy
    exact ih (by omega) (by grind) (by omega)
  | case3 base size hnarrow =>
    obtain rfl : base = i := by omega
    simp [hi]

/-- **On an ascending array bisection decides membership.** -/
theorem bisect_iff {a : Array Offset} {x : Offset} (hasc : a.toList.Pairwise (· < ·)) :
    bisect a x = true ↔ x ∈ a := by
  refine ⟨mem_of_bisectWindow, fun h => ?_⟩
  obtain ⟨i, hi⟩ := Array.getElem?_of_mem h
  have hsize : i < a.size := (Array.getElem?_eq_some_iff.1 hi).1
  exact bisectWindow_of_getElem? hasc hi (by omega) (Nat.zero_le i) (by omega)

end BytecodeFlow
