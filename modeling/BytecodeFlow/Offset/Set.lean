/-
  BytecodeFlow.Offset.Set — SETS OF OFFSETS, each with one representation.

  A set is the strictly ascending list of its members, and the order is part of the type.  Two
  sets are therefore equal as soon as they have the same members (`OffsetSet.ext`), every set
  is listed in ascending order, and every operation computes by structural recursion.

  Each operation has one membership lemma; later proofs use those and never the lists below.

  | operation      | membership                          |
  |----------------|-------------------------------------|
  | `insert x s`   | `y = x ∨ y ∈ s`                     |
  | `s.erase x`    | `y ∈ s ∧ y ≠ x`                     |
  | `s.filter p`   | `y ∈ s ∧ p y`                       |
  | `s ∩ t`        | `y ∈ s ∧ y ∈ t`                     |
  | `ofList l`     | `y ∈ l`                             |
-/
import BytecodeFlow.Offset.Basic

namespace BytecodeFlow

/-! ## §1. Strictly ascending lists -/

namespace Ascending

/-- Puts `x` at its place in an ascending list; a member stays single. -/
def insert (x : Offset) : List Offset → List Offset
  | [] => [x]
  | y :: ys =>
    if x < y then x :: y :: ys
    else if x = y then y :: ys
    else y :: insert x ys

/-- Insertion adds one member and loses none. -/
theorem mem_insert {x y : Offset} {l : List Offset} : y ∈ insert x l ↔ y = x ∨ y ∈ l := by
  induction l with
  | nil => simp [insert]
  | cons z zs ih => grind [insert]

/-- Insertion keeps the list strictly ascending, which is what makes it a set again. -/
theorem pairwise_insert {x : Offset} {l : List Offset} (h : l.Pairwise (· < ·)) :
    (insert x l).Pairwise (· < ·) := by
  induction l with
  | nil => simp [insert]
  | cons y ys ih => grind [insert, mem_insert, List.pairwise_cons]

theorem length_insert_le {x : Offset} {l : List Offset} : (insert x l).length ≤ l.length + 1 := by
  induction l with
  | nil => simp [insert]
  | cons y ys ih => grind [insert]

/-- The common members of two ascending lists, in one walk along both. -/
def common : List Offset → List Offset → List Offset
  | [], _ => []
  | x :: xs, ys =>
    let rest := ys.dropWhile (· < x)
    if rest.head? = some x then x :: common xs rest else common xs rest

/-- Dropping what lies below `x` loses no member from `x` on. -/
theorem mem_dropWhile_lt {x z : Offset} {l : List Offset} (h : l.Pairwise (· < ·)) (hz : x ≤ z) :
    z ∈ l.dropWhile (· < x) ↔ z ∈ l := by
  induction l with
  | nil => simp
  | cons y ys ih => grind [List.dropWhile_cons, List.pairwise_cons]

/-- What is left starts with `x` exactly if `x` is a member. -/
theorem head?_dropWhile_lt {x : Offset} {l : List Offset} (h : l.Pairwise (· < ·)) :
    (l.dropWhile (· < x)).head? = some x ↔ x ∈ l := by
  induction l with
  | nil => simp
  | cons y ys ih => grind [List.dropWhile_cons, List.pairwise_cons]

/-- The walk along both lists finds what a search for each member would. -/
theorem common_eq_filter {l m : List Offset} (hl : l.Pairwise (· < ·)) (hm : m.Pairwise (· < ·)) :
    common l m = l.filter (· ∈ m) := by
  induction l generalizing m with
  | nil => rfl
  | cons x xs ih =>
    have hrest := hm.sublist (List.dropWhile_sublist (fun y => decide (y < x)))
    -- what is dropped lies below `x`, so no later member of `l` is lost
    have hmem : xs.filter (· ∈ m.dropWhile (· < x)) = xs.filter (· ∈ m) :=
      List.filter_congr fun z hz => by
        have : x ≤ z := Nat.le_of_lt ((List.pairwise_cons.1 hl).1 z hz)
        simp [mem_dropWhile_lt hm this]
    simp only [common, head?_dropWhile_lt hm, List.filter_cons,
      ih (List.pairwise_cons.1 hl).2 hrest, hmem, decide_eq_true_eq]

/-- Two ascending lists with the same members are the same list. -/
theorem eq_of_mem_iff {l m : List Offset} (hl : l.Pairwise (· < ·)) (hm : m.Pairwise (· < ·))
    (h : ∀ x, x ∈ l ↔ x ∈ m) : l = m := by
  induction l generalizing m with
  | nil => cases m with
    | nil => rfl
    | cons y ys => exact absurd ((h y).2 (by simp)) (by simp)
  | cons x xs ih => cases m with
    | nil => exact absurd ((h x).1 (by simp)) (by simp)
    | cons y ys =>
      have hxs := List.pairwise_cons.1 hl
      have hys := List.pairwise_cons.1 hm
      -- the least members are the same; each of the others lies above them
      have hxy : x = y := by
        have h₁ := h x
        have h₂ := h y
        grind
      subst hxy
      rw [ih hxs.2 hys.2]
      intro z
      have h₁ := h z
      have h₂ := hxs.1 z
      have h₃ := hys.1 z
      grind

/-- Of two ascending lists the smaller set of members is a sublist. -/
theorem sublist_of_subset {l m : List Offset} (hl : l.Pairwise (· < ·)) (hm : m.Pairwise (· < ·))
    (h : ∀ x ∈ l, x ∈ m) : l.Sublist m := by
  have : l = m.filter (· ∈ l) :=
    eq_of_mem_iff hl (hm.filter _) fun x => by
      simp only [List.mem_filter, decide_eq_true_eq]
      exact ⟨fun hx => ⟨h x hx, hx⟩, And.right⟩
  rw [this]
  exact List.filter_sublist

end Ascending

/-! ## §2. The type -/

/-- A finite set of offsets. -/
structure OffsetSet where
  /-- The members, from the smallest up. -/
  toList : List Offset
  ascending : toList.Pairwise (· < ·)
deriving DecidableEq

namespace OffsetSet

instance : Membership Offset OffsetSet := ⟨fun s x => x ∈ s.toList⟩

theorem mem_def {x : Offset} {s : OffsetSet} : x ∈ s ↔ x ∈ s.toList := Iff.rfl

@[simp, grind =] theorem mem_toList {x : Offset} {s : OffsetSet} : x ∈ s.toList ↔ x ∈ s := Iff.rfl

instance (x : Offset) (s : OffsetSet) : Decidable (x ∈ s) :=
  inferInstanceAs (Decidable (x ∈ s.toList))

/-- **A set is its members.** -/
@[ext] theorem ext {s t : OffsetSet} (h : ∀ x, x ∈ s ↔ x ∈ t) : s = t := by
  cases s with
  | mk l hl => cases t with
    | mk m hm =>
      congr
      exact Ascending.eq_of_mem_iff hl hm h

instance : HasSubset OffsetSet := ⟨fun s t => ∀ x ∈ s, x ∈ t⟩

theorem subset_def {s t : OffsetSet} : s ⊆ t ↔ ∀ x ∈ s, x ∈ t := Iff.rfl

instance (s t : OffsetSet) : Decidable (s ⊆ t) :=
  inferInstanceAs (Decidable (∀ x ∈ s.toList, x ∈ t.toList))

theorem Subset.refl (s : OffsetSet) : s ⊆ s := fun _ h => h

theorem Subset.trans {s t u : OffsetSet} (h : s ⊆ t) (k : t ⊆ u) : s ⊆ u := fun x hx => k x (h x hx)

/-- Two sets inside each other have the same members, so they are equal. -/
theorem Subset.antisymm {s t : OffsetSet} (h : s ⊆ t) (k : t ⊆ s) : s = t :=
  ext fun x => ⟨h x, k x⟩

/-! ## §3. Operations -/

instance : EmptyCollection OffsetSet := ⟨⟨[], List.Pairwise.nil⟩⟩

instance : Inhabited OffsetSet := ⟨∅⟩

@[simp, grind .] theorem not_mem_empty {x : Offset} : x ∉ (∅ : OffsetSet) := List.not_mem_nil

@[simp] theorem toList_empty : (∅ : OffsetSet).toList = [] := rfl

instance : Insert Offset OffsetSet :=
  ⟨fun x s => ⟨Ascending.insert x s.toList, Ascending.pairwise_insert s.ascending⟩⟩

@[simp, grind =]
theorem mem_insert {x y : Offset} {s : OffsetSet} : y ∈ insert x s ↔ y = x ∨ y ∈ s :=
  Ascending.mem_insert

instance : Singleton Offset OffsetSet := ⟨fun x => insert x ∅⟩

@[simp, grind =] theorem mem_singleton {x y : Offset} : y ∈ ({x} : OffsetSet) ↔ y = x := by
  show y ∈ (insert x ∅ : OffsetSet) ↔ y = x
  simp

/-- Two pairs with one member in common are the same exactly if their other members are. -/
theorem pair_eq_pair_iff {x y z : Offset} :
    ({x, z} : OffsetSet) = {y, z} ↔ x = y := by
  constructor
  · intro h
    have hx : x ∈ ({y, z} : OffsetSet) := h ▸ mem_insert.2 (.inl rfl)
    have hy : y ∈ ({x, z} : OffsetSet) := h ▸ mem_insert.2 (.inl rfl)
    simp only [mem_insert, mem_singleton] at hx hy
    rcases hx with hx | hx
    · exact hx
    · rcases hy with hy | hy
      · exact hy.symm
      · exact hx.trans hy.symm
  · rintro rfl
    rfl

/-- The members that satisfy `p`. -/
def filter (p : Offset → Bool) (s : OffsetSet) : OffsetSet :=
  ⟨s.toList.filter p, s.ascending.filter p⟩

@[simp, grind =] theorem mem_filter {p : Offset → Bool} {y : Offset} {s : OffsetSet} :
    y ∈ s.filter p ↔ y ∈ s ∧ p y = true :=
  List.mem_filter

/-- The set without `x`. -/
def erase (s : OffsetSet) (x : Offset) : OffsetSet := s.filter (· ≠ x)

@[simp, grind =]
theorem mem_erase {x y : Offset} {s : OffsetSet} : y ∈ s.erase x ↔ y ∈ s ∧ y ≠ x := by
  simp [erase]

instance : Inter OffsetSet :=
  ⟨fun s t => ⟨Ascending.common s.toList t.toList, by
    rw [Ascending.common_eq_filter s.ascending t.ascending]
    exact s.ascending.filter _⟩⟩

@[simp, grind =] theorem mem_inter {y : Offset} {s t : OffsetSet} : y ∈ s ∩ t ↔ y ∈ s ∧ y ∈ t := by
  show y ∈ Ascending.common s.toList t.toList ↔ _
  rw [Ascending.common_eq_filter s.ascending t.ascending]
  simp

/-- The offsets of a list, each once. -/
def ofList (l : List Offset) : OffsetSet := l.foldr insert ∅

@[simp, grind =] theorem mem_ofList {y : Offset} {l : List Offset} : y ∈ ofList l ↔ y ∈ l := by
  induction l with
  | nil => simp [ofList]
  | cons x xs ih =>
    show y ∈ insert x (ofList xs) ↔ _
    simp [ih]

/-- Whether the set has no member. -/
def isEmpty (s : OffsetSet) : Bool := s.toList.isEmpty

theorem isEmpty_iff {s : OffsetSet} : s.isEmpty = true ↔ s = ∅ := by
  rw [isEmpty, List.isEmpty_iff]
  exact ⟨fun h => ext fun x => by simp [← mem_toList, h], fun h => by simp [h]⟩

theorem isEmpty_eq_false_iff {s : OffsetSet} : s.isEmpty = false ↔ ∃ x, x ∈ s := by
  rw [isEmpty, List.isEmpty_eq_false_iff_exists_mem]
  rfl

theorem ne_empty_iff {s : OffsetSet} : s ≠ ∅ ↔ ∃ x, x ∈ s := by
  rw [← isEmpty_eq_false_iff, ← Bool.not_eq_true, isEmpty_iff]

/-! ## §4. Size -/

/-- The number of members. -/
def size (s : OffsetSet) : Nat := s.toList.length

/-- One more member at most: `x` may have been there before. -/
theorem size_insert_le {x : Offset} {s : OffsetSet} : (insert x s).size ≤ s.size + 1 :=
  Ascending.length_insert_le

theorem size_singleton_le {x : Offset} : ({x} : OffsetSet).size ≤ 1 := size_insert_le

/-- The members of a subset are among the others, in the same order. -/
theorem size_le_of_subset {s t : OffsetSet} (h : s ⊆ t) : s.size ≤ t.size :=
  (Ascending.sublist_of_subset s.ascending t.ascending h).length_le

/-- A subset that is not smaller is the whole set. -/
theorem eq_of_subset_of_size_le {s t : OffsetSet} (h : s ⊆ t) (hsize : t.size ≤ s.size) :
    s = t := by
  have hsub := Ascending.sublist_of_subset s.ascending t.ascending h
  exact Subset.antisymm h (fun x hx => by
    have heq : s.toList = t.toList := hsub.eq_of_length_le hsize
    rw [mem_def, heq]
    exact hx)

/-- A subset that lacks a member is smaller. -/
theorem size_lt_of_subset_of_ne {s t : OffsetSet} (h : s ⊆ t) (hne : s ≠ t) : s.size < t.size := by
  rcases Nat.lt_or_ge s.size t.size with hlt | hge
  · exact hlt
  · exact absurd (eq_of_subset_of_size_le h hge) hne

theorem size_erase {x : Offset} {s : OffsetSet} (h : x ∈ s) : (s.erase x).size + 1 = s.size := by
  have hnodup : s.toList.Nodup := s.ascending.imp Nat.ne_of_lt
  have herase : (s.erase x).toList = s.toList.erase x := by
    rw [hnodup.erase_eq_filter]
    refine List.filter_congr fun y _ => ?_
    by_cases hy : y = x
    · simp [hy]
    · simp [hy]
  have hpos : 0 < s.toList.length := List.length_pos_of_mem h
  unfold size
  rw [herase, List.length_erase_of_mem h]
  omega

end OffsetSet

end BytecodeFlow
