/-
  BytecodeFlow.Offset.Map — FINITE MAPS FROM OFFSETS, each with one representation.

  A map is the list of its entries in strictly ascending order of their keys.  As with sets the
  order is part of the type: two maps that answer `get?` alike are equal (`OffsetMap.ext`), and
  entries, keys and values are always listed from the smallest key up.

  `get?` is the view of a map.  Each operation has one `get?_…` lemma and one `keys_…` lemma.
  `floor?` is the exception that looks at the order: it finds the entry with the greatest key
  not above a given offset (`floor?_eq_some_iff`).
-/
import BytecodeFlow.Offset.Set

namespace BytecodeFlow

/-- A finite map from offsets to `α`. -/
structure OffsetMap (α : Type) where
  /-- The entries, from the smallest key up. -/
  entries : List (Offset × α)
  ascending : (entries.map Prod.fst).Pairwise (· < ·)
deriving DecidableEq

namespace OffsetMap

variable {α β : Type}

/-! ## §1. Lookup and keys -/

/-- The value stored under `k`. -/
def get? (m : OffsetMap α) (k : Offset) : Option α := m.entries.lookup k

/-- The keys. -/
def keys (m : OffsetMap α) : OffsetSet := ⟨m.entries.map Prod.fst, m.ascending⟩

/-- The values, from the smallest key up. -/
def values (m : OffsetMap α) : List α := m.entries.map Prod.snd

/-- The number of entries. -/
def size (m : OffsetMap α) : Nat := m.entries.length

@[simp] theorem size_keys (m : OffsetMap α) : m.keys.size = m.size := by
  simp [keys, size, OffsetSet.size]

/-- In an ascending list of entries, looking a key up finds each entry. -/
theorem lookup_eq_some_iff {l : List (Offset × α)} (h : (l.map Prod.fst).Pairwise (· < ·))
    {k : Offset} {v : α} : l.lookup k = some v ↔ (k, v) ∈ l := by
  induction l with
  | nil => simp
  | cons e es ih =>
    obtain ⟨i, w⟩ := e
    have hcons := List.pairwise_cons.1 h
    have hfst : ∀ u, (i, u) ∉ es := fun u hu =>
      Nat.lt_irrefl i (hcons.1 i (List.mem_map.2 ⟨(i, u), hu, rfl⟩))
    have := ih hcons.2
    grind

/-- The keys ascend, so no entry hides another. -/
theorem get?_eq_some_iff {m : OffsetMap α} {k : Offset} {v : α} :
    m.get? k = some v ↔ (k, v) ∈ m.entries :=
  lookup_eq_some_iff m.ascending

theorem mem_keys_iff {m : OffsetMap α} {k : Offset} : k ∈ m.keys ↔ ∃ v, m.get? k = some v := by
  simp [get?_eq_some_iff, keys, OffsetSet.mem_def]

theorem get?_eq_none_iff {m : OffsetMap α} {k : Offset} : m.get? k = none ↔ k ∉ m.keys := by
  rw [mem_keys_iff]
  cases m.get? k <;> simp

theorem mem_keys_of_get? {m : OffsetMap α} {k : Offset} {v : α} (h : m.get? k = some v) :
    k ∈ m.keys :=
  mem_keys_iff.2 ⟨v, h⟩

/-- **A map is what it answers.** -/
@[ext] theorem ext {m n : OffsetMap α} (h : ∀ k, m.get? k = n.get? k) : m = n := by
  -- alike answers give alike entries, hence one list of keys; the values then agree key by key
  have hmem : ∀ e, e ∈ m.entries ↔ e ∈ n.entries := fun e => by
    rw [← get?_eq_some_iff, ← get?_eq_some_iff, h]
  have hkeys : m.entries.map Prod.fst = n.entries.map Prod.fst :=
    Ascending.eq_of_mem_iff m.ascending n.ascending fun k => by simp [hmem]
  have hall : ∀ l l' : List (Offset × α), l.map Prod.fst = l'.map Prod.fst →
      (∀ k v v', (k, v) ∈ l → (k, v') ∈ l' → v = v') → l = l' := by
    intro l
    induction l with
    | nil => intro l' hmap _; cases l' <;> simp_all
    | cons e es ih => intro l' hmap hval; cases l' <;> grind
  cases m with
  | mk l hl => cases n with
    | mk l' hl' =>
      congr
      refine hall l l' hkeys fun k v v' hv hv' => ?_
      have hv₂ := (hmem (k, v)).1 hv
      have := (lookup_eq_some_iff hl').2 hv₂
      have := (lookup_eq_some_iff hl').2 hv'
      simp_all

/-! ## §2. Insertion -/

/-- Puts an entry at its place; an entry already under that key is replaced. -/
def insertEntry (k : Offset) (v : α) : List (Offset × α) → List (Offset × α)
  | [] => [(k, v)]
  | e :: es =>
    if k < e.1 then (k, v) :: e :: es
    else if k = e.1 then (k, v) :: es
    else e :: insertEntry k v es

/-- The keys change as the set of keys does; the order of the entries rests on this. -/
theorem map_fst_insertEntry {k : Offset} {v : α} {l : List (Offset × α)} :
    (insertEntry k v l).map Prod.fst = Ascending.insert k (l.map Prod.fst) := by
  induction l with
  | nil => rfl
  | cons e es ih => grind [insertEntry, Ascending.insert]

/-- The new entry is found under its key, whatever was there before, and any other key finds what it
    found. -/
theorem lookup_insertEntry {k i : Offset} {v : α} {l : List (Offset × α)}
    (h : (l.map Prod.fst).Pairwise (· < ·)) :
    (insertEntry k v l).lookup i = if i = k then some v else l.lookup i := by
  induction l with
  | nil => simp [insertEntry, List.lookup_cons]; grind
  | cons e es ih =>
    have := ih (List.pairwise_cons.1 h).2
    grind [insertEntry]

instance : EmptyCollection (OffsetMap α) := ⟨⟨[], by simp⟩⟩

instance : Inhabited (OffsetMap α) := ⟨∅⟩

@[simp] theorem get?_empty {k : Offset} : (∅ : OffsetMap α).get? k = none := rfl

@[simp] theorem keys_empty : (∅ : OffsetMap α).keys = ∅ := rfl

/-- The map with `v` under `k`, in place of what was there. -/
def insert (m : OffsetMap α) (k : Offset) (v : α) : OffsetMap α :=
  ⟨insertEntry k v m.entries, by
    rw [map_fst_insertEntry]
    exact Ascending.pairwise_insert m.ascending⟩

@[simp] theorem get?_insert {m : OffsetMap α} {k i : Offset} {v : α} :
    (m.insert k v).get? i = if i = k then some v else m.get? i :=
  lookup_insertEntry m.ascending

@[simp] theorem keys_insert {m : OffsetMap α} {k : Offset} {v : α} :
    (m.insert k v).keys = Insert.insert k m.keys := by
  ext i
  simp only [mem_keys_iff, get?_insert, OffsetSet.mem_insert]
  split <;> simp_all

/-- The map of a list of entries; of several entries under one key the last counts. -/
def ofList (l : List (Offset × α)) : OffsetMap α := l.foldl (fun m e => m.insert e.1 e.2) ∅

/-- Entries added later hide earlier ones. -/
theorem get?_foldl_insert {l : List (Offset × α)} {m : OffsetMap α} {k : Offset} :
    (l.foldl (fun m e => m.insert e.1 e.2) m).get? k = (l.reverse.lookup k).or (m.get? k) := by
  induction l generalizing m with
  | nil => simp
  | cons e es ih =>
    simp only [List.foldl_cons, ih, get?_insert, List.reverse_cons, List.lookup_append,
      Option.or_assoc]
    congr 1
    grind

/-- Of several entries under one key the last one is found, so the list is searched from its end. -/
@[simp] theorem get?_ofList {l : List (Offset × α)} {k : Offset} :
    (ofList l).get? k = l.reverse.lookup k := by
  simp [ofList, get?_foldl_insert]

/-- Every key of the list is kept, once. -/
@[simp] theorem mem_keys_ofList {l : List (Offset × α)} {k : Offset} :
    k ∈ (ofList l).keys ↔ k ∈ l.map Prod.fst := by
  rw [← Decidable.not_iff_not, ← get?_eq_none_iff, get?_ofList, List.lookup_eq_none_iff]
  simp only [List.mem_reverse, bne_iff_ne, List.mem_map, not_exists, not_and]
  exact ⟨fun h e he hk => h e he hk.symm, fun h e he hk => h e he hk.symm⟩

/-! ## §3. Maps made from a set of keys or from another map -/

/-- The map with the given keys and the value `f k` under each `k`. -/
def ofKeys (s : OffsetSet) (f : Offset → α) : OffsetMap α :=
  ⟨s.toList.map fun k => (k, f k), by simpa [Function.comp_def] using s.ascending⟩

@[simp] theorem keys_ofKeys {s : OffsetSet} {f : Offset → α} : (ofKeys s f).keys = s := by
  simp [keys, ofKeys, Function.comp_def]

/-- A key outside the given set has no value, though `f` would have one for it. -/
@[simp] theorem get?_ofKeys {s : OffsetSet} {f : Offset → α} {k : Offset} :
    (ofKeys s f).get? k = if k ∈ s then some (f k) else none := by
  split
  · rename_i h
    rw [get?_eq_some_iff]
    exact List.mem_map.2 ⟨k, h, rfl⟩
  · rename_i h
    rw [get?_eq_none_iff, keys_ofKeys]
    exact h

/-- The map with every value replaced, each with its key in view. -/
def mapValues (f : Offset → α → β) (m : OffsetMap α) : OffsetMap β :=
  ⟨m.entries.map fun e => (e.1, f e.1 e.2), by simpa [Function.comp_def] using m.ascending⟩

@[simp] theorem keys_mapValues {f : Offset → α → β} {m : OffsetMap α} :
    (m.mapValues f).keys = m.keys := by
  simp [keys, mapValues, Function.comp_def]

@[simp] theorem get?_mapValues {f : Offset → α → β} {m : OffsetMap α} {k : Offset} :
    (m.mapValues f).get? k = (m.get? k).map (f k) := by
  have hiff : ∀ v, (m.mapValues f).get? k = some v ↔ (m.get? k).map (f k) = some v := fun v => by
    rw [Option.map_eq_some_iff, get?_eq_some_iff]
    simp only [mapValues, List.mem_map, get?_eq_some_iff]
    constructor
    · rintro ⟨⟨i, w⟩, hmem, heq⟩
      cases heq
      exact ⟨w, hmem, rfl⟩
    · rintro ⟨w, hmem, rfl⟩
      exact ⟨(k, w), hmem, rfl⟩
  exact Option.ext hiff

/-! ## §4. Looking at the entries -/

/-- The keys whose entries satisfy `p`. -/
def keysWhere (p : Offset → α → Bool) (m : OffsetMap α) : OffsetSet :=
  ⟨(m.entries.filter fun e => p e.1 e.2).map Prod.fst,
    m.ascending.sublist (List.filter_sublist.map Prod.fst)⟩

/-- The keys whose values pass the test. -/
@[simp] theorem mem_keysWhere {p : Offset → α → Bool} {m : OffsetMap α} {k : Offset} :
    k ∈ m.keysWhere p ↔ ∃ v, m.get? k = some v ∧ p k v = true := by
  simp [keysWhere, OffsetSet.mem_def, get?_eq_some_iff]

/-! ## §5. The nearest entry -/

/-- The value under the greatest key that is not above `x`. -/
def floor? (m : OffsetMap α) (x : Offset) : Option α :=
  (m.entries.takeWhile (·.1 ≤ x)).getLast?.map Prod.snd

/-- In an ascending list of entries, no key behind the first that exceeds `x` is small again. -/
theorem takeWhile_eq_filter {l : List (Offset × α)} (h : (l.map Prod.fst).Pairwise (· < ·))
    (x : Offset) : l.takeWhile (·.1 ≤ x) = l.filter (·.1 ≤ x) := by
  induction l with
  | nil => rfl
  | cons e es ih =>
    obtain ⟨hfst, hes⟩ := List.pairwise_cons.1 h
    by_cases hx : e.1 ≤ x
    · rw [List.takeWhile_cons_of_pos (by simpa using hx),
        List.filter_cons_of_pos (by simpa using hx), ih hes]
    · -- behind the first key above `x` every key is above it
      have hnone : (e :: es).filter (·.1 ≤ x) = [] := by
        simp only [List.filter_eq_nil_iff, List.mem_cons, decide_eq_true_eq]
        rintro f (rfl | hf) hfx
        · exact hx hfx
        · exact hx (Nat.le_trans (Nat.le_of_lt (hfst f.1 (List.mem_map_of_mem hf))) hfx)
      rw [hnone, List.takeWhile_cons_of_neg (by simpa using hx)]

/-- In an ascending list of entries the last one has the greatest key. -/
theorem getLast?_eq_some_iff {l : List (Offset × α)} (h : (l.map Prod.fst).Pairwise (· < ·))
    {e : Offset × α} : l.getLast? = some e ↔ e ∈ l ∧ ∀ f ∈ l, f.1 ≤ e.1 := by
  constructor
  · intro hlast
    obtain ⟨front, rfl⟩ := List.getLast?_eq_some_iff.1 hlast
    rw [List.map_append, List.pairwise_append] at h
    refine ⟨by simp, fun f hf => ?_⟩
    rcases List.mem_append.1 hf with hf | hf
    · exact Nat.le_of_lt (h.2.2 f.1 (List.mem_map_of_mem hf) e.1 (by simp))
    · exact Nat.le_of_eq (congrArg Prod.fst (List.mem_singleton.1 hf))
  · intro ⟨hmem, hgreatest⟩
    obtain ⟨front, back, rfl⟩ := List.append_of_mem hmem
    cases back with
    | nil => exact List.getLast?_concat
    | cons f back =>
      -- what stands behind `e` would have a greater key
      rw [List.map_append, List.pairwise_append] at h
      have hlt : e.1 < f.1 := (List.pairwise_cons.1 h.2.1).1 f.1 (by simp)
      exact absurd (hgreatest f (by simp)) (Nat.not_le.2 hlt)

/-- **The nearest entry**: what is stored under the greatest key that is not above `x`. -/
theorem floor?_eq_some_iff {m : OffsetMap α} {x : Offset} {v : α} :
    m.floor? x = some v ↔ ∃ k, m.get? k = some v ∧ k ≤ x ∧ ∀ i ∈ m.keys, i ≤ x → i ≤ k := by
  have hasc : ((m.entries.filter (·.1 ≤ x)).map Prod.fst).Pairwise (· < ·) :=
    m.ascending.sublist (List.filter_sublist.map Prod.fst)
  unfold floor?
  rw [takeWhile_eq_filter m.ascending, Option.map_eq_some_iff]
  simp only [getLast?_eq_some_iff hasc, get?_eq_some_iff, List.mem_filter, decide_eq_true_eq]
  constructor
  · rintro ⟨⟨k, v⟩, ⟨⟨hmem, hle⟩, hgreatest⟩, rfl⟩
    refine ⟨k, hmem, hle, fun i hi hix => ?_⟩
    obtain ⟨w, hw⟩ := mem_keys_iff.1 hi
    exact hgreatest (i, w) ⟨get?_eq_some_iff.1 hw, hix⟩
  · rintro ⟨k, hmem, hle, hgreatest⟩
    refine ⟨(k, v), ⟨⟨hmem, hle⟩, fun f hf => ?_⟩, rfl⟩
    exact hgreatest f.1 (mem_keys_of_get? (get?_eq_some_iff.2 hf.1)) hf.2

end OffsetMap

end BytecodeFlow
