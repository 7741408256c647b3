/-
  BytecodeFlow.Proofs.Dot.Lines — THE LINES OF A DRAWING, taken apart again.

  A line puts numbers, a list of numbers and fixed words behind one another.  Nothing says how long
  a part is; it ends where a character stands that the part cannot have:

  | part            | ends at            |
  |-----------------|--------------------|
  | a number        | what is no digit   |
  | the role        | a backslash        |
  | the body        | its bracket        |
  | a line          | a line feed        |

  `append_cons_inj` is this argument once and for all: two texts whose first parts end so are equal
  only if the parts are.  `Dot.blockLine_inj` and `Dot.edgeLine_inj` read a line from left to right
  with it.  A line has no line feed, whatever the title, so a drawing falls into its lines again
  (`Dot.textLines_toDot`), and the title has but one of them.

  Main statement: `Dot.drawn_toDot`.
-/
import BytecodeFlow.Proofs.Dot.Quoted

namespace BytecodeFlow

/-! ## §1. Where a part ends -/

/-- Two parts that end at the first entry without `p` are equal if they and what follows are. -/
theorem append_cons_inj {α : Type} {p : α → Bool} {x y l m : List α} {c d : α}
    (hx : ∀ a ∈ x, p a = true) (hy : ∀ a ∈ y, p a = true) (hc : p c = false) (hd : p d = false) :
    x ++ c :: l = y ++ d :: m ↔ x = y ∧ c = d ∧ l = m := by
  constructor
  · -- on the first part, with the second one general: both are walked together
    intro h
    induction x generalizing y with
    | nil =>
      cases y with
      | nil => exact ⟨rfl, List.cons.inj h⟩
      | cons b y =>
        -- the second part would go on where the first one ends
        obtain ⟨rfl, _⟩ := List.cons.inj h
        rw [hy c List.mem_cons_self] at hc
        cases hc
    | cons a x ih =>
      cases y with
      | nil =>
        -- the same with the parts swapped
        obtain ⟨rfl, _⟩ := List.cons.inj h
        rw [hx a List.mem_cons_self] at hd
        cases hd
      | cons b y =>
        obtain ⟨rfl, hrest⟩ := List.cons.inj h
        obtain ⟨rfl, hbehind⟩ := ih (fun c hc => hx c (List.mem_cons_of_mem a hc))
          (fun c hc => hy c (List.mem_cons_of_mem a hc)) hrest
        exact ⟨rfl, hbehind⟩
  · rintro ⟨rfl, rfl, rfl⟩
    rfl

namespace Offset

theorem toList_toString (o : Offset) : (toString o).toList = Nat.toDigits 10 o := by
  rw [Nat.toString_eq_repr, Nat.toList_repr]

/-- Nothing but digits is in a number, so any other character ends it. -/
theorem isDigit_of_mem {o : Offset} {c : Char} (h : c ∈ (toString o).toList) :
    c.isDigit = true := by
  rw [toList_toString] at h
  exact Nat.isDigit_of_mem_toDigits (by decide) (by decide) h

/-- **A number can be read back from its digits.** -/
theorem toList_toString_inj {o o' : Offset} :
    (toString o).toList = (toString o').toList ↔ o = o' := by
  constructor
  · intro h
    rw [toList_toString, toList_toString] at h
    have hread : ∀ n : Nat, Nat.ofDigitChars 10 (Nat.toDigits 10 n) 0 = n := fun _ =>
      Nat.ofDigitChars_toDigits (by decide) (by decide)
    rw [← hread o, h, hread]
  · rintro rfl
    rfl

/-- A number ends at what is no digit. -/
theorem number_append_inj {o o' : Offset} {l m : List Char} {c d : Char}
    (hc : c.isDigit = false) (hd : d.isDigit = false) :
    (toString o).toList ++ c :: l = (toString o').toList ++ d :: m ↔ o = o' ∧ c = d ∧ l = m := by
  rw [append_cons_inj (fun _ => isDigit_of_mem) (fun _ => isDigit_of_mem) hc hd,
    toList_toString_inj]

/-! ## §2. Lists of numbers -/

theorem joined_singleton (o : Offset) : joined [o] = toString o := String.intercalate_singleton

theorem joined_cons_cons (o p : Offset) (rest : List Offset) :
    joined (o :: p :: rest) = toString o ++ ", " ++ joined (p :: rest) := by
  unfold joined
  rw [List.map_cons, List.map_cons, String.intercalate_cons_cons]

/-- A list of numbers has digits, commas and blanks, so neither a bracket nor a line feed. -/
theorem mem_joined {os : List Offset} {c : Char} (h : c ∈ (joined os).toList) :
    c.isDigit = true ∨ c = ',' ∨ c = ' ' := by
  -- on the list: its first number, the two characters that part it from the rest, the rest
  induction os with
  | nil => cases h
  | cons o rest ih =>
    cases rest with
    | nil =>
      rw [joined_singleton] at h
      exact .inl (isDigit_of_mem h)
    | cons p rest =>
      rw [joined_cons_cons, String.toList_append, String.toList_append, List.mem_append,
        List.mem_append] at h
      rcases h with (h | h) | h
      · exact .inl (isDigit_of_mem h)
      · exact .inr (by simpa using h)
      · exact ih h

/-- What stands behind the first number of a list: the other numbers, or the closing bracket. -/
theorem exists_joined_cons (o : Offset) (rest : List Offset) (l : List Char) :
    ∃ c m, (joined (o :: rest)).toList ++ ']' :: l = (toString o).toList ++ c :: m ∧
      c.isDigit = false ∧ (rest = [] ∧ c = ']' ∧ m = l ∨
        rest ≠ [] ∧ c = ',' ∧ m = ' ' :: ((joined rest).toList ++ ']' :: l)) := by
  cases rest with
  | nil => exact ⟨']', l, by rw [joined_singleton], by decide, .inl ⟨rfl, rfl, rfl⟩⟩
  | cons p rest =>
    refine ⟨',', _, ?_, by decide, .inr ⟨List.cons_ne_nil _ _, rfl, rfl⟩⟩
    rw [joined_cons_cons, String.toList_append, String.toList_append, List.append_assoc,
      List.append_assoc]
    rfl

/-- An empty list is told from others by the bracket that stands in place of a digit. -/
theorem joined_nil_ne_joined_cons {o : Offset} {rest : List Offset} {l m : List Char} :
    (joined []).toList ++ ']' :: l ≠ (joined (o :: rest)).toList ++ ']' :: m := by
  obtain ⟨c, m, heq, hc, _⟩ := exists_joined_cons o rest m
  rw [heq]
  intro h
  -- the empty list ends at once, so the first number would have no digits
  have hnil := ((append_cons_inj (fun _ hmem => absurd hmem List.not_mem_nil)
    (fun _ => isDigit_of_mem) (by decide) hc).1 h).1
  rw [toList_toString] at hnil
  exact Nat.toDigits_ne_nil hnil.symm

/-- A list of numbers ends at its bracket. -/
theorem joined_append_inj {os os' : List Offset} {l m : List Char} :
    (joined os).toList ++ ']' :: l = (joined os').toList ++ ']' :: m ↔ os = os' ∧ l = m := by
  constructor
  · intro h
    -- on the first list; the numbers at the front are equal and are taken off both
    induction os generalizing os' with
    | nil =>
      cases os' with
      | nil => exact ⟨rfl, (List.cons.inj h).2⟩
      | cons o' rest' => exact absurd h joined_nil_ne_joined_cons
    | cons o rest ih =>
      cases os' with
      | nil => exact absurd h.symm joined_nil_ne_joined_cons
      | cons o' rest' =>
        obtain ⟨c, x, heq, hc, hrest⟩ := exists_joined_cons o rest l
        obtain ⟨d, y, heq', hd, hrest'⟩ := exists_joined_cons o' rest' m
        rw [heq, heq', number_append_inj hc hd] at h
        obtain ⟨rfl, rfl, rfl⟩ := h
        -- the character behind the number says whether another one follows
        rcases hrest with ⟨rfl, rfl, rfl⟩ | ⟨_, rfl, rfl⟩
        · rcases hrest' with ⟨rfl, _, rfl⟩ | ⟨_, hcomma, _⟩
          · exact ⟨rfl, rfl⟩
          · cases hcomma
        · rcases hrest' with ⟨_, hbracket, _⟩ | ⟨_, _, hmore⟩
          · cases hbracket
          · obtain ⟨rfl, rfl⟩ := ih (List.cons.inj hmore).2
            exact ⟨rfl, rfl⟩
  · rintro ⟨rfl, rfl⟩
    rfl

end Offset

/-! ## §3. Lines -/

namespace Dot

/-- The words that tell the entry. -/
def role (g : Graph) (b : Block) : String := if b.start = g.entry then " (entry)" else ""

/-- The line of an edge. -/
def edgeLine (source target : Offset) : String :=
  s!"    {blockName source} -> {blockName target};"

/-- The lines out of a block, edge by edge. -/
theorem edgeLines_eq (b : Block) : edgeLines b = b.outgoing.toList.map (edgeLine b.start) := rfl

variable {g h : Graph} {b c : Block}

/-- The role has neither the backslash that ends it nor the line feed that ends its line. -/
theorem not_mem_role {d : Char} (hd : d = '\\' ∨ d = '\n') : d ∉ (role g b).toList := by
  unfold role
  rcases hd with rfl | rfl
  · split
    · decide
    · decide
  · split
    · decide
    · decide

/-- A part of a line that is a text already stands there as it is. -/
theorem toString_string (s : String) : toString s = s := rfl

/-- The line of a block with its parts in view, each followed by the character that ends it; the
    words in front of a part are fixed. -/
theorem toList_blockLine (g : Graph) (b : Block) : (blockLine g b).toList =
    "    B".toList ++ ((toString b.start).toList ++ ' ' :: ("[label=\"B".toList ++
      ((toString b.start).toList ++ ((role g b).toList ++ '\\' :: ("l[".toList ++
        ((Offset.joined b.body.toList).toList ++ ']' :: ("\\l\"".toList ++
          ((style g b).toList ++ "];".toList)))))))) := by
  unfold blockLine blockName role
  simp only [toString_string, String.toList_append, List.append_assoc]
  rfl

theorem toList_edgeLine (source target : Offset) : (edgeLine source target).toList =
    "    B".toList ++ ((toString source).toList ++ ' ' :: ("-> B".toList ++
      ((toString target).toList ++ ';' :: []))) := by
  unfold edgeLine blockName
  simp only [toString_string, String.toList_append, List.append_assoc]
  rfl

/-- **The line of a block says where it starts, whether it is the entry, what is in it and its
    style.** -/
theorem blockLine_inj : blockLine g b = blockLine h c ↔
    b.start = c.start ∧ role g b = role h c ∧ b.body = c.body ∧ style g b = style h c := by
  have hmark : ∀ (g : Graph) (b : Block), ∀ a ∈ (role g b).toList, decide (a ≠ '\\') = true := by
    intro g b a ha
    exact decide_eq_true (ne_of_mem_of_not_mem ha (not_mem_role (.inl rfl)))
  rw [← String.toList_inj, toList_blockLine, toList_blockLine]
  constructor
  · intro hline
    -- from left to right, each part up to the character that ends it
    obtain ⟨hstart, _, hline⟩ := (Offset.number_append_inj (by decide) (by decide)).1
      (List.append_cancel_left hline)
    rw [hstart] at hline
    have hline := List.append_cancel_left (List.append_cancel_left hline)
    obtain ⟨hrole, _, hline⟩ := (append_cons_inj (hmark g b) (hmark h c) (by decide) (by decide)).1
      hline
    obtain ⟨hbody, hline⟩ := Offset.joined_append_inj.1 (List.append_cancel_left hline)
    have hstyle := List.append_cancel_right (List.append_cancel_left hline)
    exact ⟨hstart, String.toList_inj.1 hrole, Array.toList_inj.1 hbody, String.toList_inj.1 hstyle⟩
  · rintro ⟨hstart, hrole, hbody, hstyle⟩
    rw [hstart, hrole, hbody, hstyle]

theorem edgeLine_inj {source target source' target' : Offset} :
    edgeLine source target = edgeLine source' target' ↔ source = source' ∧ target = target' := by
  rw [← String.toList_inj, toList_edgeLine, toList_edgeLine]
  constructor
  · intro hline
    -- the source ends at the blank, the target at the semicolon
    obtain ⟨hsource, _, hline⟩ := (Offset.number_append_inj (by decide) (by decide)).1
      (List.append_cancel_left hline)
    obtain ⟨htarget, _⟩ := (Offset.number_append_inj (by decide) (by decide)).1
      (List.append_cancel_left hline)
    exact ⟨hsource, htarget⟩
  · rintro ⟨rfl, rfl⟩
    rfl

/-! ## §4. Drawings -/

theorem newline_not_mem_number {o : Offset} : '\n' ∉ (toString o).toList := by
  intro hmem
  exact absurd (Offset.isDigit_of_mem hmem) (by decide)

theorem newline_not_mem_joined {os : List Offset} : '\n' ∉ (Offset.joined os).toList := by
  intro hmem
  exact absurd (Offset.mem_joined hmem) (by decide)

/-- No style breaks its line. -/
theorem newline_not_mem_style : '\n' ∉ (style g b).toList := by
  unfold style
  split
  · decide
  · split
    · decide
    · split
      · decide
      · decide

/-- No line of a drawing has a line feed, whatever stands in the title. -/
theorem newline_not_mem_lines {title : Option String} :
    ∀ line ∈ lines g title, '\n' ∉ line.toList := by
  unfold lines
  simp only [List.forall_mem_append]
  -- the fixed lines are looked at; the title, the blocks and the edges are taken apart
  refine ⟨⟨⟨⟨⟨⟨by decide, ?title⟩, by decide⟩, ?blocks⟩, by decide⟩, ?edges⟩, by decide⟩
  case title =>
    intro line hline
    obtain ⟨t, _, rfl⟩ := Option.map_eq_some_iff.1 (Option.mem_toList.1 hline)
    rw [toList_titleLine]
    simp only [List.mem_append, not_or]
    exact ⟨by decide, by decide, not_mem_escape t (.inl rfl), by decide⟩
  case blocks =>
    intro line hline
    obtain ⟨b, _, rfl⟩ := List.mem_map.1 hline
    rw [toList_blockLine]
    simp only [List.mem_append, List.mem_cons, not_or]
    exact ⟨by decide, newline_not_mem_number, by decide, by decide, newline_not_mem_number,
      not_mem_role (.inr rfl), by decide, by decide, newline_not_mem_joined, by decide, by decide,
      newline_not_mem_style, by decide⟩
  case edges =>
    intro line hline
    obtain ⟨b, _, hline⟩ := List.mem_flatMap.1 hline
    rw [edgeLines_eq] at hline
    obtain ⟨target, _, rfl⟩ := List.mem_map.1 hline
    rw [toList_edgeLine]
    simp only [List.mem_append, List.mem_cons, not_or]
    exact ⟨by decide, newline_not_mem_number, by decide, by decide, newline_not_mem_number,
      by decide, List.not_mem_nil⟩

/-- The lines of a text. -/
def textLines (text : String) : List (List Char) := text.toList.splitOn '\n'

/-- Splitting at the line feeds undoes ending each line with one. -/
theorem splitOn_flatMap_lines {ls : List String} (h : ∀ line ∈ ls, '\n' ∉ line.toList) :
    (ls.flatMap fun line => line.toList ++ ['\n']).splitOn '\n' = ls.map String.toList ++ [[]] := by
  -- on the lines: the first line feed is the one behind the first line
  induction ls with
  | nil => rfl
  | cons line rest ih =>
    rw [List.flatMap_cons, List.append_assoc, List.singleton_append,
      List.splitOn_append_cons_self_of_not_mem (h line List.mem_cons_self),
      ih fun line hline => h line (List.mem_cons_of_mem _ hline)]
    rfl

/-- A drawing as characters: its lines, each with a line feed. -/
theorem toList_toDot {title : Option String} :
    (g.toDot title).toList = (lines g title).flatMap fun line => line.toList ++ ['\n'] := by
  unfold Graph.toDot
  rw [String.toList_join, List.flatMap_map]
  simp only [String.toList_append]
  rfl

/-- **A drawing falls into its lines again**, and an empty one behind the last line feed. -/
theorem textLines_toDot {title : Option String} :
    textLines (g.toDot title) = (lines g title).map String.toList ++ [[]] := by
  unfold textLines
  rw [toList_toDot, splitOn_flatMap_lines newline_not_mem_lines]

/-- **Drawings are equal exactly if their lines are**, one by one. -/
theorem toDot_inj {title title' : Option String} :
    g.toDot title = h.toDot title' ↔ lines g title = lines h title' := by
  constructor
  · intro heq
    -- equal texts fall into equal lines
    have hlines : textLines (g.toDot title) = textLines (h.toDot title') := by rw [heq]
    rw [textLines_toDot, textLines_toDot] at hlines
    exact List.map_inj_right (fun _ _ => String.toList_inj.1) |>.1 (List.append_cancel_right hlines)
  · intro heq
    unfold Graph.toDot
    rw [heq]

/-- Whether a line begins with the name of a block. -/
def namesBlock (line : List Char) : Bool := "    B".toList.isPrefixOf line

/-- The lines of a text that say something of a block or an edge. -/
def drawn (text : String) : List (List Char) := (textLines text).filter namesBlock

/-- A title stands behind a label, so its line names no block however it goes on. -/
theorem namesBlock_titleLine {title : String} : namesBlock (titleLine title).toList = false := by
  rw [toList_titleLine]
  rfl

theorem namesBlock_blockLine : namesBlock (blockLine g b).toList = true := by
  rw [toList_blockLine]
  rfl

theorem namesBlock_edgeLine {source target : Offset} :
    namesBlock (edgeLine source target).toList = true := by
  rw [toList_edgeLine]
  rfl

/-- **A title draws nothing and hides nothing**: what a drawing says of blocks and edges are the
    lines of its blocks and edges, in their order. -/
theorem drawn_toDot {title : Option String} : drawn (g.toDot title) =
    (g.inOrder.map (blockLine g) ++ g.inOrder.flatMap edgeLines).map String.toList := by
  have htitle : (((title.map titleLine).toList.map String.toList).filter namesBlock) = [] := by
    cases title with
    | none => rfl
    | some t => exact List.filter_cons_of_neg (by simp [namesBlock_titleLine])
  have hblocks : ((g.inOrder.map (blockLine g)).map String.toList).filter namesBlock =
      (g.inOrder.map (blockLine g)).map String.toList := by
    rw [List.filter_eq_self, List.forall_mem_map, List.forall_mem_map]
    exact fun _ _ => namesBlock_blockLine
  -- of the lines for blocks and edges every one is kept
  have hedges : ((g.inOrder.flatMap edgeLines).map String.toList).filter namesBlock =
      (g.inOrder.flatMap edgeLines).map String.toList := by
    rw [List.filter_eq_self, List.forall_mem_map]
    intro line hline
    obtain ⟨b, _, hline⟩ := List.mem_flatMap.1 hline
    obtain ⟨target, _, rfl⟩ := List.mem_map.1 (edgeLines_eq b ▸ hline)
    exact namesBlock_edgeLine
  unfold drawn
  rw [textLines_toDot]
  unfold lines
  simp only [List.map_append, List.filter_append]
  rw [htitle, hblocks, hedges]
  -- of the fixed lines none is left
  show [] ++ [] ++ [] ++ _ ++ [] ++ _ ++ [] ++ [] = _
  simp only [List.nil_append, List.append_nil]

end Dot

end BytecodeFlow
