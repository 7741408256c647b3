/-
  BytecodeFlow.Proofs.Graph.Ends — A CURSOR TAKES THE ORDER OFF FROM BOTH ENDS.

  What a cursor has to do is said on a list: some of it is gone at the front, some at the back, and
  a call takes entries from one end of what is ahead (`Ends`).  Nothing leaves the list that way,
  so each entry is at any time ahead, or gone at one of the ends (`Ends.toList_run`), and what is
  gone is never answered again (`Ends.pairwise_answers`).  The list is the order with its entries
  numbered, since a body that repeats offsets lists them more than once.

  A cursor holds only what is ahead, looks every entry up in the graph, and gives up passing
  entries over where it finds no block.  It does what the list does because it always finds one:

    • every entry of the order of a built graph has a block, overwritten ones included,
    • a repeated step is a step of its own on a list, at either end (`Cursor.repeatStep_eq`; the
      back end is the front end of the list read backwards).

  Main statement: `Cursor.run_of_build`.
-/
import Mathlib.Data.List.Sigma
import BytecodeFlow.Graph.Cursor
import BytecodeFlow.Proofs.Graph.WellFormed

namespace BytecodeFlow

/-! ## §1. Calls -/

/-- A way to ask for a block. -/
inductive Call where
  /-- The first one ahead. -/
  | next
  /-- The last one ahead. -/
  | nextBack
  /-- The first one behind the `k` first. -/
  | nth (k : Nat)
  /-- The last one before the `k` last. -/
  | nthBack (k : Nat)
deriving DecidableEq

namespace Call

/-- The number of entries a call passes over. -/
def skips : Call → Nat
  | .next | .nextBack => 0
  | .nth k | .nthBack k => k

/-- The answers to calls made one after another, and the state they leave. -/
def run {σ β : Type} (step : σ → Call → β × σ) : σ → List Call → List β × σ
  | s, [] => ([], s)
  | s, m :: ms =>
    let rest := run step (step s m).2 ms
    ((step s m).1 :: rest.1, rest.2)

end Call

/-! ## §2. A list taken off from both ends -/

/-- A list in three parts, each in the order of the list. -/
structure Ends (α : Type) where
  /-- What is gone at the front. -/
  front : List α
  /-- What is left. -/
  ahead : List α
  /-- What is gone at the back. -/
  back : List α
deriving DecidableEq

namespace Ends

variable {α : Type} {e : Ends α} {m : Call}

/-- A list of which nothing is gone. -/
def whole (l : List α) : Ends α := ⟨[], l, []⟩

/-- The list. -/
def toList (e : Ends α) : List α := e.front ++ e.ahead ++ e.back

/-- Takes `k` entries and one more off at the front, as far as there are any; the last of them
    is the answer. -/
def takeFront (e : Ends α) (k : Nat) : Option α × Ends α :=
  (e.ahead[k]?, ⟨e.front ++ e.ahead.take (k + 1), e.ahead.drop (k + 1), e.back⟩)

/-- Takes `k` entries and one more off at the back, as far as there are any; the last of them is
    the answer. -/
def takeBack (e : Ends α) (k : Nat) : Option α × Ends α :=
  let rest := e.ahead.length - (k + 1)
  (e.ahead.reverse[k]?, ⟨e.front, e.ahead.take rest, e.ahead.drop rest ++ e.back⟩)

/-- What a call takes off. -/
def call (e : Ends α) : Call → Option α × Ends α
  | .next => e.takeFront 0
  | .nextBack => e.takeBack 0
  | .nth k => e.takeFront k
  | .nthBack k => e.takeBack k

/-- A call is a step at one of the two ends, so a fact about both steps is one about calls. -/
theorem call_cases (e : Ends α) (m : Call) :
    e.call m = e.takeFront m.skips ∨ e.call m = e.takeBack m.skips := by
  cases m with
  | next => exact .inl rfl
  | nextBack => exact .inr rfl
  | nth k => exact .inl rfl
  | nthBack k => exact .inr rfl

theorem toList_call : (e.call m).2.toList = e.toList := by
  rcases e.call_cases m with heq | heq
  · rw [heq]
    show e.front ++ e.ahead.take _ ++ e.ahead.drop _ ++ e.back = _
    rw [List.append_assoc e.front, List.take_append_drop]
    rfl
  · rw [heq]
    show e.front ++ e.ahead.take _ ++ (e.ahead.drop _ ++ e.back) = _
    rw [← List.append_assoc, List.append_assoc e.front, List.take_append_drop]
    rfl

/-- **Calls only move the ends.**  Each position of the list stays in one of the three parts. -/
theorem toList_run {ms : List Call} : (Call.run call e ms).2.toList = e.toList := by
  induction ms generalizing e with
  | nil => rfl
  | cons m ms ih => exact ih.trans toList_call

theorem ahead_call_sublist : (e.call m).2.ahead.Sublist e.ahead := by
  rcases e.call_cases m with heq | heq
  · rw [heq]
    exact List.drop_sublist _ _
  · rw [heq]
    exact List.take_sublist _ _

theorem mem_ahead_of_answer {x : α} (h : (e.call m).1 = some x) : x ∈ e.ahead := by
  rcases e.call_cases m with heq | heq
  · rw [heq] at h
    exact List.mem_of_getElem? h
  · rw [heq] at h
    exact List.mem_reverse.1 (List.mem_of_getElem? h)

/-- Without repeats ahead, what is answered is not ahead any more. -/
theorem not_mem_ahead_of_answer {x : α} (hnodup : e.ahead.Nodup) (h : (e.call m).1 = some x) :
    x ∉ (e.call m).2.ahead := by
  rcases e.call_cases m with heq | heq
  · rw [heq] at h ⊢
    -- the answer is in the part taken off, which shares nothing with the part left
    have htaken : x ∈ e.ahead.take (m.skips + 1) := by
      apply List.mem_of_getElem? (i := m.skips)
      rw [List.getElem?_take_of_lt (Nat.lt_succ_self _)]
      exact h
    exact fun hleft => List.disjoint_take_drop hnodup (Nat.le_refl _) htaken hleft
  · rw [heq] at h ⊢
    have htaken : x ∈ e.ahead.drop (e.ahead.length - (m.skips + 1)) := by
      -- read backwards, the part taken off at the back is one taken off at the front
      rw [← List.mem_reverse, ← List.take_reverse]
      apply List.mem_of_getElem? (i := m.skips)
      rw [List.getElem?_take_of_lt (Nat.lt_succ_self _)]
      exact h
    exact fun hleft => List.disjoint_take_drop hnodup (Nat.le_refl _) hleft htaken

/-- Answers are entries of what was ahead when the first call was made. -/
theorem mem_ahead_of_answers {x : α} {ms : List Call} (h : some x ∈ (Call.run call e ms).1) :
    x ∈ e.ahead := by
  induction ms generalizing e with
  | nil => cases h
  | cons m ms ih =>
    rcases List.mem_cons.1 h with h | h
    · exact mem_ahead_of_answer h.symm
    · exact ahead_call_sublist.subset (ih h)

/-- No entry is answered twice. -/
theorem pairwise_answers {ms : List Call} (hnodup : e.ahead.Nodup) :
    (Call.run call e ms).1.Pairwise fun a b => a = b → a = none := by
  induction ms generalizing e with
  | nil => exact .nil
  | cons m ms ih =>
    refine List.pairwise_cons.2 ⟨?_, ih (hnodup.sublist ahead_call_sublist)⟩
    intro b hb heq
    -- a later answer was still ahead behind this call
    cases hanswer : (e.call m).1 with
    | none => rfl
    | some x =>
      rw [hanswer] at heq
      exact absurd (mem_ahead_of_answers (heq ▸ hb)) (not_mem_ahead_of_answer hnodup hanswer)

/-- A call has an answer exactly if it does not pass over all that is left. -/
theorem call_eq_none_iff : (e.call m).1 = none ↔ e.ahead.length ≤ m.skips := by
  rcases e.call_cases m with heq | heq
  · rw [heq, takeFront, List.getElem?_eq_none_iff]
  · rw [heq, takeBack, List.getElem?_eq_none_iff, List.length_reverse]

/-- If it has none, nothing is left. -/
theorem ahead_of_call_eq_none (h : (e.call m).1 = none) : (e.call m).2.ahead = [] := by
  have hshort : e.ahead.length ≤ m.skips := call_eq_none_iff.1 h
  rcases e.call_cases m with heq | heq
  · rw [heq]
    exact List.drop_eq_nil_of_le (Nat.le_succ_of_le hshort)
  · rw [heq]
    have hrest : e.ahead.length - (m.skips + 1) = 0 := by omega
    simp [takeBack, hrest]

end Ends

/-! ## §3. Cursors -/

namespace Cursor

variable {g : Graph} {c : Cursor g} {m : Call}

/-- What a cursor answers to a call. -/
def call (c : Cursor g) : Call → Option Block × Cursor g
  | .next => c.next
  | .nextBack => c.nextBack
  | .nth k => c.nth k
  | .nthBack k => c.nthBack k

/-- Every entry ahead has a block. -/
def Backed (c : Cursor g) : Prop := ∀ o ∈ c.ahead, ∃ b, g.block? o = some b

section Repeat

variable {step : Cursor g → Option Block × Cursor g} {k : Nat}

theorem repeatStep_succ_of_some {b : Block} (h : (step c).1 = some b) :
    repeatStep step (k + 1) c = repeatStep step k (step c).2 := by
  rw [repeatStep]
  split
  · rename_i heq
    rw [heq]
  · rename_i heq
    rw [heq] at h
    cases h

theorem repeatStep_succ_of_none (h : (step c).1 = none) :
    repeatStep step (k + 1) c = (none, (step c).2) := by
  rw [repeatStep]
  split
  · rename_i heq
    rw [heq] at h
    cases h
  · rename_i heq
    rw [heq]

/-- A step that takes the first entry of a view of what is ahead takes, when repeated, the entries
    of that view one after another. -/
theorem repeatStep_eq {view : Cursor g → List Offset}
    (hfst : ∀ c, (step c).1 = (view c).head?.bind g.block?)
    (hsnd : ∀ c, view (step c).2 = (view c).tail) (k : Nat) (c : Cursor g)
    (hbacked : ∀ o ∈ view c, ∃ b, g.block? o = some b) :
    (repeatStep step k c).1 = (view c)[k]?.bind g.block? ∧
      view (repeatStep step k c).2 = (view c).drop (k + 1) := by
  induction k generalizing c with
  | zero =>
    rw [repeatStep, hfst, hsnd, List.head?_eq_getElem?, List.drop_one]
    exact ⟨rfl, rfl⟩
  | succ k ih =>
    have hfirst := hfst c
    have htail := hsnd c
    have hrest := ih (step c).2
    rw [htail] at hrest
    cases hview : view c with
    | nil =>
      -- nothing is there to pass over, so the step is not repeated
      rw [hview] at hfirst htail
      rw [repeatStep_succ_of_none hfirst]
      exact ⟨rfl, htail⟩
    | cons o rest =>
      rw [hview] at hfirst hrest hbacked
      obtain ⟨b, hb⟩ := hbacked o List.mem_cons_self
      rw [repeatStep_succ_of_some (hfirst.trans hb)]
      exact hrest fun x hx => hbacked x (List.mem_cons_of_mem o hx)

end Repeat

theorem nth_eq (hc : c.Backed) (k : Nat) :
    (c.nth k).1 = c.ahead[k]?.bind g.block? ∧ (c.nth k).2.ahead = c.ahead.drop (k + 1) :=
  repeatStep_eq next_fst ahead_next k c hc

/-- At the back the view is what is ahead, read backwards. -/
theorem nthBack_eq (hc : c.Backed) (k : Nat) :
    (c.nthBack k).1 = c.ahead.reverse[k]?.bind g.block? ∧
      (c.nthBack k).2.ahead = c.ahead.take (c.ahead.length - (k + 1)) := by
  have hview : ∀ d : Cursor g, d.nextBack.1 = d.ahead.reverse.head?.bind g.block? := by
    intro d
    rw [nextBack_fst, List.head?_reverse]
  have hrest : ∀ d : Cursor g, d.nextBack.2.ahead.reverse = d.ahead.reverse.tail := by
    intro d
    rw [ahead_nextBack, List.tail_reverse]
  obtain ⟨hfst, hsnd⟩ :=
    repeatStep_eq hview hrest k c fun o ho => hc o (List.mem_reverse.1 ho)
  refine ⟨hfst, ?_⟩
  rw [List.drop_reverse, List.reverse_inj] at hsnd
  exact hsnd

variable {α : Type} {f : α → Offset}

/-- **A call does on a cursor what it does on the list ahead of it.**  The entries of the list may
    carry more than the offsets `f` reads off them, such as their positions. -/
theorem call_eq {e : Ends α} (hc : c.Backed) (he : c.ahead = e.ahead.map f) :
    (c.call m).1 = (e.call m).1.bind (fun x => g.block? (f x)) ∧
      (c.call m).2.ahead = (e.call m).2.ahead.map f := by
  have hfront : ∀ k, (c.nth k).1 = (e.takeFront k).1.bind (fun x => g.block? (f x)) ∧
      (c.nth k).2.ahead = (e.takeFront k).2.ahead.map f := by
    intro k
    obtain ⟨hanswer, hahead⟩ := nth_eq hc k
    rw [hanswer, hahead, he, List.getElem?_map, Option.bind_map, ← List.map_drop]
    exact ⟨rfl, rfl⟩
  have hback : ∀ k, (c.nthBack k).1 = (e.takeBack k).1.bind (fun x => g.block? (f x)) ∧
      (c.nthBack k).2.ahead = (e.takeBack k).2.ahead.map f := by
    intro k
    obtain ⟨hanswer, hahead⟩ := nthBack_eq hc k
    rw [hanswer, hahead, he, ← List.map_reverse, List.getElem?_map, Option.bind_map,
      List.length_map, ← List.map_take]
    exact ⟨rfl, rfl⟩
  -- either kind of call is one of these two, with nothing passed over or with `k`
  cases m with
  | next => exact hfront 0
  | nextBack => exact hback 0
  | nth k => exact hfront k
  | nthBack k => exact hback k

theorem call_ahead (hc : c.Backed) (m : Call) :
    (c.call m).1 = ((Ends.whole c.ahead).call m).1.bind g.block? ∧
      (c.call m).2.ahead = ((Ends.whole c.ahead).call m).2.ahead := by
  have hself : c.ahead = (Ends.whole c.ahead).ahead.map id := (List.map_id _).symm
  obtain ⟨hanswer, hahead⟩ := call_eq (m := m) hc hself
  rw [List.map_id] at hahead
  exact ⟨hanswer, hahead⟩

/-- Every entry still has a block after a call, since a call only takes entries off. -/
theorem Backed.call (hc : c.Backed) : (c.call m).2.Backed := by
  intro o ho
  rw [(call_ahead hc m).2] at ho
  exact hc o (Ends.ahead_call_sublist.subset ho)

/-- So do calls made one after another. -/
theorem run_eq {e : Ends α} (ms : List Call) (hc : c.Backed) (he : c.ahead = e.ahead.map f) :
    (Call.run call c ms).1 = (Call.run Ends.call e ms).1.map (·.bind fun x => g.block? (f x)) ∧
      (Call.run call c ms).2.ahead = (Call.run Ends.call e ms).2.ahead.map f ∧
      (Call.run call c ms).2.Backed := by
  induction ms generalizing c e with
  | nil => exact ⟨rfl, he, hc⟩
  | cons m ms ih =>
    obtain ⟨hanswer, hahead⟩ := call_eq (m := m) hc he
    obtain ⟨hanswers, hleft, hbacked⟩ := ih hc.call hahead
    refine ⟨?_, hleft, hbacked⟩
    exact List.cons_eq_cons.2 ⟨hanswer, hanswers⟩

/-- A call is answered exactly if it does not pass over all that is left. -/
theorem call_eq_none_iff (hc : c.Backed) : (c.call m).1 = none ↔ c.size ≤ m.skips := by
  obtain ⟨hanswer, _⟩ := call_ahead hc m
  have hlist : ((Ends.whole c.ahead).call m).1 = none ↔ c.size ≤ m.skips := Ends.call_eq_none_iff
  rw [hanswer, ← hlist]
  cases hentry : ((Ends.whole c.ahead).call m).1 with
  | none => exact iff_of_true rfl rfl
  | some o =>
    obtain ⟨b, hb⟩ := hc o (Ends.mem_ahead_of_answer hentry)
    rw [Option.bind_some, hb]
    exact iff_of_false (Option.some_ne_none b) (Option.some_ne_none o)

/-- A call without an answer leaves nothing ahead. -/
theorem ahead_of_call_eq_none (hc : c.Backed) (h : (c.call m).1 = none) :
    (c.call m).2.ahead = [] := by
  rw [(call_ahead hc m).2]
  exact Ends.ahead_of_call_eq_none (Ends.call_eq_none_iff.2 ((call_eq_none_iff hc).1 h))

/-- Where nothing is ahead, nothing comes any more. -/
theorem run_of_nil (h : c.ahead = []) (ms : List Call) :
    (∀ answer ∈ (Call.run call c ms).1, answer = none) ∧ (Call.run call c ms).2.size = 0 := by
  have hbacked : c.Backed := by
    intro o ho
    rw [h] at ho
    cases ho
  induction ms generalizing c with
  | nil =>
    refine ⟨fun answer ha => absurd ha List.not_mem_nil, ?_⟩
    show c.ahead.length = 0
    rw [h]
    rfl
  | cons m ms ih =>
    -- there is nothing to answer with, and a call that fails leaves nothing again
    have hanswer : (c.call m).1 = none := by
      rw [call_eq_none_iff hbacked, size, h]
      exact Nat.zero_le _
    obtain ⟨hanswers, hsize⟩ := ih (ahead_of_call_eq_none hbacked hanswer) hbacked.call
    refine ⟨?_, hsize⟩
    intro answer ha
    rcases List.mem_cons.1 ha with rfl | ha
    · exact hanswer
    · exact hanswers answer ha

end Cursor

/-! ## §4. Cursors over built graphs -/

namespace Graph.WellFormed

variable {g : Graph}

theorem backed_start (hg : g.WellFormed) : (Cursor.start g).Backed := by
  intro o ho
  obtain ⟨b, hb, _⟩ := hg.exists_block ho
  exact ⟨b, hb⟩

end Graph.WellFormed

/-- **A cursor loses nothing and repeats nothing, from either end.**  Whatever calls are made, its
    answers are the blocks at the entries that the calls take off the order, each numbered with its
    position.  A position of the order is ahead or gone at one end, and no position is answered
    twice; what is ahead is counted exactly.  A next call has no answer exactly if it passes over
    all that is ahead; then nothing is ahead, and no later call has an answer. -/
theorem Cursor.run_of_build {policy : Policy} {labels : OffsetSet} {code : Code} {g : Graph}
    (h : (Graph.build policy labels code).outcome = .ok g) (ms : List Call) :
    let c := Call.run Cursor.call (Cursor.start g) ms
    let e := Call.run Ends.call (Ends.whole g.order.zipIdx) ms
    c.1 = e.1.map (·.bind fun x => g.block? x.1) ∧
    (∀ x, some x ∈ e.1 → ∃ b, g.block? x.1 = some b ∧ b.start = x.1) ∧
    (e.1.Pairwise fun a b => a = b → a = none) ∧
    e.2.front ++ e.2.ahead ++ e.2.back = g.order.zipIdx ∧ c.2.ahead = e.2.ahead.map Prod.fst ∧
    c.2.size = e.2.ahead.length ∧ c.2.bounds = (e.2.ahead.length, e.2.ahead.length) ∧
    ∀ m, ((c.2.call m).1 = none ↔ c.2.size ≤ m.skips) ∧
      ((c.2.call m).1 = none → (c.2.call m).2.size = 0 ∧
        ∀ ms', (∀ answer ∈ (Call.run Cursor.call (c.2.call m).2 ms').1, answer = none) ∧
          (Call.run Cursor.call (c.2.call m).2 ms').2.size = 0) := by
  intro c e
  have hg := Graph.wellFormed_of_build h
  have hstart : (Cursor.start g).ahead = (Ends.whole g.order.zipIdx).ahead.map Prod.fst :=
    (List.zipIdx_map_fst 0 g.order).symm
  obtain ⟨hanswers, hahead, hbacked⟩ := Cursor.run_eq ms hg.backed_start hstart
  have hsize : c.2.size = e.2.ahead.length :=
    (congrArg List.length hahead).trans (List.length_map _)
  have hparts : e.2.front ++ e.2.ahead ++ e.2.back = g.order.zipIdx :=
    Ends.toList_run.trans (List.append_nil _)
  have hnodup : g.order.zipIdx.Nodup := .of_map Prod.snd (List.nodup_zipIdx_map_snd g.order)
  refine ⟨hanswers, ?_, Ends.pairwise_answers hnodup, hparts, hahead, hsize,
    Prod.ext hsize hsize, ?_⟩
  · intro x hx
    exact hg.exists_block (List.fst_mem_of_mem_zipIdx (Ends.mem_ahead_of_answers hx))
  · intro m
    refine ⟨Cursor.call_eq_none_iff hbacked, ?_⟩
    intro hnone
    have hnil := Cursor.ahead_of_call_eq_none hbacked hnone
    exact ⟨congrArg List.length hnil, Cursor.run_of_nil hnil⟩

/-- A body that comes back to offset 0: the order lists 0 twice.  One entry passed over at the back
    leaves the block at 2, the block at 0 comes from the front, and then there is nothing. -/
theorem Cursor.run_of_repeat :
    ∃ g, (Graph.build .lenient {2, 99} Code.restart).outcome = .ok g ∧
      g.order = [0, 2, 0] ∧
      (Call.run Cursor.call (Cursor.start g) [.nthBack 1, .next, .next]).1.map
        (·.map Block.start) = [some 2, some 0, none] ∧
      (Call.run Cursor.call (Cursor.start g) [.nthBack 1, .next]).2.size = 0 ∧
      ∀ m, ((Call.run Cursor.call (Cursor.start g) [.nthBack 1, .next]).2.call m).1 = none := by
  obtain ⟨g, hbuild, horder, hzero, htwo⟩ :
      ∃ g, (Graph.build .lenient {2, 99} Code.restart).outcome = .ok g ∧
      g.order = [0, 2, 0] ∧ (g.block? 0).map Block.start = some 0 ∧
      (g.block? 2).map Block.start = some 2 :=
    ⟨_, rfl, rfl, rfl, rfl⟩
  obtain ⟨hanswers, _⟩ := Cursor.run_of_build hbuild [.nthBack 1, .next, .next]
  obtain ⟨_, _, _, _, _, hsize, _, hcalls⟩ := Cursor.run_of_build hbuild [.nthBack 1, .next]
  rw [horder] at hanswers hsize
  refine ⟨g, hbuild, horder, ?_, hsize, ?_⟩
  · rw [hanswers]
    show [(g.block? 2).map Block.start, (g.block? 0).map Block.start, none] = _
    rw [hzero, htwo]
  · intro m
    refine (hcalls m).1.2 ?_
    rw [hsize]
    exact Nat.zero_le _

end BytecodeFlow
