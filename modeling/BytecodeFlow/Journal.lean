/-
  BytecodeFlow.Journal — RECORDS of a run, and computations that keep them.

  A run reports what it does as a list of records, each with a level and one line of text.
  `Logged α` is a computation that keeps records and may fail: both the records and the outcome
  are there afterwards, so a run that fails shows the records up to its failure.

  The two views are `Logged.outcome` and `Logged.records`; the lemmas say what each operation
  does to either, and later proofs use nothing else.
-/
import BytecodeFlow.Fault

namespace BytecodeFlow

/-! ## §1. Records -/

/-- How much attention a record asks for. -/
inductive Level where
  /-- A single step. -/
  | trace
  /-- A finished stage. -/
  | debug
  /-- Something was dropped. -/
  | warn
deriving DecidableEq, Repr

/-- The written name of a level. -/
def Level.name : Level → String
  | trace => "TRACE"
  | debug => "DEBUG"
  | warn => "WARN"

/-- One thing that a run reports. -/
inductive Record where
  /-- A block begins. -/
  | blockOpened (offset : Offset)
  /-- A loop scope is opened. -/
  | scopeOpened (offset exit : Offset)
  /-- An edge that leads to no block is dropped. -/
  | edgeDropped (source target : Offset)
  /-- The graph is finished: numbers of blocks, of live blocks and of instructions. -/
  | graphBuilt (blocks live instructions : Nat)
  /-- The dominator sets are final: numbers of passes and of live blocks. -/
  | dominatorsFound (passes live : Nat)
deriving DecidableEq, Repr

namespace Record

/-- The level of a record. -/
def level : Record → Level
  | blockOpened _ | scopeOpened _ _ => .trace
  | edgeDropped _ _ => .warn
  | graphBuilt _ _ _ | dominatorsFound _ _ => .debug

/-- The wording of a record. -/
def text : Record → String
  | blockOpened offset => s!"new block at offset {offset}"
  | scopeOpened offset exit => s!"loop scope at offset {offset} exits at {exit}"
  | edgeDropped source target =>
    s!"dropping edge from block {source} to offset {target}, which does not start a block"
  | graphBuilt blocks live instructions =>
    s!"built {blocks} blocks ({live} live) from {instructions} instructions"
  | dominatorsFound passes live =>
    s!"dominators converged after {passes} passes over {live} live blocks"

/-- The line of a record: its level, a blank, its wording. -/
def line (r : Record) : String := s!"{r.level.name} {r.text}"

end Record

/-! ## §2. Computations with records -/

/-- A computation that keeps records and may fail. -/
structure Logged (α : Type) where
  /-- What was recorded, up to the failure if there is one. -/
  records : List Record
  /-- The result, or why there is none. -/
  outcome : Except Fault α

namespace Logged

variable {α β : Type}

@[ext] theorem ext {x y : Logged α} (hr : x.records = y.records) (ho : x.outcome = y.outcome) :
    x = y := by
  cases x
  cases y
  congr

/-- Goes on with a result; after a failure nothing more is recorded. -/
def bind (x : Logged α) (f : α → Logged β) : Logged β :=
  match x.outcome with
  | .ok a => ⟨x.records ++ (f a).records, (f a).outcome⟩
  | .error fault => ⟨x.records, .error fault⟩

instance : Monad Logged where
  pure a := ⟨[], .ok a⟩
  bind := bind

/-- Keeps one record. -/
def record (r : Record) : Logged Unit := ⟨[r], .ok ()⟩

/-- A computation without records. -/
def ofExcept (x : Except Fault α) : Logged α := ⟨[], x⟩

instance : MonadLift (Except Fault) Logged := ⟨ofExcept⟩

/-- Fails without a record. -/
def fail (fault : Fault) : Logged α := ⟨[], .error fault⟩

/-! ## §3. The two views -/

@[simp] theorem outcome_pure (a : α) : (pure a : Logged α).outcome = .ok a := rfl

@[simp] theorem records_pure (a : α) : (pure a : Logged α).records = [] := rfl

@[simp] theorem outcome_record (r : Record) : (record r).outcome = .ok () := rfl

@[simp] theorem records_record (r : Record) : (record r).records = [r] := rfl

@[simp] theorem outcome_ofExcept (x : Except Fault α) : (ofExcept x).outcome = x := rfl

@[simp] theorem records_ofExcept (x : Except Fault α) : (ofExcept x).records = [] := rfl

@[simp] theorem outcome_fail (fault : Fault) : (fail fault : Logged α).outcome = .error fault := rfl

@[simp] theorem records_fail (fault : Fault) : (fail fault : Logged α).records = [] := rfl

@[simp] theorem outcome_lift (x : Except Fault α) : (liftM x : Logged α).outcome = x := rfl

@[simp] theorem records_lift (x : Except Fault α) : (liftM x : Logged α).records = [] := rfl

/-- The outcomes alone compose without the records. -/
@[simp] theorem outcome_bind (x : Logged α) (f : α → Logged β) :
    (x >>= f).outcome = x.outcome >>= fun a => (f a).outcome := by
  show (x.bind f).outcome = _
  unfold bind
  cases x.outcome <;> rfl

/-- A composite succeeds exactly if both parts do. -/
theorem outcome_bind_eq_ok_iff {x : Logged α} {f : α → Logged β} {b : β} :
    (x >>= f).outcome = .ok b ↔ ∃ a, x.outcome = .ok a ∧ (f a).outcome = .ok b := by
  rw [outcome_bind, bind_eq_ok_iff]

/-- A function applied to the result leaves the records alone, and a failure as it is. -/
@[simp] theorem outcome_map (f : α → β) (x : Logged α) : (f <$> x).outcome = f <$> x.outcome := by
  show (x.bind fun a => pure (f a)).outcome = _
  unfold bind
  cases x.outcome <;> rfl

@[simp] theorem records_map (f : α → β) (x : Logged α) : (f <$> x).records = x.records := by
  show (x.bind fun a => pure (f a)).records = _
  unfold bind
  cases x.outcome <;> simp

/-- A composite whose first part succeeds. -/
theorem bind_of_ok {x : Logged α} {f : α → Logged β} {a : α} (h : x.outcome = .ok a) :
    x >>= f = ⟨x.records ++ (f a).records, (f a).outcome⟩ := by
  show x.bind f = _
  simp [bind, h]

/-- A composite whose first part fails: the second part is never begun, so none of its records are
    kept. -/
theorem bind_of_error {x : Logged α} {f : α → Logged β} {fault : Fault}
    (h : x.outcome = .error fault) : x >>= f = ⟨x.records, .error fault⟩ := by
  show x.bind f = _
  simp [bind, h]

/-- The records of the second part follow those of the first. -/
theorem records_bind_of_ok {x : Logged α} {f : α → Logged β} {a : α} (h : x.outcome = .ok a) :
    (x >>= f).records = x.records ++ (f a).records := by
  rw [bind_of_ok h]

/-- Behind a failure nothing is recorded. -/
theorem records_bind_of_error {x : Logged α} {f : α → Logged β} {fault : Fault}
    (h : x.outcome = .error fault) : (x >>= f).records = x.records := by
  rw [bind_of_error h]

/-- What is recorded does not depend on how a run is put together from parts. -/
theorem bind_assoc {γ : Type} (x : Logged α) (f : α → Logged β) (g : β → Logged γ) :
    (x >>= f) >>= g = x >>= fun a => f a >>= g := by
  -- a failure of the first or of the second part ends both sides at the same records
  cases hx : x.outcome with
  | error fault => rw [bind_of_error hx, bind_of_error hx, bind_of_error rfl]
  | ok a =>
    rw [bind_of_ok hx, bind_of_ok hx]
    cases hf : (f a).outcome with
    | error fault => rw [bind_of_error rfl, bind_of_error hf]
    | ok b => rw [bind_of_ok rfl, bind_of_ok hf, List.append_assoc]

instance : LawfulMonad Logged := LawfulMonad.mk' Logged
  (fun x => by
    show x.bind (fun a => pure a) = x
    unfold bind
    ext1 <;> cases h : x.outcome <;> simp)
  (fun a f => by rw [bind_of_ok rfl]; rfl)
  bind_assoc

/-! ## §4. Lists of computations -/

/-- Keeping a record for each member of a list keeps them in the list's order. -/
theorem forM_record (f : α → Record) (l : List α) :
    (l.forM fun a => record (f a)) = ⟨l.map f, .ok ()⟩ := by
  induction l with
  | nil => rfl
  | cons a rest ih =>
    show record (f a) >>= (fun _ => rest.forM fun a => record (f a)) = _
    rw [bind_of_ok (outcome_record (f a)), ih]
    rfl

end Logged

end BytecodeFlow
