import Mathlib

/-!
# Tasks of the unified scheduler

`unified-scheduler-logic/src/lib.rs`, the data a task carries and its counter of blocked usages.

A panic of the source (`unwrap` on `None`, `assert!`, `unreachable!`, a failed `checked_add`) is
the value `none`. The interior-mutable cells that the source reaches through its two tokens are
explicit state here: `BlockedUsageCounts` is the memory owned by the `BlockedUsageCountToken`, one
counter for each task object.
-/

namespace FlowraValidator.UnifiedScheduler
open Function Option

/-- A 32-byte account address. -/
abbrev Pubkey := ℕ

/-- The message hash of a transaction. -/
abbrev TaskHash := ℕ

/-! ## Counters

`ShortCounter` wraps a `u32` whose overflow and underflow panic. -/

/-- `2^32`, the first value a `CounterInner` cannot hold. -/
def counterLimit : ℕ := 4294967296

namespace ShortCounter

def increment (c : ℕ) : Option ℕ := if c + 1 < counterLimit then some (c + 1) else none

def decrement (c : ℕ) : Option ℕ := if c = 0 then none else some (c - 1)

theorem increment_eq_some_iff {c d : ℕ} :
    increment c = some d ↔ d = c + 1 ∧ c + 1 < counterLimit := by
  unfold increment
  split_ifs with h
  · rw [some_inj]
    exact ⟨fun e => ⟨e.symm, h⟩, fun e => e.1.symm⟩
  · exact ⟨fun e => absurd e (by simp), fun e => absurd e.2 h⟩

theorem decrement_eq_some_iff {c d : ℕ} : decrement c = some d ↔ c = d + 1 := by
  unfold decrement
  split_ifs with h
  · simp only [false_iff]
    omega
  · rw [some_inj]
    omega

end ShortCounter

/-! ## Tasks -/

/-- How a task asks to use an address. -/
inductive RequestedUsage where
  | readonly
  | writable
  deriving DecidableEq

/-- One address of a task. The `Arc<TokenCell<UsageQueueInner>>` of the source is the address it
was loaded for: the caller has to hand out one usage queue for each address. -/
structure LockContext where
  usageQueue : Pubkey
  requestedUsage : RequestedUsage
  deriving DecidableEq

/-- A task, `Arc<TaskInner>`. `ptr` is the identity of the allocation, so that two tasks with
equal contents are still two objects; `taskId` is the `u128` that orders tasks. -/
structure Task where
  ptr : ℕ
  taskId : ℕ
  hash : TaskHash
  lockContexts : List LockContext
  deriving DecidableEq

/-- The addresses a task locks. -/
def Task.addresses (t : Task) : List Pubkey := t.lockContexts.map LockContext.usageQueue

/-- Two tasks conflict when they share an address that one of them writes. -/
def Task.Conflicts (t t' : Task) : Prop :=
  ∃ c ∈ t.lockContexts, ∃ c' ∈ t'.lockContexts, c.usageQueue = c'.usageQueue ∧
    (c.requestedUsage = .writable ∨ c'.requestedUsage = .writable)

instance (t t' : Task) : Decidable (t.Conflicts t') :=
  inferInstanceAs (Decidable (∃ c ∈ t.lockContexts, ∃ c' ∈ t'.lockContexts,
    c.usageQueue = c'.usageQueue ∧ (c.requestedUsage = .writable ∨ c'.requestedUsage = .writable)))

/-- Comparing a task with one of the same id panics (`self-compariton`). -/
def Task.isHigherPriority (t t' : Task) : Option Bool :=
  if t.taskId = t'.taskId then none else some (decide (t.taskId < t'.taskId))

variable {t t' : Task}

theorem Task.isHigherPriority_of_lt (h : t.taskId < t'.taskId) :
    t.isHigherPriority t' = some true := by
  simp [isHigherPriority, Nat.ne_of_lt h, h]

theorem Task.isHigherPriority_of_gt (h : t'.taskId < t.taskId) :
    t.isHigherPriority t' = some false := by
  simp [isHigherPriority, Nat.ne_of_gt h, Nat.le_of_lt h]

/-! ## The counters of blocked usages -/

/-- The `blocked_usage_count` of every task object. -/
abbrev BlockedUsageCounts := Task → ℕ

open ShortCounter

/-- Unblock a task once; the flag says whether no blocked usage is left. -/
def Task.tryUnblock (t : Task) (counts : BlockedUsageCounts) : Option (Bool × BlockedUsageCounts) :=
  (decrement (counts t)).map fun c => (decide (c = 0), update counts t c)

/-- Take a usage back from a task. Refused, without a change, when the task has no blocked usage:
it may be running already. -/
def Task.tryReblock (t : Task) (counts : BlockedUsageCounts) : Option (Bool × BlockedUsageCounts) :=
  if counts t = 0 then some (false, counts)
  else (increment (counts t)).map fun c => (true, update counts t c)

variable {counts : BlockedUsageCounts}

theorem Task.tryUnblock_of_pos {c : ℕ} (h : counts t = c + 1) :
    t.tryUnblock counts = some (decide (c = 0), update counts t c) := by
  rw [tryUnblock, decrement_eq_some_iff.mpr h]
  rfl

theorem Task.tryReblock_of_eq_zero (h : counts t = 0) :
    t.tryReblock counts = some (false, counts) :=
  if_pos h

theorem Task.tryReblock_of_ne_zero {r : Bool × BlockedUsageCounts} (h : counts t ≠ 0)
    (hr : t.tryReblock counts = some r) :
    r = (true, update counts t (counts t + 1)) := by
  rw [tryReblock, if_neg h, map_eq_some_iff] at hr
  obtain ⟨c, hc, rfl⟩ := hr
  rw [(increment_eq_some_iff.mp hc).1]

end FlowraValidator.UnifiedScheduler
