import FlowraValidator.Lib.OrdMap

/-!
# Accounts that transactions read and write

What the schedulers ask of a transaction is the list of its account keys, and which of them it
may write. Two transactions conflict if they share an account at least one of them writes.

* `mem_accountKeys_iff`: the keys are the written ones and the read ones.
* `ReadWriteAccountSet.checkLocks_iff`: the check passes iff the transaction conflicts with
  nothing that was added.
* `ReadWriteAccountSet.mem_takeLocks_writeSet`, `mem_takeLocks_readSet`: what adding a
  transaction does.
* `bundleLocked`: the accounts that a bundle holds.
-/

namespace FlowraValidator.BankingStage
open List

/-- The accounts of a transaction's message. -/
class SVMMessage (Tx : Type) (Key : outParam Type) where
  accountKeys : Tx → List Key
  isWritable : Tx → ℕ → Bool

/-- A message that is the list of its accounts, each with whether it may be written. -/
instance : SVMMessage (List (ℕ × Bool)) ℕ where
  accountKeys message := message.map (·.1)
  isWritable message index := (message[index]?.map (·.2)).getD false

section Message
variable {Tx Key : Type} [SVMMessage Tx Key]

open SVMMessage

def writeAccountLocks (transaction : Tx) : List Key :=
  (accountKeys transaction).zipIdx.filterMap fun e =>
    if isWritable transaction e.2 then some e.1 else none

def readAccountLocks (transaction : Tx) : List Key :=
  (accountKeys transaction).zipIdx.filterMap fun e =>
    if !isWritable transaction e.2 then some e.1 else none

variable {account : Key} {transaction : Tx}

theorem mem_writeAccountLocks_iff :
    account ∈ writeAccountLocks transaction ↔
      ∃ index, (account, index) ∈ (accountKeys transaction).zipIdx ∧
        isWritable transaction index = true := by
  rw [writeAccountLocks, mem_filterMap]
  constructor
  · rintro ⟨⟨key, index⟩, hmem, heq⟩
    split_ifs at heq
    cases heq
    exact ⟨index, hmem, ‹_›⟩
  · rintro ⟨index, hmem, hwrite⟩
    exact ⟨(account, index), hmem, if_pos hwrite⟩

theorem mem_readAccountLocks_iff :
    account ∈ readAccountLocks transaction ↔
      ∃ index, (account, index) ∈ (accountKeys transaction).zipIdx ∧
        isWritable transaction index = false := by
  rw [readAccountLocks, mem_filterMap]
  constructor
  · rintro ⟨⟨key, index⟩, hmem, heq⟩
    split_ifs at heq with hread
    cases heq
    exact ⟨index, hmem, by simpa using hread⟩
  · rintro ⟨index, hmem, hread⟩
    exact ⟨(account, index), hmem, if_pos (by simp [hread])⟩

omit [SVMMessage Tx Key] in
theorem exists_mem_zipIdx {l : List Key} (h : account ∈ l) :
    ∃ index, (account, index) ∈ l.zipIdx := by
  obtain ⟨index, hlt, rfl⟩ := mem_iff_getElem.mp h
  exact ⟨index, mk_mem_zipIdx_iff_getElem?.mpr (getElem?_eq_getElem hlt)⟩

/-- Every account of a transaction is written or read. -/
theorem mem_accountKeys_iff :
    account ∈ accountKeys transaction ↔
      account ∈ writeAccountLocks transaction ∨ account ∈ readAccountLocks transaction := by
  rw [mem_writeAccountLocks_iff, mem_readAccountLocks_iff]
  constructor
  · intro h
    obtain ⟨index, hmem⟩ := exists_mem_zipIdx h
    cases hw : isWritable transaction index with
    | true => exact .inl ⟨index, hmem, hw⟩
    | false => exact .inr ⟨index, hmem, hw⟩
  · rintro (⟨index, hmem, -⟩ | ⟨index, hmem, -⟩)
    · exact fst_mem_of_mem_zipIdx hmem
    · exact fst_mem_of_mem_zipIdx hmem

/-- Two transactions conflict if they share an account at least one of them writes. -/
def Conflicts (a b : Tx) : Prop :=
  ∃ account, account ∈ accountKeys a ∧ account ∈ accountKeys b ∧
    (account ∈ writeAccountLocks a ∨ account ∈ writeAccountLocks b)

end Message

/-! ## Accumulated accounts -/

/-- Accumulated locks for a batch of transactions. -/
structure ReadWriteAccountSet (Key : Type) where
  readSet : Finset Key
  writeSet : Finset Key

namespace ReadWriteAccountSet
variable {Tx Key : Type} [SVMMessage Tx Key] [DecidableEq Key]

open SVMMessage

/-- The set with no accounts: the default, and what `clear` leaves. -/
def empty : ReadWriteAccountSet Key := ⟨∅, ∅⟩

def canRead (s : ReadWriteAccountSet Key) (pubkey : Key) : Bool := decide (pubkey ∉ s.writeSet)

def canWrite (s : ReadWriteAccountSet Key) (pubkey : Key) : Bool :=
  decide (pubkey ∉ s.writeSet) && decide (pubkey ∉ s.readSet)

def addRead (s : ReadWriteAccountSet Key) (pubkey : Key) : Bool × ReadWriteAccountSet Key :=
  (s.canRead pubkey, { s with readSet := insert pubkey s.readSet })

def addWrite (s : ReadWriteAccountSet Key) (pubkey : Key) : Bool × ReadWriteAccountSet Key :=
  (s.canWrite pubkey, { s with writeSet := insert pubkey s.writeSet })

/-- Returns true if all account locks were available and false otherwise. -/
def checkLocks (s : ReadWriteAccountSet Key) (message : Tx) : Bool :=
  (accountKeys message).zipIdx.all fun e =>
    if isWritable message e.2 then s.canWrite e.1 else s.canRead e.1

/-- One account of `takeLocks`. -/
def takeLock (message : Tx) (acc : Bool × ReadWriteAccountSet Key) (e : Key × ℕ) :
    Bool × ReadWriteAccountSet Key :=
  let added := if isWritable message e.2 then acc.2.addWrite e.1 else acc.2.addRead e.1
  (acc.1 && added.1, added.2)

/-- Add all account locks. Returns true if all account locks were available. -/
def takeLocks (s : ReadWriteAccountSet Key) (message : Tx) : Bool × ReadWriteAccountSet Key :=
  (accountKeys message).zipIdx.foldl (takeLock message) (true, s)

variable {s : ReadWriteAccountSet Key} {message : Tx}

/-- What the check asks, in terms of the written and the read accounts. -/
theorem checkLocks_iff :
    s.checkLocks message = true ↔
      (∀ a ∈ writeAccountLocks message, a ∉ s.writeSet ∧ a ∉ s.readSet) ∧
        ∀ a ∈ readAccountLocks message, a ∉ s.writeSet := by
  rw [checkLocks, all_eq_true]
  constructor
  · intro h
    refine ⟨fun a ha => ?_, fun a ha => ?_⟩
    · obtain ⟨index, hmem, hw⟩ := mem_writeAccountLocks_iff.mp ha
      have hcheck := h _ hmem
      rwa [if_pos hw, canWrite, Bool.and_eq_true, decide_eq_true_iff, decide_eq_true_iff] at hcheck
    · obtain ⟨index, hmem, hw⟩ := mem_readAccountLocks_iff.mp ha
      have hcheck := h _ hmem
      rwa [if_neg (Bool.eq_false_iff.mp hw), canRead, decide_eq_true_iff] at hcheck
  · rintro ⟨hwrites, hreads⟩ ⟨a, index⟩ hmem
    cases hw : isWritable message index with
    | true =>
      rw [if_pos rfl, canWrite, Bool.and_eq_true, decide_eq_true_iff, decide_eq_true_iff]
      exact hwrites a (mem_writeAccountLocks_iff.mpr ⟨index, hmem, hw⟩)
    | false =>
      rw [if_neg (by simp), canRead, decide_eq_true_iff]
      exact hreads a (mem_readAccountLocks_iff.mpr ⟨index, hmem, hw⟩)

/-- The two sets after a part of the accounts was added. -/
theorem foldl_takeLock_snd (message : Tx) (l : List (Key × ℕ))
    (acc : Bool × ReadWriteAccountSet Key) (a : Key) :
    (a ∈ (l.foldl (takeLock message) acc).2.writeSet ↔ a ∈ acc.2.writeSet ∨
        ∃ index, (a, index) ∈ l ∧ isWritable message index = true) ∧
      (a ∈ (l.foldl (takeLock message) acc).2.readSet ↔ a ∈ acc.2.readSet ∨
        ∃ index, (a, index) ∈ l ∧ isWritable message index = false) := by
  induction l generalizing acc with
  | nil => simp
  | cons e l ih =>
    have hcons : ∀ w, (∃ index, (a, index) ∈ e :: l ∧ isWritable message index = w) ↔
        (a = e.1 ∧ isWritable message e.2 = w) ∨
          ∃ index, (a, index) ∈ l ∧ isWritable message index = w := by
      simp [Prod.ext_iff, or_and_right, exists_or, and_assoc]
    rw [foldl_cons, (ih _).1, (ih _).2, hcons, hcons, ← or_assoc, ← or_assoc]
    refine And.imp or_congr_left or_congr_left ?_
    cases hw : isWritable message e.2 with
    | true => simp [takeLock, hw, addWrite, or_comm]
    | false => simp [takeLock, hw, addRead, or_comm]

/-- Adding a transaction adds its written accounts to the write set. -/
theorem mem_takeLocks_writeSet {a : Key} :
    a ∈ (s.takeLocks message).2.writeSet ↔ a ∈ s.writeSet ∨ a ∈ writeAccountLocks message := by
  rw [takeLocks, (foldl_takeLock_snd message _ _ a).1, mem_writeAccountLocks_iff]

/-- Adding a transaction adds its read accounts to the read set. -/
theorem mem_takeLocks_readSet {a : Key} :
    a ∈ (s.takeLocks message).2.readSet ↔ a ∈ s.readSet ∨ a ∈ readAccountLocks message := by
  rw [takeLocks, (foldl_takeLock_snd message _ _ a).2, mem_readAccountLocks_iff]

/-- The accounts of a transaction are in the set, as written or as read. -/
structure Covers (s : ReadWriteAccountSet Key) (message : Tx) : Prop where
  writes : ∀ a ∈ writeAccountLocks message, a ∈ s.writeSet
  reads : ∀ a ∈ readAccountLocks message, a ∈ s.readSet

theorem Covers.takeLocks (h : s.Covers message) (other : Tx) :
    (ReadWriteAccountSet.takeLocks s other).2.Covers message :=
  ⟨fun a ha => mem_takeLocks_writeSet.mpr (.inl (h.writes a ha)),
    fun a ha => mem_takeLocks_readSet.mpr (.inl (h.reads a ha))⟩

/-- **A transaction that conflicts with one in the set does not pass the check.** -/
theorem Covers.not_conflicts {other : Tx} (h : s.Covers message)
    (hcheck : s.checkLocks other = true) : ¬ Conflicts message other := by
  rintro ⟨account, hmessage, hother, hwrite⟩
  obtain ⟨hwrites, hreads⟩ := checkLocks_iff.mp hcheck
  rcases hwrite with hwrite | hwrite
  · have hin := h.writes account hwrite
    rcases mem_accountKeys_iff.mp hother with hw | hr
    · exact (hwrites account hw).1 hin
    · exact hreads account hr hin
  · rcases mem_accountKeys_iff.mp hmessage with hw | hr
    · exact (hwrites account hwrite).1 (h.writes account hw)
    · exact (hwrites account hwrite).2 (h.reads account hr)

end ReadWriteAccountSet

/-! ## Accounts held by a bundle -/

/-- How many locks bundles hold on an account. -/
structure BundleAccountLocks (Key : Type) [LinearOrder Key] where
  readLocks : OrdMap Key ℕ
  writeLocks : OrdMap Key ℕ

/-- The check that both schedulers make before they lock the accounts of a transaction. -/
def bundleLocked {Tx Key : Type} [LinearOrder Key] [SVMMessage Tx Key]
    (locks : BundleAccountLocks Key) (transaction : Tx) : Bool :=
  (readAccountLocks transaction).any (fun lock => locks.writeLocks.contains lock) ||
    (writeAccountLocks transaction).any fun lock =>
      locks.writeLocks.contains lock || locks.readLocks.contains lock

end FlowraValidator.BankingStage
