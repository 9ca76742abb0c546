import FlowraValidator.Votor.Messages

/-!
# The parent-ready tracker

`votor/src/consensus_pool/parent_ready_tracker.rs`: for every slot, the blocks that may be its
parent. A block is a ready parent of a slot when it is certified and every slot between the two has
a skip certificate. Certificates arrive in any order, so each one is propagated forwards along the
slots that are skipped already.

A failed assertion is the value `none`, and so is a loop `for s in slot..` that would step past
`u64::MAX`. The public key of the tracker is only logged, and left out.

* `ParentReadyTracker`: the data and the calls, as in the source.
* `Extends`: what any of these loops may do to a tracker, with the events it emits.
* `addNewNotarFallbackOrStronger_spec`, `addNewSkip_spec`: which pairs a call makes ready.
-/

namespace FlowraValidator.Votor
open List Function

structure ParentReadyStatus where
  skip : Bool := false
  notarFallbacks : List Block := []
  parentsReady : List Block := []

/-- The `HashMap` of statuses is a partial function. -/
structure ParentReadyTracker where
  slotStatuses : ℕ → Option ParentReadyStatus
  root : ℕ
  highestWithParentReady : ℕ

/-- `BlockProductionParent`. -/
inductive BlockProductionParent where
  | missedWindow
  | parentNotReady
  | parent (block : Block)
  deriving DecidableEq

namespace ParentReadyTracker

/-- `slot_statuses.entry(slot).or_default()`, or what a missing entry stands for. -/
def status (t : ParentReadyTracker) (s : ℕ) : ParentReadyStatus := (t.slotStatuses s).getD {}

/-- Write the status of a slot back. -/
def setStatus (t : ParentReadyTracker) (s : ℕ) (st : ParentReadyStatus) : ParentReadyTracker :=
  { t with slotStatuses := update t.slotStatuses s (some st) }

def raiseHighest (t : ParentReadyTracker) (s : ℕ) : ParentReadyTracker :=
  { t with highestWithParentReady := max s t.highestWithParentReady }

/-- A tracker in which the root block counts as notarized. -/
def new (rootBlock : Block) : ParentReadyTracker where
  slotStatuses := update
    (update (fun _ => none) rootBlock.1 (some { notarFallbacks := [rootBlock] }))
    (saturatingSucc rootBlock.1) (some { parentsReady := [rootBlock] })
  root := rootBlock.1
  highestWithParentReady := saturatingSucc rootBlock.1

/-- Push `block` to the ready parents of `s`, unless it is one, and notify for first leader slots.
The body that the loops of both kinds of certificates share. -/
def pushParent (t : ParentReadyTracker) (s : ℕ) (block : Block) (events : List VotorEvent) :
    ParentReadyTracker × List VotorEvent :=
  let status := t.status s
  if block ∈ status.parentsReady then (t.setStatus s status, events)
  else
    (t.setStatus s { status with parentsReady := status.parentsReady ++ [block] },
      if s % numConsecutiveLeaderSlots = 0 then events ++ [.parentReady s block] else events)

/-- `for s in s..` of `add_new_notar_fallback_or_stronger`. `rounds` counts the slots from `s` to
`u64::MAX`; the range panics before it yields the last one. -/
def connect (block : Block) : ℕ → ℕ → ParentReadyTracker → List VotorEvent →
    Option (ParentReadyTracker × List VotorEvent)
  | 0, _, _, _ => none
  | rounds + 1, s, t, events =>
    let pushed := t.pushParent s block events
    let t' := if block ∈ (t.status s).parentsReady then pushed.1 else pushed.1.raiseHighest s
    if (t.status s).skip then connect block rounds (s + 1) t' pushed.2 else some (t', pushed.2)

/-- A new notarize fallback certificate, or a stronger one. -/
def addNewNotarFallbackOrStronger (t : ParentReadyTracker) (block : Block)
    (events : List VotorEvent) : Option (ParentReadyTracker × List VotorEvent) :=
  if block.1 ≤ t.root then some (t, events)
  else
    let status := t.status block.1
    if block ∈ status.notarFallbacks then some (t.setStatus block.1 status, events)
    else if status.notarFallbacks.length + 1 ≤ maxEntriesPerPubkeyForNotarizeLite then
      let t := t.setStatus block.1
        { status with notarFallbacks := status.notarFallbacks ++ [block] }
      connect block (u64Max - saturatingSucc block.1) (saturatingSucc block.1) t events
    else none

/-- The slots newly connected by a skip: `s`, and on as long as slots are skipped. -/
def futureSlots (t : ParentReadyTracker) : ℕ → ℕ → Option (List ℕ)
  | 0, _ => none
  | rounds + 1, s =>
    if (t.status s).skip then (futureSlots t rounds (s + 1)).map (s :: ·) else some [s]

/-- The possible parents that the slot before a skipped one passes on. -/
def potentialParents (status : ParentReadyStatus) : List Block :=
  status.notarFallbacks ++ if status.skip then status.parentsReady else []

/-- The inner loop of `add_new_skip`, over the possible parents. -/
def pushParents (s : ℕ) : List Block → ParentReadyTracker → List VotorEvent →
    ParentReadyTracker × List VotorEvent
  | [], t, events => (t, events)
  | block :: blocks, t, events =>
    let pushed := t.pushParent s block events
    pushParents s blocks pushed.1 pushed.2

/-- The outer loop of `add_new_skip`, over the future slots. -/
def pushAll (blocks : List Block) : List ℕ → ParentReadyTracker → List VotorEvent →
    ParentReadyTracker × List VotorEvent
  | [], t, events => (t, events)
  | s :: slots, t, events =>
    let pushed := pushParents s blocks t events
    pushAll blocks slots (pushed.1.raiseHighest s) pushed.2

/-- A new skip certificate. -/
def addNewSkip (t : ParentReadyTracker) (slot : ℕ) (events : List VotorEvent) :
    Option (ParentReadyTracker × List VotorEvent) :=
  if slot ≤ t.root then some (t, events)
  else do
    let t := t.setStatus slot { t.status slot with skip := true }
    let slots ← t.futureSlots (u64Max - saturatingSucc slot) (saturatingSucc slot)
    -- a missing status of the previous slot passes no parents on
    let blocks := potentialParents (t.status (slot - 1))
    if blocks.isEmpty then return (t, events)
    else return pushAll blocks slots t events

def highestParentReady (t : ParentReadyTracker) : ℕ := t.highestWithParentReady

/-- The least ready parent in the order of pairs. -/
def leastParent (blocks : List Block) : Option Block :=
  blocks.foldl (fun least b =>
    match least with
    | none => some b
    | some a => if b.1 < a.1 ∨ b.1 = a.1 ∧ b.2 < a.2 then some b else some a) none

def blockProductionParent (t : ParentReadyTracker) (slot : ℕ) : BlockProductionParent :=
  if slot < t.highestParentReady then .missedWindow
  else match leastParent (t.status slot).parentsReady with
    | some parent => .parent parent
    | none => .parentNotReady

def setRoot (t : ParentReadyTracker) (root : ℕ) : ParentReadyTracker where
  slotStatuses := fun s => if root ≤ s then t.slotStatuses s else none
  root := root
  highestWithParentReady := t.highestWithParentReady

/-! ## Ready pairs and the events for them -/

/-- `block` may be the parent of a block in slot `s`. -/
def Ready (t : ParentReadyTracker) (s : ℕ) (block : Block) : Prop :=
  block ∈ (t.status s).parentsReady

instance (t : ParentReadyTracker) (s : ℕ) (block : Block) : Decidable (t.Ready s block) :=
  inferInstanceAs (Decidable (block ∈ (t.status s).parentsReady))

@[simp] theorem status_setStatus (t : ParentReadyTracker) (s s' : ℕ) (st : ParentReadyStatus) :
    (t.setStatus s st).status s' = if s' = s then st else t.status s' := by
  unfold status setStatus
  by_cases h : s' = s
  · subst h
    simp
  · simp [h]

@[simp] theorem status_raiseHighest (t : ParentReadyTracker) (s s' : ℕ) :
    (t.raiseHighest s).status s' = t.status s' := rfl

/-- Between two trackers, nothing but ready parents and the highest slot may differ. -/
structure Keeps (t t' : ParentReadyTracker) : Prop where
  root : t'.root = t.root
  skip : ∀ s, (t'.status s).skip = (t.status s).skip
  notarFallbacks : ∀ s, (t'.status s).notarFallbacks = (t.status s).notarFallbacks

/-- Ready pairs stay ready, and the emitted events are one for each pair of a first leader slot that
becomes ready. -/
structure Emits (t t' : ParentReadyTracker) (emitted : List VotorEvent) : Prop where
  ready : ∀ {s b}, t.Ready s b → t'.Ready s b
  nodup : emitted.Nodup
  mem_iff : ∀ e, e ∈ emitted ↔ ∃ s b, e = .parentReady s b ∧ s % numConsecutiveLeaderSlots = 0 ∧
    ¬t.Ready s b ∧ t'.Ready s b

/-- The highest slot covers the pairs that become ready, and is only raised to a slot with a ready
parent. -/
structure Raises (t t' : ParentReadyTracker) : Prop where
  le : t.highestWithParentReady ≤ t'.highestWithParentReady
  covers : ∀ s b, t'.Ready s b → ¬t.Ready s b → s ≤ t'.highestWithParentReady
  attained : t'.highestWithParentReady = t.highestWithParentReady ∨
    ∃ b, t'.Ready t'.highestWithParentReady b

theorem Keeps.refl (t : ParentReadyTracker) : Keeps t t := ⟨rfl, fun _ => rfl, fun _ => rfl⟩

variable {t : ParentReadyTracker} {t1 t2 t' : ParentReadyTracker}

theorem Keeps.trans (h1 : Keeps t t1) (h2 : Keeps t1 t2) : Keeps t t2 :=
  ⟨h2.root.trans h1.root, fun s => (h2.skip s).trans (h1.skip s),
    fun s => (h2.notarFallbacks s).trans (h1.notarFallbacks s)⟩

theorem Emits.of_ready_iff (h : ∀ s b, t'.Ready s b ↔ t.Ready s b) : Emits t t' [] where
  ready := fun hr => (h _ _).mpr hr
  nodup := nodup_nil
  mem_iff := by
    intro e
    constructor
    · intro he
      cases he
    · rintro ⟨s, b, -, -, hno, hyes⟩
      exact absurd ((h s b).mp hyes) hno

/-- Emitted events are for pairs that were not ready before, so those of two parts of a call are
different. -/
theorem Emits.trans {emitted1 emitted2 : List VotorEvent} (h1 : Emits t t1 emitted1)
    (h2 : Emits t1 t2 emitted2) :
    Emits t t2 (emitted1 ++ emitted2) where
  ready := fun hr => h2.ready (h1.ready hr)
  nodup := by
    rw [nodup_append']
    refine ⟨h1.nodup, h2.nodup, ?_⟩
    intro e he1 he2
    obtain ⟨s, b, rfl, -, -, hready⟩ := (h1.mem_iff e).mp he1
    obtain ⟨s', b', heq, -, hno, -⟩ := (h2.mem_iff _).mp he2
    rw [VotorEvent.parentReady.injEq] at heq
    obtain ⟨rfl, rfl⟩ := heq
    exact hno hready
  mem_iff := by
    intro e
    rw [mem_append, h1.mem_iff, h2.mem_iff]
    constructor
    · rintro (⟨s, b, rfl, hs, hno, hyes⟩ | ⟨s, b, rfl, hs, hno, hyes⟩)
      · exact ⟨s, b, rfl, hs, hno, h2.ready hyes⟩
      · exact ⟨s, b, rfl, hs, fun hr => hno (h1.ready hr), hyes⟩
    · rintro ⟨s, b, rfl, hs, hno, hyes⟩
      by_cases hmid : t1.Ready s b
      · exact .inl ⟨s, b, rfl, hs, hno, hmid⟩
      · exact .inr ⟨s, b, rfl, hs, hmid, hyes⟩

theorem Raises.refl (t : ParentReadyTracker) : Raises t t :=
  ⟨le_rfl, fun _ _ hyes hno => absurd hyes hno, .inl rfl⟩

theorem Raises.trans {emitted : List VotorEvent} (h1 : Raises t t1) (h2 : Raises t1 t2)
    (hready : Emits t1 t2 emitted) : Raises t t2 where
  le := h1.le.trans h2.le
  covers := by
    intro s b hyes hno
    by_cases hmid : t1.Ready s b
    · exact (h1.covers s b hmid hno).trans h2.le
    · exact h2.covers s b hyes hmid
  attained := by
    rcases h2.attained with heq | hb
    · rcases h1.attained with heq1 | ⟨b, hb⟩
      · exact .inl (heq.trans heq1)
      · exact .inr ⟨b, heq ▸ hready.ready hb⟩
    · exact .inr hb

/-! ## Pushing one parent -/

section
variable (t : ParentReadyTracker) (s : ℕ) (block : Block) (events : List VotorEvent)

theorem pushParent_of_ready (h : t.Ready s block) :
    t.pushParent s block events = (t.setStatus s (t.status s), events) :=
  if_pos h

theorem pushParent_of_not_ready (h : ¬t.Ready s block) :
    t.pushParent s block events =
      (t.setStatus s
        { t.status s with parentsReady := (t.status s).parentsReady ++ [block] },
        if s % numConsecutiveLeaderSlots = 0 then events ++ [.parentReady s block] else events) :=
  if_neg h

theorem ready_pushParent (s' : ℕ) (b : Block) :
    (t.pushParent s block events).1.Ready s' b ↔ t.Ready s' b ∨ s' = s ∧ b = block := by
  by_cases hmem : t.Ready s block
  · rw [pushParent_of_ready t s block events hmem]
    unfold Ready at hmem ⊢
    rw [status_setStatus]
    split_ifs with hs
    · subst hs
      exact ⟨.inl, fun h => h.elim id fun h => h.2 ▸ hmem⟩
    · simp [hs]
  · rw [pushParent_of_not_ready t s block events hmem]
    unfold Ready
    rw [status_setStatus]
    split_ifs with hs
    · subst hs
      simp
    · simp [hs]

theorem keeps_pushParent : Keeps t (t.pushParent s block events).1 := by
  by_cases hmem : t.Ready s block
  · rw [pushParent_of_ready t s block events hmem]
    refine ⟨rfl, fun s' => ?_, fun s' => ?_⟩ <;> rw [status_setStatus] <;> split_ifs with hs <;>
      simp [hs]
  · rw [pushParent_of_not_ready t s block events hmem]
    refine ⟨rfl, fun s' => ?_, fun s' => ?_⟩ <;> rw [status_setStatus] <;> split_ifs with hs <;>
      simp [hs]

@[simp] theorem highest_pushParent :
    (t.pushParent s block events).1.highestWithParentReady = t.highestWithParentReady := by
  by_cases hmem : t.Ready s block
  · rw [pushParent_of_ready t s block events hmem]
    rfl
  · rw [pushParent_of_not_ready t s block events hmem]
    rfl

theorem exists_emits_pushParent : ∃ emitted, (t.pushParent s block events).2 = events ++ emitted ∧
    Emits t (t.pushParent s block events).1 emitted := by
  have hready := ready_pushParent t s block events
  by_cases hmem : t.Ready s block
  · refine ⟨[], ?_, Emits.of_ready_iff fun s' b => ?_⟩
    · rw [pushParent_of_ready t s block events hmem, append_nil]
    · rw [hready]
      constructor
      · rintro (h | ⟨rfl, rfl⟩)
        · exact h
        · exact hmem
      · exact .inl
  · refine ⟨if s % numConsecutiveLeaderSlots = 0 then [.parentReady s block] else [], ?_, ?_⟩
    · rw [pushParent_of_not_ready t s block events hmem]
      split_ifs <;> simp
    · refine ⟨fun hr => (hready _ _).mpr (.inl hr), ?_, ?_⟩
      · split_ifs <;> simp
      · intro e
        constructor
        · intro he
          split_ifs at he with hs
          · rw [mem_singleton] at he
            exact ⟨s, block, he, hs, hmem, (hready _ _).mpr (.inr ⟨rfl, rfl⟩)⟩
          · cases he
        · rintro ⟨s', b, rfl, hs, hno, hyes⟩
          rcases (hready _ _).mp hyes with h | ⟨rfl, rfl⟩
          · exact absurd h hno
          · rw [if_pos hs]
            exact mem_singleton_self _

end

/-! ## Slots linked by skips -/

/-- Every slot from `a` up to `s`, `s` not included, is skipped. -/
def Linked (t : ParentReadyTracker) (a s : ℕ) : Prop :=
  a ≤ s ∧ ∀ r, a ≤ r → r < s → (t.status r).skip = true

theorem Linked.self (t : ParentReadyTracker) (a : ℕ) : t.Linked a a :=
  ⟨le_rfl, fun r h h' => absurd h (by omega)⟩

theorem linked_of_not_skip {a s : ℕ} (h : (t.status a).skip = false) : t.Linked a s ↔ s = a := by
  constructor
  · rintro ⟨hle, hskip⟩
    by_contra hne
    have := hskip a le_rfl (by omega)
    rw [h] at this
    exact absurd this Bool.false_ne_true
  · rintro rfl
    exact Linked.self t s

theorem linked_of_skip {a s : ℕ} (h : (t.status a).skip = true) :
    t.Linked a s ↔ s = a ∨ t.Linked (a + 1) s := by
  constructor
  · rintro ⟨hle, hskip⟩
    by_cases hs : s = a
    · exact .inl hs
    · exact .inr ⟨by omega, fun r hr hrs => hskip r (by omega) hrs⟩
  · rintro (rfl | ⟨hle, hskip⟩)
    · exact Linked.self t s
    · refine ⟨by omega, fun r hr hrs => ?_⟩
      by_cases hra : r = a
      · rwa [hra]
      · exact hskip r (by omega) hrs

theorem Keeps.linked_iff (h : Keeps t t') (a s : ℕ) : t'.Linked a s ↔ t.Linked a s := by
  unfold Linked
  simp only [h.skip]

/-! ## The loops -/

/-- The result of a loop that adds the pairs in `new` to the ready ones, and emits the events. -/
structure Adds (t : ParentReadyTracker) (events : List VotorEvent) (new : ℕ → Block → Prop)
    (result : ParentReadyTracker × List VotorEvent) : Prop where
  keeps : Keeps t result.1
  ready_iff : ∀ s b, result.1.Ready s b ↔ t.Ready s b ∨ new s b
  exists_emits : ∃ emitted, result.2 = events ++ emitted ∧ Emits t result.1 emitted

theorem Adds.nil (t : ParentReadyTracker) (events : List VotorEvent) :
    Adds t events (fun _ _ => False) (t, events) where
  keeps := Keeps.refl t
  ready_iff := fun s b => (or_false (t.Ready s b)).symm ▸ Iff.rfl
  exists_emits := ⟨[], (append_nil events).symm, Emits.of_ready_iff fun _ _ => Iff.rfl⟩

variable {events : List VotorEvent} {new : ℕ → Block → Prop}
  {result : ParentReadyTracker × List VotorEvent}

theorem Adds.trans {new1 new2 : ℕ → Block → Prop} {mid : ParentReadyTracker × List VotorEvent}
    (h1 : Adds t events new1 mid) (h2 : Adds mid.1 mid.2 new2 result)
    (hnew : ∀ s b, new s b ↔ new1 s b ∨ new2 s b) : Adds t events new result where
  keeps := h1.keeps.trans h2.keeps
  ready_iff := by
    intro s b
    rw [h2.ready_iff, h1.ready_iff, hnew, or_assoc]
  exists_emits := by
    obtain ⟨emitted1, heq1, hem1⟩ := h1.exists_emits
    obtain ⟨emitted2, heq2, hem2⟩ := h2.exists_emits
    exact ⟨emitted1 ++ emitted2, by rw [heq2, heq1, append_assoc], hem1.trans hem2⟩

/-- The highest slot is no part of what `Adds` speaks about. -/
theorem Adds.raiseHighest (h : Adds t events new result) (s : ℕ) :
    Adds t events new (result.1.raiseHighest s, result.2) := by
  obtain ⟨emitted, heq, hem⟩ := h.exists_emits
  exact ⟨⟨h.keeps.root, h.keeps.skip, h.keeps.notarFallbacks⟩, h.ready_iff, emitted, heq,
    ⟨hem.ready, hem.nodup, hem.mem_iff⟩⟩

theorem adds_pushParent (t : ParentReadyTracker) (s : ℕ) (block : Block)
    (events : List VotorEvent) :
    Adds t events (fun s' b => s' = s ∧ b = block) (t.pushParent s block events) :=
  ⟨keeps_pushParent t s block events, ready_pushParent t s block events,
    exists_emits_pushParent t s block events⟩

/-- One round of `connect`, up to the decision to go on. -/
theorem raises_connect_round (t : ParentReadyTracker) (s : ℕ) (block : Block)
    (events : List VotorEvent) :
    Raises t (if block ∈ (t.status s).parentsReady then (t.pushParent s block events).1
      else (t.pushParent s block events).1.raiseHighest s) := by
  have hready := ready_pushParent t s block events
  split_ifs with hmem
  · refine ⟨(highest_pushParent t s block events).ge, fun s' b hyes hno => ?_,
      .inl (highest_pushParent t s block events)⟩
    rcases (hready s' b).mp hyes with h | ⟨rfl, rfl⟩
    · exact absurd h hno
    · exact absurd hmem hno
  · have hmax : ((t.pushParent s block events).1.raiseHighest s).highestWithParentReady =
        max s t.highestWithParentReady := by
      rw [← highest_pushParent t s block events]
      rfl
    refine ⟨?_, fun s' b hyes hno => ?_, ?_⟩
    · rw [hmax]
      exact le_max_right _ _
    · rcases (hready s' b).mp hyes with h | ⟨rfl, rfl⟩
      · exact absurd h hno
      · rw [hmax]
        exact le_max_left _ _
    · rw [hmax]
      rcases le_total s t.highestWithParentReady with hle | hle
      · exact .inl (max_eq_right hle)
      · refine .inr ⟨block, ?_⟩
        rw [max_eq_left hle]
        exact (hready s block).mpr (.inr ⟨rfl, rfl⟩)

open Option

/-- The loop makes `block` a ready parent of the slots linked to the first one. -/
theorem connect_spec {block : Block} :
    ∀ {rounds : ℕ} {a : ℕ} {t : ParentReadyTracker} {events : List VotorEvent}
      {result : ParentReadyTracker × List VotorEvent},
      connect block rounds a t events = some result →
        Adds t events (fun s b => b = block ∧ t.Linked a s) result ∧ Raises t result.1 := by
  intro rounds
  induction rounds with
  | zero =>
    intro a t events result h
    exact absurd h (by simp [connect])
  | succ rounds ih =>
    intro a t events result h
    rw [connect] at h
    have hround : Adds t events (fun s b => s = a ∧ b = block)
        (if block ∈ (t.status a).parentsReady then (t.pushParent a block events).1
          else (t.pushParent a block events).1.raiseHighest a,
          (t.pushParent a block events).2) := by
      split_ifs
      · exact adds_pushParent t a block events
      · exact (adds_pushParent t a block events).raiseHighest a
    have hraise := raises_connect_round t a block events
    revert h hround hraise
    generalize (if block ∈ (t.status a).parentsReady then (t.pushParent a block events).1
      else (t.pushParent a block events).1.raiseHighest a) = t'
    intro h hround hraise
    cases hskip : (t.status a).skip with
    | false =>
      rw [hskip, if_neg Bool.false_ne_true, some_inj] at h
      subst h
      refine ⟨⟨hround.keeps, fun s b => ?_, hround.exists_emits⟩, hraise⟩
      rw [hround.ready_iff, linked_of_not_skip hskip, and_comm (a := b = block)]
    | true =>
      rw [hskip, if_pos rfl] at h
      obtain ⟨hrest, hrestRaise⟩ := ih h
      obtain ⟨emitted, -, hem⟩ := hrest.exists_emits
      refine ⟨hround.trans hrest fun s b => ?_, hraise.trans hrestRaise hem⟩
      rw [hround.keeps.linked_iff, linked_of_skip hskip]
      tauto

theorem mem_futureSlots :
    ∀ {rounds : ℕ} {a : ℕ} {slots : List ℕ}, t.futureSlots rounds a = some slots →
      ∀ s, s ∈ slots ↔ t.Linked a s := by
  intro rounds
  induction rounds with
  | zero =>
    intro a slots h
    exact absurd h (by simp [futureSlots])
  | succ rounds ih =>
    intro a slots h s
    rw [futureSlots] at h
    cases hskip : (t.status a).skip with
    | false =>
      rw [hskip, if_neg Bool.false_ne_true, some_inj] at h
      subst h
      rw [mem_singleton, linked_of_not_skip hskip]
    | true =>
      rw [hskip, if_pos rfl, map_eq_some_iff] at h
      obtain ⟨rest, hrest, rfl⟩ := h
      rw [mem_cons, ih hrest, linked_of_skip hskip]

theorem adds_pushParents (s : ℕ) (blocks : List Block) (t : ParentReadyTracker)
    (events : List VotorEvent) :
    Adds t events (fun s' b => s' = s ∧ b ∈ blocks) (pushParents s blocks t events) ∧
      (pushParents s blocks t events).1.highestWithParentReady = t.highestWithParentReady := by
  induction blocks generalizing t events with
  | nil =>
    refine ⟨?_, rfl⟩
    have h := Adds.nil t events
    exact ⟨h.keeps, fun s' b => by simp [pushParents], h.exists_emits⟩
  | cons block blocks ih =>
    obtain ⟨hadds, hhigh⟩ := ih (t.pushParent s block events).1 (t.pushParent s block events).2
    refine ⟨(adds_pushParent t s block events).trans hadds fun s' b => ?_, ?_⟩
    · rw [mem_cons]
      tauto
    · rw [pushParents, hhigh, highest_pushParent]

/-- The loop over the future slots, for at least one possible parent. -/
theorem pushAll_spec {blocks : List Block} (hne : blocks ≠ []) (slots : List ℕ)
    (t : ParentReadyTracker) (events : List VotorEvent) :
    Adds t events (fun s b => s ∈ slots ∧ b ∈ blocks) (pushAll blocks slots t events) ∧
      Raises t (pushAll blocks slots t events).1 := by
  induction slots generalizing t events with
  | nil =>
    refine ⟨?_, Raises.refl t⟩
    have h := Adds.nil t events
    exact ⟨h.keeps, fun s b => by simp [pushAll], h.exists_emits⟩
  | cons a slots ih =>
    obtain ⟨hround, hhigh⟩ := adds_pushParents a blocks t events
    have hround' := hround.raiseHighest a
    obtain ⟨hrest, hrestRaise⟩ :=
      ih ((pushParents a blocks t events).1.raiseHighest a) (pushParents a blocks t events).2
    obtain ⟨emitted, -, hem⟩ := hrest.exists_emits
    obtain ⟨block, hblock⟩ := exists_mem_of_ne_nil _ hne
    have hmax : ((pushParents a blocks t events).1.raiseHighest a).highestWithParentReady =
        max a t.highestWithParentReady := by
      rw [← hhigh]
      rfl
    have hraise : Raises t ((pushParents a blocks t events).1.raiseHighest a) := by
      refine ⟨?_, fun s b hyes hno => ?_, ?_⟩
      · rw [hmax]
        exact le_max_right _ _
      · rcases (hround'.ready_iff s b).mp hyes with h | ⟨rfl, -⟩
        · exact absurd h hno
        · rw [hmax]
          exact le_max_left _ _
      · rw [hmax]
        rcases le_total a t.highestWithParentReady with hle | hle
        · exact .inl (max_eq_right hle)
        · refine .inr ⟨block, ?_⟩
          rw [max_eq_left hle]
          exact (hround'.ready_iff a block).mpr (.inr ⟨rfl, hblock⟩)
    refine ⟨hround'.trans hrest fun s b => ?_, hraise.trans hrestRaise hem⟩
    rw [mem_cons]
    tauto

/-! ## The calls -/

/-- What a call does to the ready pairs: those in `new` become ready, all of them above the root. -/
structure CallSpec (t : ParentReadyTracker) (events : List VotorEvent) (new : ℕ → Block → Prop)
    (result : ParentReadyTracker × List VotorEvent) : Prop where
  root : result.1.root = t.root
  above : ∀ s b, new s b → t.root < s
  ready_iff : ∀ s b, result.1.Ready s b ↔ t.Ready s b ∨ new s b
  exists_emits : ∃ emitted, result.2 = events ++ emitted ∧ Emits t result.1 emitted
  raises : Raises t result.1

/-- A change of a tracker that leaves the ready pairs alone. -/
theorem CallSpec.of_unchanged (events : List VotorEvent) (hroot : t'.root = t.root)
    (hhigh : t'.highestWithParentReady = t.highestWithParentReady)
    (hready : ∀ s b, t'.Ready s b ↔ t.Ready s b) (hnew : ∀ s b, ¬new s b) :
    CallSpec t events new (t', events) where
  root := hroot
  above := fun s b h => absurd h (hnew s b)
  ready_iff := fun s b => by simp [hready, hnew]
  exists_emits := ⟨[], (append_nil events).symm, Emits.of_ready_iff hready⟩
  raises := ⟨hhigh.ge, fun s b hyes hno => absurd ((hready s b).mp hyes) hno, .inl hhigh⟩

/-- A loop that starts from a tracker with the ready pairs of `t`. -/
theorem CallSpec.of_adds {t0 : ParentReadyTracker} (hadds : Adds t0 events new result)
    (hraises : Raises t0 result.1) (hroot : t0.root = t.root)
    (hhigh : t0.highestWithParentReady = t.highestWithParentReady)
    (hready : ∀ s b, t0.Ready s b ↔ t.Ready s b) (habove : ∀ s b, new s b → t.root < s) :
    CallSpec t events new result where
  root := hadds.keeps.root.trans hroot
  above := habove
  ready_iff := fun s b => by rw [hadds.ready_iff, hready]
  exists_emits := by
    obtain ⟨emitted, heq, hem⟩ := hadds.exists_emits
    refine ⟨emitted, heq, fun h => hem.ready ((hready _ _).mpr h), hem.nodup, fun e => ?_⟩
    simp only [hem.mem_iff, hready]
  raises := by
    refine ⟨hhigh ▸ hraises.le, fun s b hyes hno => ?_, hhigh ▸ hraises.attained⟩
    exact hraises.covers s b hyes fun h => hno ((hready s b).mp h)

/-- The range of slots after `slot` yields something only below the end of `u64`. -/
theorem ready_setStatus {slot : ℕ} {st : ParentReadyStatus}
    (h : st.parentsReady = (t.status slot).parentsReady) (s : ℕ) (b : Block) :
    (t.setStatus slot st).Ready s b ↔ t.Ready s b := by
  unfold Ready
  rw [status_setStatus]
  split_ifs with hs <;> simp [hs, h]

theorem saturatingSucc_of_rounds {slot rounds : ℕ}
    (h : u64Max - saturatingSucc slot = rounds + 1) : saturatingSucc slot = slot + 1 := by
  unfold saturatingSucc at h ⊢
  omega

/-- **A certified block becomes a ready parent of the slots linked to it.** -/
theorem addNewNotarFallbackOrStronger_spec {block : Block}
    (h : t.addNewNotarFallbackOrStronger block events = some result) :
    CallSpec t events (fun s b => t.root < block.1 ∧ block ∉ (t.status block.1).notarFallbacks ∧
        b = block ∧ t.Linked (block.1 + 1) s) result ∧
      (∀ s, (result.1.status s).skip = (t.status s).skip) ∧
      ∀ s b, b ∈ (result.1.status s).notarFallbacks ↔
        b ∈ (t.status s).notarFallbacks ∨ t.root < block.1 ∧ s = block.1 ∧ b = block := by
  unfold addNewNotarFallbackOrStronger at h
  dsimp only at h
  split_ifs at h with hroot hmem hlen
  · -- at or below the root: ignored
    cases h
    refine ⟨.of_unchanged events rfl rfl (fun _ _ => Iff.rfl) (fun s b hn => ?_), fun _ => rfl,
      fun s b => ?_⟩
    · omega
    · simp [Nat.not_lt.mpr hroot]
  · -- certified before
    cases h
    have hstatus : ∀ s, (t.setStatus block.1 (t.status block.1)).status s = t.status s := by
      intro s
      rw [status_setStatus]
      split_ifs with hs
      · rw [hs]
      · rfl
    refine ⟨.of_unchanged events rfl rfl (ready_setStatus rfl) (fun s b hn => hn.2.1 hmem),
      fun s => by rw [hstatus], fun s b => ?_⟩
    · rw [hstatus]
      exact ⟨.inl, fun hb => hb.elim id fun hb => by rw [hb.2.1, hb.2.2]; exact hmem⟩
  · -- newly certified
    generalize ht0 : t.setStatus block.1
      { t.status block.1 with notarFallbacks := (t.status block.1).notarFallbacks ++ [block] } = t0
      at h
    have hskip : ∀ s, (t0.status s).skip = (t.status s).skip := by
      intro s
      rw [← ht0, status_setStatus]
      split_ifs with hs <;> simp [hs]
    have hready : ∀ s b, t0.Ready s b ↔ t.Ready s b := ht0 ▸ ready_setStatus rfl
    cases hrounds : u64Max - saturatingSucc block.1 with
    | zero =>
      rw [hrounds] at h
      exact absurd h (by simp [connect])
    | succ rounds =>
      rw [hrounds, saturatingSucc_of_rounds hrounds] at h
      obtain ⟨hadds, hraises⟩ := connect_spec h
      have hlinked : ∀ s, t0.Linked (block.1 + 1) s ↔ t.Linked (block.1 + 1) s := by
        intro s
        unfold Linked
        simp only [hskip]
      have hlt : t.root < block.1 := by omega
      have hadds' : Adds t0 events (fun s b => t.root < block.1 ∧
          block ∉ (t.status block.1).notarFallbacks ∧ b = block ∧ t.Linked (block.1 + 1) s)
          result := by
        refine ⟨hadds.keeps, fun s b => ?_, hadds.exists_emits⟩
        rw [hadds.ready_iff, hlinked]
        simp [hlt, hmem]
      refine ⟨.of_adds hadds' hraises (by rw [← ht0]; rfl) (by rw [← ht0]; rfl) hready ?_,
        fun s => (hadds.keeps.skip s).trans (hskip s), fun s b => ?_⟩
      · rintro s b ⟨-, -, -, hle, -⟩
        omega
      · rw [hadds.keeps.notarFallbacks, ← ht0, status_setStatus]
        split_ifs with hs <;> simp [hs, hlt]

/-- **A skipped slot passes the parents of the slot before it on**, to the slots linked to it. -/
theorem addNewSkip_spec {slot : ℕ} (h : t.addNewSkip slot events = some result) :
    CallSpec t events (fun s b => t.root < slot ∧ b ∈ potentialParents (t.status (slot - 1)) ∧
        t.Linked (slot + 1) s) result ∧
      (∀ s, (result.1.status s).notarFallbacks = (t.status s).notarFallbacks) ∧
      ∀ s, (result.1.status s).skip = true ↔
        (t.status s).skip = true ∨ t.root < slot ∧ s = slot := by
  unfold addNewSkip at h
  split_ifs at h with hroot
  · cases h
    refine ⟨.of_unchanged events rfl rfl (fun _ _ => Iff.rfl) (fun s b hn => ?_), fun _ => rfl,
      fun s => ?_⟩
    · omega
    · simp [Nat.not_lt.mpr hroot]
  · have hlt : t.root < slot := by omega
    simp only at h
    generalize ht0 : t.setStatus slot { t.status slot with skip := true } = t0 at h
    have hstatus : ∀ s, s ≠ slot → t0.status s = t.status s := by
      intro s hs
      rw [← ht0, status_setStatus, if_neg hs]
    have hskip : ∀ s, (t0.status s).skip = true ↔
        (t.status s).skip = true ∨ t.root < slot ∧ s = slot := by
      intro s
      rw [← ht0, status_setStatus]
      split_ifs with hs <;> simp [hs, hlt]
    have hnotar : ∀ s, (t0.status s).notarFallbacks = (t.status s).notarFallbacks := by
      intro s
      rw [← ht0, status_setStatus]
      split_ifs with hs <;> simp [hs]
    have hready : ∀ s b, t0.Ready s b ↔ t.Ready s b := ht0 ▸ ready_setStatus rfl
    have hlinked : ∀ s, t0.Linked (slot + 1) s ↔ t.Linked (slot + 1) s := by
      intro s
      refine and_congr_right fun _ => forall_congr' fun r => imp_congr_right fun hr => ?_
      rw [hstatus r (by omega)]
    rw [hstatus (slot - 1) (by omega)] at h
    cases hrounds : u64Max - saturatingSucc slot with
    | zero =>
      rw [hrounds] at h
      exact absurd h (by simp [futureSlots])
    | succ rounds =>
      rw [hrounds, saturatingSucc_of_rounds hrounds, bind_eq_bind,
        bind_eq_some_iff] at h
      obtain ⟨slots, hslots, h⟩ := h
      have hmem := mem_futureSlots hslots
      split_ifs at h with hempty
      · cases h
        rw [List.isEmpty_iff] at hempty
        refine ⟨.of_unchanged events (by rw [← ht0]; rfl) (by rw [← ht0]; rfl) hready
          (fun s b hn => ?_), hnotar, hskip⟩
        rw [hempty] at hn
        cases hn.2.1
      · cases h
        have hne : potentialParents (t.status (slot - 1)) ≠ [] := by
          rwa [List.isEmpty_iff] at hempty
        obtain ⟨hadds, hraises⟩ := pushAll_spec hne slots t0 events
        have hadds' : Adds t0 events (fun s b => t.root < slot ∧
            b ∈ potentialParents (t.status (slot - 1)) ∧ t.Linked (slot + 1) s)
            (pushAll (potentialParents (t.status (slot - 1))) slots t0 events) := by
          refine ⟨hadds.keeps, fun s b => ?_, hadds.exists_emits⟩
          rw [hadds.ready_iff, hmem, hlinked]
          simp only [hlt, true_and]
          tauto
        refine ⟨.of_adds hadds' hraises (by rw [← ht0]; rfl) (by rw [← ht0]; rfl) hready ?_,
          fun s => (hadds.keeps.notarFallbacks s).trans (hnotar s), fun s => ?_⟩
        · rintro s b ⟨-, -, hle, -⟩
          omega
        · rw [hadds.keeps.skip, hskip]

theorem status_setRoot (t : ParentReadyTracker) {root s : ℕ} (h : root ≤ s) :
    (t.setRoot root).status s = t.status s := by
  unfold status setRoot
  dsimp only
  rw [if_pos h]

theorem ready_setRoot (t : ParentReadyTracker) (root s : ℕ) (b : Block) :
    (t.setRoot root).Ready s b ↔ root ≤ s ∧ t.Ready s b := by
  by_cases h : root ≤ s
  · unfold Ready
    rw [status_setRoot t h]
    simp [h]
  · unfold Ready status setRoot
    simp [h]

/-! ## Events are appended

What a call does depends neither on the events that are there already nor on their number. -/

variable (t events)

theorem pushParent_events (s : ℕ) (block : Block) :
    t.pushParent s block events =
      ((t.pushParent s block []).1, events ++ (t.pushParent s block []).2) := by
  by_cases hmem : t.Ready s block
  · rw [pushParent_of_ready t s block events hmem, pushParent_of_ready t s block [] hmem,
      append_nil]
  · rw [pushParent_of_not_ready t s block events hmem, pushParent_of_not_ready t s block [] hmem]
    split_ifs <;> simp

theorem connect_events (block : Block) (rounds s : ℕ) :
    connect block rounds s t events =
      (connect block rounds s t []).map fun r => (r.1, events ++ r.2) := by
  induction rounds generalizing s t events with
  | zero => rfl
  | succ rounds ih =>
    unfold connect
    rw [pushParent_events t events]
    dsimp only
    split_ifs
    · rw [ih, ih _ (t.pushParent s block []).2, Option.map_map]
      simp [comp_def]
    · rw [ih, ih _ (t.pushParent s block []).2, Option.map_map]
      simp [comp_def]
    · rfl
    · rfl

theorem addNewNotarFallbackOrStronger_events (block : Block) :
    t.addNewNotarFallbackOrStronger block events =
      (t.addNewNotarFallbackOrStronger block []).map fun r => (r.1, events ++ r.2) := by
  unfold addNewNotarFallbackOrStronger
  dsimp only
  split_ifs
  · simp
  · simp
  · exact connect_events _ _ _ _ _
  · rfl

theorem pushParents_events (s : ℕ) (blocks : List Block) :
    pushParents s blocks t events =
      ((pushParents s blocks t []).1, events ++ (pushParents s blocks t []).2) := by
  induction blocks generalizing t events with
  | nil => simp [pushParents]
  | cons block blocks ih =>
    unfold pushParents
    rw [pushParent_events t events]
    rw [ih, ih _ (t.pushParent s block []).2, append_assoc]

theorem pushAll_events (blocks : List Block) (slots : List ℕ) :
    pushAll blocks slots t events =
      ((pushAll blocks slots t []).1, events ++ (pushAll blocks slots t []).2) := by
  induction slots generalizing t events with
  | nil => simp [pushAll]
  | cons s slots ih =>
    unfold pushAll
    rw [pushParents_events t events]
    rw [ih, ih _ (pushParents s blocks t []).2, append_assoc]

theorem addNewSkip_events (slot : ℕ) :
    t.addNewSkip slot events = (t.addNewSkip slot []).map fun r => (r.1, events ++ r.2) := by
  unfold addNewSkip
  split_ifs
  · simp
  · dsimp only
    generalize t.setStatus slot { t.status slot with skip := true } = t'
    cases t'.futureSlots (u64Max - saturatingSucc slot) (saturatingSucc slot) with
    | none => rfl
    | some slots =>
      rw [bind_eq_bind, bind_some, bind_some]
      split_ifs
      · simp
      · rw [pushAll_events]
        rfl

end ParentReadyTracker
end FlowraValidator.Votor
