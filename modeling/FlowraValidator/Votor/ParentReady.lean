import FlowraValidator.Votor.ParentReadyTracker

/-!
# Which parents are ready

A run of a parent-ready tracker: any sequence of new certificates and of roots that do not
decrease. At every point of a run a block is a ready parent of a slot exactly when it was added and
all slots in between were added as skipped, provided that the root has not passed it. Every pair of
a first leader slot is reported in the call that makes it ready, and only there.

The pair of the root block and the slot after it is ready from the start, so no call reports it.

* `History`: a tracker with the calls made so far and the events emitted so far.
* `Step.spec`: what one call can do to ready pairs, events and the highest slot.
* `Characterised`: ready parents in terms of the calls, kept by every step.
* `parentsReady_of_reaches`: the result for every run.
-/

namespace FlowraValidator.Votor.ParentReadyTracker
open List Function

/-- The calls that change a tracker. -/
inductive Call where
  | addNewNotarFallbackOrStronger (block : Block)
  | addNewSkip (slot : ℕ)
  | setRoot (root : ℕ)
  deriving DecidableEq

/-- A call and the events it emits. -/
def perform (t : ParentReadyTracker) : Call → Option (ParentReadyTracker × List VotorEvent)
  | .addNewNotarFallbackOrStronger block => t.addNewNotarFallbackOrStronger block []
  | .addNewSkip slot => t.addNewSkip slot []
  | .setRoot root => some (t.setRoot root, [])

/-- Roots do not decrease. -/
def Permits (t : ParentReadyTracker) : Call → Prop
  | .setRoot root => t.root ≤ root
  | _ => True

instance (t : ParentReadyTracker) : ∀ c, Decidable (t.Permits c)
  | .setRoot root => inferInstanceAs (Decidable (t.root ≤ root))
  | .addNewNotarFallbackOrStronger _ => isTrue trivial
  | .addNewSkip _ => isTrue trivial

/-- A tracker, the calls made so far and the events emitted so far. -/
structure History where
  calls : List Call
  tracker : ParentReadyTracker
  events : List VotorEvent

namespace History

def start (rootBlock : Block) : History := ⟨[], new rootBlock, []⟩

inductive Step : History → History → Prop where
  | call {w : History} {c : Call} {t : ParentReadyTracker} {emitted : List VotorEvent}
      (permits : w.tracker.Permits c) (performs : w.tracker.perform c = some (t, emitted)) :
      Step w ⟨w.calls ++ [c], t, w.events ++ emitted⟩

abbrev Reaches : History → History → Prop := Relation.ReflTransGen Step

/-- Perform a list of calls. -/
def run (w : History) : List Call → Option History
  | [] => some w
  | c :: cs =>
    if w.tracker.Permits c then (w.tracker.perform c).bind fun result =>
      run ⟨w.calls ++ [c], result.1, w.events ++ result.2⟩ cs
    else none

variable {w w' : History} {b : Block}

theorem reaches_of_run {cs : List Call} (h : w.run cs = some w') : Reaches w w' := by
  induction cs generalizing w with
  | nil =>
    rw [run, Option.some_inj] at h
    exact h ▸ .refl
  | cons c cs ih =>
    rw [run] at h
    split_ifs at h with permits
    obtain ⟨⟨t, emitted⟩, performs, h⟩ := Option.bind_eq_some_iff.mp h
    exact .head (.call permits performs) (ih h)

/-- The call between `w` and `w'` makes `b` a ready parent of `s`, which it never was before. -/
def FirstReady (rootBlock : Block) (w w' : History) (s : ℕ) (b : Block) : Prop :=
  w'.tracker.Ready s b ∧ ∀ v, Reaches (start rootBlock) v → Reaches v w → ¬v.tracker.Ready s b

/-! ## One call -/

/-- What every call keeps, with the events it emits. -/
structure StepSpec (w w' : History) (emitted : List VotorEvent) : Prop where
  root_le : w.tracker.root ≤ w'.tracker.root
  ready_of_new : ∀ s b, w'.tracker.Ready s b → w.tracker.Ready s b ∨ w.tracker.root < s
  ready_kept : ∀ s b, w.tracker.Ready s b → w'.tracker.Ready s b ∨ s < w'.tracker.root
  events_eq : w'.events = w.events ++ emitted
  nodup : emitted.Nodup
  mem_emitted : ∀ e, e ∈ emitted ↔ ∃ s b, e = .parentReady s b ∧
    s % numConsecutiveLeaderSlots = 0 ∧ ¬w.tracker.Ready s b ∧ w'.tracker.Ready s b
  raises : Raises w.tracker w'.tracker

theorem StepSpec.of_callSpec {c : Call} {t : ParentReadyTracker} {emitted : List VotorEvent}
    {new : ℕ → Block → Prop} (h : CallSpec w.tracker [] new (t, emitted)) :
    StepSpec w ⟨w.calls ++ [c], t, w.events ++ emitted⟩ emitted := by
  obtain ⟨out, heq, hem⟩ := h.exists_emits
  rw [nil_append] at heq
  subst heq
  refine ⟨h.root.ge, fun s b hr => ?_, fun s b hr => .inl (hem.ready hr), rfl, hem.nodup,
    hem.mem_iff, h.raises⟩
  rcases (h.ready_iff s b).mp hr with hr | hnew
  · exact .inl hr
  · exact .inr (h.above s b hnew)

theorem Step.spec (h : Step w w') : ∃ emitted, StepSpec w w' emitted := by
  obtain @⟨c, t, emitted, permits, performs⟩ := h
  refine ⟨emitted, ?_⟩
  cases c with
  | addNewNotarFallbackOrStronger block =>
    exact .of_callSpec (addNewNotarFallbackOrStronger_spec performs).1
  | addNewSkip slot => exact .of_callSpec (addNewSkip_spec performs).1
  | setRoot root =>
    rw [perform, Option.some_inj, Prod.mk.injEq] at performs
    obtain ⟨rfl, rfl⟩ := performs
    have hready := ready_setRoot w.tracker root
    refine ⟨permits, fun s b hr => .inl ((hready s b).mp hr).2, fun s b hr => ?_, rfl,
      nodup_nil, fun e => ?_, le_rfl, fun s b hyes hno => ?_, .inl rfl⟩
    · rcases Nat.lt_or_ge s root with hlt | hge
      · exact .inr hlt
      · exact .inl ((hready s b).mpr ⟨hge, hr⟩)
    · constructor
      · intro he
        cases he
      · rintro ⟨s, b, -, -, hno, hyes⟩
        exact absurd ((hready s b).mp hyes).2 hno
    · exact absurd ((hready s b).mp hyes).2 hno

/-! ## Events along a run -/

theorem Reaches.root_le (h : Reaches w w') : w.tracker.root ≤ w'.tracker.root := by
  induction h with
  | refl => exact le_rfl
  | tail _ hstep ih =>
    obtain ⟨emitted, hspec⟩ := hstep.spec
    exact ih.trans hspec.root_le

/-- A ready pair stays ready until the root passes its slot. -/
theorem Reaches.ready (h : Reaches w w') {s : ℕ} (hr : w.tracker.Ready s b) :
    w'.tracker.Ready s b ∨ s < w'.tracker.root := by
  induction h with
  | refl => exact .inl hr
  | tail _ hstep ih =>
    obtain ⟨emitted, hspec⟩ := hstep.spec
    rcases ih with hready | hlt
    · exact hspec.ready_kept s b hready
    · exact .inr (hlt.trans_le hspec.root_le)

variable {rootBlock : Block}

/-- A pair that becomes ready has never been ready: below the root nothing becomes ready. -/
theorem Step.firstReady_iff (hw : Reaches (start rootBlock) w) (h : Step w w') (s : ℕ) (b : Block) :
    FirstReady rootBlock w w' s b ↔ ¬w.tracker.Ready s b ∧ w'.tracker.Ready s b := by
  obtain ⟨emitted, hspec⟩ := h.spec
  constructor
  · rintro ⟨hyes, hnever⟩
    exact ⟨hnever w hw .refl, hyes⟩
  · rintro ⟨hno, hyes⟩
    refine ⟨hyes, fun v _ hvw hv => ?_⟩
    rcases hvw.ready hv with hready | hlt
    · exact hno hready
    · rcases hspec.ready_of_new s b hyes with hready | habove
      · exact hno hready
      · omega

/-- The events so far are different ones, for pairs that are ready or below the root. -/
structure Logged (w : History) : Prop where
  nodup : w.events.Nodup
  ready : ∀ e ∈ w.events, ∃ s b, e = .parentReady s b ∧ (w.tracker.Ready s b ∨ s < w.tracker.root)

open VotorEvent

theorem Step.logged (h : Step w w') (hw : w.Logged) : w'.Logged := by
  obtain ⟨emitted, hspec⟩ := h.spec
  constructor
  · rw [hspec.events_eq, nodup_append']
    refine ⟨hw.nodup, hspec.nodup, fun e hold hnew => ?_⟩
    obtain ⟨s, b, rfl, hlogged⟩ := hw.ready e hold
    obtain ⟨s', b', heq, -, hno, hyes⟩ := (hspec.mem_emitted _).mp hnew
    rw [parentReady.injEq] at heq
    obtain ⟨rfl, rfl⟩ := heq
    rcases hlogged with hready | hlt
    · exact hno hready
    · rcases hspec.ready_of_new s b hyes with hready | habove
      · exact hno hready
      · omega
  · intro e he
    rw [hspec.events_eq, mem_append] at he
    rcases he with he | he
    · obtain ⟨s, b, rfl, hready | hlt⟩ := hw.ready e he
      · exact ⟨s, b, rfl, hspec.ready_kept s b hready⟩
      · exact ⟨s, b, rfl, .inr (hlt.trans_le hspec.root_le)⟩
    · obtain ⟨s, b, rfl, -, -, hyes⟩ := (hspec.mem_emitted _).mp he
      exact ⟨s, b, rfl, .inl hyes⟩

variable (h : Reaches (start rootBlock) w)
include h in
theorem Reaches.logged : w.Logged := by
  induction h with
  | refl => exact ⟨nodup_nil, nofun⟩
  | tail _ hstep ih => exact hstep.logged ih

/-- **A call reports the pairs of first leader slots that it makes ready.** -/
theorem Step.reports_iff (hw : Reaches (start rootBlock) w) (h : Step w w') (s : ℕ) (b : Block) :
    .parentReady s b ∈ w'.events ∧ .parentReady s b ∉ w.events ↔
      s % numConsecutiveLeaderSlots = 0 ∧ FirstReady rootBlock w w' s b := by
  rw [h.firstReady_iff hw]
  have hlogged := h.logged hw.logged
  obtain ⟨emitted, hspec⟩ := h.spec
  have hnodup := hlogged.nodup
  rw [hspec.events_eq, nodup_append'] at hnodup
  rw [hspec.events_eq, mem_append]
  constructor
  · rintro ⟨hold | hnew, hno⟩
    · exact absurd hold hno
    · obtain ⟨s', b', heq, hs, hbefore, hafter⟩ := (hspec.mem_emitted _).mp hnew
      rw [parentReady.injEq] at heq
      obtain ⟨rfl, rfl⟩ := heq
      exact ⟨hs, hbefore, hafter⟩
  · rintro ⟨hs, hbefore, hafter⟩
    have hnew := (hspec.mem_emitted _).mpr ⟨s, b, rfl, hs, hbefore, hafter⟩
    exact ⟨.inr hnew, fun hold => hnodup.2.2 hold hnew⟩

theorem Reaches.events_subset (h : Reaches w w') : w.events ⊆ w'.events := by
  induction h with
  | refl => exact List.Subset.refl _
  | tail _ hstep ih =>
    obtain ⟨emitted, hspec⟩ := hstep.spec
    rw [hspec.events_eq]
    exact List.Subset.trans ih (subset_append_left _ _)

include h in
/-- The events so far are the first leader slots' pairs that became ready so far. -/
theorem Reaches.mem_events_iff (s : ℕ) (b : Block) :
    .parentReady s b ∈ w.events ↔ s % numConsecutiveLeaderSlots = 0 ∧
      ∃ v v', Reaches (start rootBlock) v ∧ Step v v' ∧ Reaches v' w ∧
        FirstReady rootBlock v v' s b := by
  constructor
  · induction h with
    | refl =>
      intro he
      cases he
    | @tail w w' hw hstep ih =>
      intro he
      by_cases hbefore : .parentReady s b ∈ w.events
      · obtain ⟨hs, v, v', hv, hvv', hv'w, hfirst⟩ := ih hbefore
        exact ⟨hs, v, v', hv, hvv', hv'w.tail hstep, hfirst⟩
      · obtain ⟨hs, hfirst⟩ := (hstep.reports_iff hw s b).mp ⟨he, hbefore⟩
        exact ⟨hs, w, w', hw, hstep, .refl, hfirst⟩
  · rintro ⟨hs, v, v', hv, hvv', hv'w, hfirst⟩
    exact hv'w.events_subset ((hvv'.reports_iff hv s b).mpr ⟨hs, hfirst⟩).1

/-! ## The highest slot along a run -/

theorem ready_new_iff (rootBlock : Block) (s : ℕ) (b : Block) :
    (new rootBlock).Ready s b ↔ s = saturatingSucc rootBlock.1 ∧ b = rootBlock := by
  unfold Ready status new
  dsimp only
  by_cases hs : s = saturatingSucc rootBlock.1
  · subst hs
    simp
  · rw [update_of_ne hs]
    by_cases hroot : s = rootBlock.1
    · subst hroot
      simp [hs]
    · rw [update_of_ne hroot]
      simp [hs]

include h in
theorem Reaches.le_highest : ∀ s b, w.tracker.Ready s b → s ≤ w.tracker.highestWithParentReady := by
  induction h with
  | refl =>
    intro s b hr
    exact ((ready_new_iff rootBlock s b).mp hr).1.le
  | @tail w w' _ hstep ih =>
    intro s b hr
    obtain ⟨emitted, hspec⟩ := hstep.spec
    by_cases hbefore : w.tracker.Ready s b
    · exact (ih s b hbefore).trans hspec.raises.le
    · exact hspec.raises.covers s b hr hbefore

theorem Reaches.highest_mono (h : Reaches w w') :
    w.tracker.highestWithParentReady ≤ w'.tracker.highestWithParentReady := by
  induction h with
  | refl => exact le_rfl
  | tail _ hstep ih =>
    obtain ⟨emitted, hspec⟩ := hstep.spec
    exact ih.trans hspec.raises.le

include h in
theorem Reaches.highest_attained :
    ∃ v, Reaches (start rootBlock) v ∧ Reaches v w ∧
      ∃ b, v.tracker.Ready w.tracker.highestWithParentReady b := by
  induction h with
  | refl => exact ⟨_, .refl, .refl, rootBlock, (ready_new_iff _ _ _).mpr ⟨rfl, rfl⟩⟩
  | @tail w w' hw hstep ih =>
    obtain ⟨emitted, hspec⟩ := hstep.spec
    rcases hspec.raises.attained with heq | hready
    · obtain ⟨v, hv, hvw, hb⟩ := ih
      exact ⟨v, hv, hvw.tail hstep, heq ▸ hb⟩
    · exact ⟨w', hw.tail hstep, .refl, hready⟩

/-! ## Ready parents in terms of the calls -/

/-- `b` was certified: by a call, or as the root block of the start. -/
def Added (rootBlock : Block) (w : History) (b : Block) : Prop :=
  b = rootBlock ∨ .addNewNotarFallbackOrStronger b ∈ w.calls

/-- `s` was skipped by a call. -/
def Skipped (w : History) (s : ℕ) : Prop := .addNewSkip s ∈ w.calls

/-- The root has not passed `b`: `b` is above it, or is the root block of the start and the root has
not moved. -/
def Tracked (rootBlock : Block) (w : History) (b : Block) : Prop :=
  w.tracker.root < b.1 ∨ b = rootBlock ∧ w.tracker.root = rootBlock.1

/-- The statuses of the slots above the root, in terms of the calls. The first two facts hold for
all slots, which the pruned chains below the root need. -/
structure Characterised (rootBlock : Block) (w : History) : Prop where
  root_le : rootBlock.1 ≤ w.tracker.root
  ready_lt : ∀ s b, w.tracker.Ready s b → b.1 < s
  slot_eq : ∀ s, ∀ b ∈ (w.tracker.status s).notarFallbacks, b.1 = s
  skip_iff : ∀ s, w.tracker.root < s → ((w.tracker.status s).skip = true ↔ w.Skipped s)
  added_iff : ∀ b, Tracked rootBlock w b →
    (b ∈ (w.tracker.status b.1).notarFallbacks ↔ Added rootBlock w b)
  ready_iff : ∀ s b, w.tracker.root < s → Tracked rootBlock w b →
    (w.tracker.Ready s b ↔ b.1 < s ∧ Added rootBlock w b ∧ ∀ r, b.1 < r → r < s → w.Skipped r)

theorem Tracked.root_le (h : Tracked rootBlock w b) : w.tracker.root ≤ b.1 := by
  rcases h with hlt | ⟨rfl, heq⟩
  · exact hlt.le
  · exact heq.le

theorem characterised_start (h : rootBlock.1 < u64Max) :
    Characterised rootBlock (start rootBlock) := by
  have hsucc := saturatingSucc_of_lt h
  have hready : ∀ s b, (start rootBlock).tracker.Ready s b ↔
      s = rootBlock.1 + 1 ∧ b = rootBlock := by
    intro s b
    rw [← hsucc]
    exact ready_new_iff rootBlock s b
  have hroot : (start rootBlock).tracker.root = rootBlock.1 := rfl
  have hnotar : ∀ s b, b ∈ ((start rootBlock).tracker.status s).notarFallbacks ↔
      s = rootBlock.1 ∧ b = rootBlock := by
    intro s b
    unfold start status new
    dsimp only
    rw [hsucc]
    by_cases hs : s = rootBlock.1 + 1
    · subst hs
      simp
    · rw [update_of_ne hs]
      by_cases heq : s = rootBlock.1
      · subst heq
        simp
      · rw [update_of_ne heq]
        simp [heq]
  have hskip : ∀ s, ((start rootBlock).tracker.status s).skip = false := by
    intro s
    unfold start status new
    dsimp only
    by_cases hs : s = saturatingSucc rootBlock.1
    · rw [hs, update_self]
      rfl
    · rw [update_of_ne hs]
      by_cases heq : s = rootBlock.1
      · rw [heq, update_self]
        rfl
      · rw [update_of_ne heq]
        rfl
  have hnil : ∀ s, ¬(start rootBlock).Skipped s := fun s => not_mem_nil
  have hadded : ∀ b, Added rootBlock (start rootBlock) b ↔ b = rootBlock :=
    fun b => or_iff_left not_mem_nil
  refine ⟨hroot.ge, ?_, ?_, ?_, ?_, ?_⟩
  · intro s b hr
    obtain ⟨rfl, rfl⟩ := (hready s b).mp hr
    exact Nat.lt_succ_self _
  · intro s b hb
    obtain ⟨rfl, rfl⟩ := (hnotar s b).mp hb
    rfl
  · intro s _
    rw [hskip]
    exact ⟨fun h => absurd h Bool.false_ne_true, fun h => absurd h (hnil s)⟩
  · intro b _
    rw [hnotar, hadded]
    exact ⟨fun h => h.2, fun h => ⟨by rw [h], h⟩⟩
  · intro s b hs _
    rw [hready, hadded]
    constructor
    · rintro ⟨rfl, rfl⟩
      exact ⟨Nat.lt_succ_self _, rfl, fun r h1 h2 => by omega⟩
    · rintro ⟨hlt, rfl, hall⟩
      refine ⟨?_, rfl⟩
      by_contra hne
      exact hnil _ (hall (b.1 + 1) (by omega) (by omega))

section Calls
variable {rootBlock block : Block} {w : History} {c : Call} {t : ParentReadyTracker}
  {emitted : List VotorEvent}

theorem added_call (b : Block) :
    Added rootBlock ⟨w.calls ++ [c], t, emitted⟩ b ↔
      Added rootBlock w b ∨ c = .addNewNotarFallbackOrStronger b := by
  unfold Added
  simp [or_assoc, eq_comm]

theorem skipped_call (s : ℕ) :
    Skipped ⟨w.calls ++ [c], t, emitted⟩ s ↔ w.Skipped s ∨ c = .addNewSkip s := by
  unfold Skipped
  simp [eq_comm]

/-- A certificate at or below the root says nothing new about a tracked block. -/
theorem Tracked.added_iff (htracked : Tracked rootBlock w b) :
    Added rootBlock w b ∨
        Call.addNewNotarFallbackOrStronger block = .addNewNotarFallbackOrStronger b ↔
      Added rootBlock w b ∨ w.tracker.root < block.1 ∧ b = block := by
  rw [Call.addNewNotarFallbackOrStronger.injEq]
  constructor
  · rintro (hadded | rfl)
    · exact .inl hadded
    · rcases htracked with hlt | ⟨rfl, -⟩
      · exact .inr ⟨hlt, rfl⟩
      · exact .inl (.inl rfl)
  · rintro (hadded | ⟨-, rfl⟩)
    · exact .inl hadded
    · exact .inr rfl

section
variable (hw : Characterised rootBlock w) {slot : ℕ}
include hw
theorem Characterised.addNewNotarFallbackOrStronger
    (h : w.tracker.addNewNotarFallbackOrStronger block [] = some (t, emitted))
    (events : List VotorEvent) :
    Characterised rootBlock ⟨w.calls ++ [.addNewNotarFallbackOrStronger block], t, events⟩ := by
  obtain ⟨hspec, hskip, hnotar⟩ := addNewNotarFallbackOrStronger_spec h
  have hroot : t.root = w.tracker.root := hspec.root
  have hready := hspec.ready_iff
  have hskipped : ∀ s, Skipped ⟨w.calls ++ [.addNewNotarFallbackOrStronger block], t, events⟩ s ↔
      w.Skipped s := by
    intro s
    rw [skipped_call]
    simp
  have htracked : ∀ b, Tracked rootBlock
      ⟨w.calls ++ [.addNewNotarFallbackOrStronger block], t, events⟩ b ↔ Tracked rootBlock w b := by
    intro b
    unfold Tracked
    rw [hroot]
  refine ⟨hroot ▸ hw.root_le, ?_, ?_, ?_, ?_, ?_⟩
  · intro s b hr
    rcases (hready s b).mp hr with hr | ⟨-, -, rfl, hle, -⟩
    · exact hw.ready_lt s b hr
    · omega
  · intro s b hb
    rcases (hnotar s b).mp hb with hb | ⟨-, rfl, rfl⟩
    · exact hw.slot_eq s b hb
    · rfl
  · intro s hs
    dsimp only at hs ⊢
    rw [hskip, hskipped]
    exact hw.skip_iff s (hroot ▸ hs)
  · intro b hb
    rw [htracked] at hb
    rw [added_call, hb.added_iff, ← hw.added_iff b hb]
    rw [hnotar]
    exact or_congr_right ⟨fun h => ⟨h.1, h.2.2⟩, fun h => ⟨h.1, by rw [h.2], h.2⟩⟩
  · intro s b hs hb
    rw [htracked] at hb
    rw [added_call, hb.added_iff]
    simp only [hskipped]
    dsimp only at hs ⊢
    rw [hready, hw.ready_iff s b (hroot ▸ hs) hb, ← hw.added_iff b hb]
    constructor
    · rintro (⟨hlt, hadded, hall⟩ | ⟨habove, -, rfl, hle, hlinked⟩)
      · exact ⟨hlt, .inl hadded, hall⟩
      · refine ⟨by omega, .inr ⟨habove, rfl⟩, fun r hbr hrs => ?_⟩
        exact (hw.skip_iff r (by omega)).mp (hlinked r (by omega) hrs)
    · rintro ⟨hlt, hadded, hall⟩
      by_cases hbefore : b ∈ (w.tracker.status b.1).notarFallbacks
      · exact .inl ⟨hlt, hbefore, hall⟩
      · rcases hadded with hadded | ⟨habove, rfl⟩
        · exact absurd hadded hbefore
        · refine .inr ⟨habove, hbefore, rfl, by omega, fun r hbr hrs => ?_⟩
          exact (hw.skip_iff r (by omega)).mpr (hall r (by omega) hrs)

/-- The slot before a skipped slot passes a tracked block on exactly when the block is certified and
all slots in between are skipped. -/
theorem Characterised.mem_potentialParents_iff (hslot : w.tracker.root < slot)
    (hb : Tracked rootBlock w b) :
    b ∈ potentialParents (w.tracker.status (slot - 1)) ↔
      b.1 < slot ∧ Added rootBlock w b ∧ ∀ r, b.1 < r → r < slot → w.Skipped r := by
  have hle := hb.root_le
  unfold potentialParents
  rw [mem_append]
  constructor
  · rintro (hmem | hmem)
    · have heq := hw.slot_eq _ b hmem
      rw [← heq] at hmem
      exact ⟨by omega, (hw.added_iff b hb).mp hmem, fun r h1 h2 => by omega⟩
    · split_ifs at hmem with hskip
      · -- a ready parent of the previous slot lies below it, so that slot is above the root
        have hlt : b.1 < slot - 1 := hw.ready_lt _ b hmem
        obtain ⟨-, hadded, hall⟩ := (hw.ready_iff _ b (by omega) hb).mp hmem
        refine ⟨by omega, hadded, fun r hbr hrs => ?_⟩
        by_cases hr : r = slot - 1
        · rw [hr]
          exact (hw.skip_iff _ (by omega)).mp hskip
        · exact hall r hbr (by omega)
      · cases hmem
  · rintro ⟨hlt, hadded, hall⟩
    by_cases heq : b.1 = slot - 1
    · rw [← heq]
      exact .inl ((hw.added_iff b hb).mpr hadded)
    · have hskip := (hw.skip_iff (slot - 1) (by omega)).mpr (hall _ (by omega) (by omega))
      rw [if_pos hskip]
      exact .inr ((hw.ready_iff _ b (by omega) hb).mpr
        ⟨by omega, hadded, fun r hbr hrs => hall r hbr (by omega)⟩)

theorem Characterised.addNewSkip (h : w.tracker.addNewSkip slot [] = some (t, emitted))
    (events : List VotorEvent) :
    Characterised rootBlock ⟨w.calls ++ [.addNewSkip slot], t, events⟩ := by
  obtain ⟨hspec, hnotar, hskip⟩ := addNewSkip_spec h
  have hroot : t.root = w.tracker.root := hspec.root
  have hready := hspec.ready_iff
  have hadded : ∀ b, Added rootBlock ⟨w.calls ++ [.addNewSkip slot], t, events⟩ b ↔
      Added rootBlock w b := by
    intro b
    rw [added_call]
    simp
  have hskipped : ∀ s, w.tracker.root < s →
      (Skipped ⟨w.calls ++ [.addNewSkip slot], t, events⟩ s ↔
        w.Skipped s ∨ w.tracker.root < slot ∧ s = slot) := by
    intro s hs
    rw [skipped_call, Call.addNewSkip.injEq]
    refine or_congr_right ⟨fun h => ⟨h ▸ hs, h.symm⟩, fun h => h.2.symm⟩
  have htracked : ∀ b, Tracked rootBlock ⟨w.calls ++ [.addNewSkip slot], t, events⟩ b ↔
      Tracked rootBlock w b := by
    intro b
    unfold Tracked
    rw [hroot]
  refine ⟨hroot ▸ hw.root_le, ?_, ?_, ?_, ?_, ?_⟩
  · intro s b hr
    rcases (hready s b).mp hr with hr | ⟨habove, hmem, hle, -⟩
    · exact hw.ready_lt s b hr
    · unfold potentialParents at hmem
      rw [mem_append] at hmem
      rcases hmem with hmem | hmem
      · have := hw.slot_eq _ b hmem
        omega
      · split_ifs at hmem
        · have : b.1 < slot - 1 := hw.ready_lt _ b hmem
          omega
        · cases hmem
  · intro s b hb
    rw [hnotar] at hb
    exact hw.slot_eq s b hb
  · intro s hs
    dsimp only at hs ⊢
    rw [hskip, hskipped s (hroot ▸ hs), hw.skip_iff s (hroot ▸ hs)]
  · intro b hb
    rw [htracked] at hb
    rw [hnotar, hadded, hw.added_iff b hb]
  · intro s b hs hb
    rw [htracked] at hb
    have hle := hb.root_le
    dsimp only at hs ⊢
    rw [hready, hadded, hw.ready_iff s b (hroot ▸ hs) hb]
    constructor
    · rintro (⟨hlt, hadd, hall⟩ | ⟨habove, hmem, hsle, hlinked⟩)
      · exact ⟨hlt, hadd, fun r hbr hrs => (hskipped r (by omega)).mpr (.inl (hall r hbr hrs))⟩
      · obtain ⟨hlt, hadd, hall⟩ := (hw.mem_potentialParents_iff habove hb).mp hmem
        refine ⟨by omega, hadd, fun r hbr hrs => (hskipped r (by omega)).mpr ?_⟩
        rcases Nat.lt_trichotomy r slot with hr | hr | hr
        · exact .inl (hall r hbr hr)
        · exact .inr ⟨habove, hr⟩
        · exact .inl ((hw.skip_iff r (by omega)).mp (hlinked r hr hrs))
    · rintro ⟨hlt, hadd, hall⟩
      by_cases hmid : b.1 < slot ∧ slot < s
      · -- the chain runs through the new slot
        have hold : ∀ r, b.1 < r → r < s → r ≠ slot → w.Skipped r := by
          intro r hbr hrs hne
          rcases (hskipped r (by omega)).mp (hall r hbr hrs) with hr | ⟨-, hr⟩
          · exact hr
          · exact absurd hr hne
        refine .inr ⟨by omega, (hw.mem_potentialParents_iff (by omega) hb).mpr
          ⟨hmid.1, hadd, fun r hbr hrs => hold r hbr (by omega) (by omega)⟩, by omega, ?_⟩
        intro r hr hrs
        exact (hw.skip_iff r (by omega)).mpr (hold r (by omega) hrs (by omega))
      · refine .inl ⟨hlt, hadd, fun r hbr hrs => ?_⟩
        rcases (hskipped r (by omega)).mp (hall r hbr hrs) with hr | ⟨-, rfl⟩
        · exact hr
        · exact absurd ⟨hbr, hrs⟩ hmid

theorem Characterised.setRoot {root : ℕ} (hroot : w.tracker.root ≤ root) (events : List VotorEvent)
    :
    Characterised rootBlock ⟨w.calls ++ [.setRoot root], w.tracker.setRoot root, events⟩ := by
  have hle := hw.root_le
  have hadded : ∀ b, Added rootBlock
      ⟨w.calls ++ [.setRoot root], w.tracker.setRoot root, events⟩ b ↔ Added rootBlock w b := by
    intro b
    rw [added_call]
    simp
  have hskipped : ∀ s, Skipped ⟨w.calls ++ [.setRoot root], w.tracker.setRoot root, events⟩ s ↔
      w.Skipped s := by
    intro s
    rw [skipped_call]
    simp
  have htracked : ∀ b, Tracked rootBlock
      ⟨w.calls ++ [.setRoot root], w.tracker.setRoot root, events⟩ b →
        Tracked rootBlock w b ∧ root ≤ b.1 := by
    rintro b (hlt | ⟨rfl, heq⟩)
    · have hlt' : root < b.1 := hlt
      exact ⟨.inl (by omega), by omega⟩
    · have heq' : root = b.1 := heq
      exact ⟨.inr ⟨rfl, by omega⟩, heq'.le⟩
  refine ⟨hle.trans hroot, ?_, ?_, ?_, ?_, ?_⟩
  · intro s b hr
    exact hw.ready_lt s b ((ready_setRoot w.tracker root s b).mp hr).2
  · intro s b hb
    by_cases hs : root ≤ s
    · rw [status_setRoot w.tracker hs] at hb
      exact hw.slot_eq s b hb
    · unfold status ParentReadyTracker.setRoot at hb
      simp [hs] at hb
  · intro s hs
    have hs' : root < s := hs
    rw [status_setRoot w.tracker hs'.le, hskipped]
    exact hw.skip_iff s (by omega)
  · intro b hb
    obtain ⟨hb, hbroot⟩ := htracked b hb
    rw [status_setRoot w.tracker hbroot, hadded]
    exact hw.added_iff b hb
  · intro s b hs hb
    have hs' : root < s := hs
    obtain ⟨hb, -⟩ := htracked b hb
    simp only [hskipped, hadded, ready_setRoot, hs'.le, true_and]
    exact hw.ready_iff s b (by omega) hb

end
end Calls

theorem Step.characterised (h : Step w w') (hw : Characterised rootBlock w) :
    Characterised rootBlock w' := by
  obtain @⟨c, t, emitted, permits, performs⟩ := h
  cases c with
  | addNewNotarFallbackOrStronger block => exact hw.addNewNotarFallbackOrStronger performs _
  | addNewSkip slot => exact hw.addNewSkip performs _
  | setRoot root =>
    rw [perform, Option.some_inj, Prod.mk.injEq] at performs
    obtain ⟨rfl, rfl⟩ := performs
    exact hw.setRoot permits _

theorem Reaches.characterised (hroot : rootBlock.1 < u64Max) (h : Reaches (start rootBlock) w) :
    Characterised rootBlock w := by
  induction h with
  | refl => exact characterised_start hroot
  | tail _ hstep ih => exact hstep.characterised ih

/-! ## The result -/

/-- **Ready parents, their events and the highest slot, at every point of every run.**  Slots are
`u64`, hence the bound on `s`. -/
theorem parentsReady_of_reaches {rootBlock : Block} {w : History}
    (h : Reaches (start rootBlock) w) :
    (∀ s b, w.tracker.root < s → s ≤ u64Max → Tracked rootBlock w b →
      (b ∈ (w.tracker.status s).parentsReady ↔
        b.1 < s ∧ Added rootBlock w b ∧ ∀ r, b.1 < r → r < s → w.Skipped r)) ∧
    (w.events.Nodup ∧
      (∀ s b, .parentReady s b ∈ w.events ↔ s % numConsecutiveLeaderSlots = 0 ∧
        ∃ v v', Reaches (start rootBlock) v ∧ Step v v' ∧ Reaches v' w ∧
          FirstReady rootBlock v v' s b) ∧
      ∀ v v', Reaches (start rootBlock) v → Step v v' → Reaches v' w →
        ∀ s b, .parentReady s b ∈ v'.events ∧ .parentReady s b ∉ v.events ↔
          s % numConsecutiveLeaderSlots = 0 ∧ FirstReady rootBlock v v' s b) ∧
    IsGreatest {s | ∃ v, Reaches (start rootBlock) v ∧ Reaches v w ∧
        (v.tracker.status s).parentsReady ≠ []} w.tracker.highestParentReady := by
  refine ⟨fun s b hs hmax hb => ?_, ⟨h.logged.nodup, h.mem_events_iff,
    fun v v' hv hstep _ s b => hstep.reports_iff hv s b⟩, ?_⟩
  · -- a start at the end of `u64` leaves no slot above the root
    rcases Nat.lt_or_ge rootBlock.1 u64Max with hlt | hge
    · exact (h.characterised hlt).ready_iff s b hs hb
    · have hroot : rootBlock.1 ≤ w.tracker.root := h.root_le
      omega
  · obtain ⟨v, hv, hvw, b, hb⟩ := h.highest_attained
    refine ⟨⟨v, hv, hvw, ne_nil_of_mem hb⟩, ?_⟩
    rintro s ⟨v, hv, hvw, hne⟩
    obtain ⟨b, hb⟩ := exists_mem_of_ne_nil _ hne
    exact (hv.le_highest s b hb).trans hvw.highest_mono

/-- A skip arrives before the block that it leads back to; then the root moves on. -/
def skipThenBlock : History :=
  ((start (0, 7)).run [.addNewSkip 3, .addNewNotarFallbackOrStronger (2, 5), .setRoot 1]).get
    (by decide)

theorem parentsReady_skipThenBlock :
    (2, 5) ∈ (skipThenBlock.tracker.status 4).parentsReady ∧
      parentReady 4 (2, 5) ∈ skipThenBlock.events ∧
      skipThenBlock.tracker.highestParentReady = 4 ∧ skipThenBlock.events.Nodup := by
  have h : Reaches (start (0, 7)) skipThenBlock := reaches_of_run (Option.some_get _).symm
  obtain ⟨hready, ⟨hnodup, -, -⟩, -⟩ := parentsReady_of_reaches h
  refine ⟨(hready 4 (2, 5) (by decide) (by decide) (.inl (by decide))).mpr
    ⟨by decide, .inr (by decide), fun r h1 h2 => ?_⟩, by decide, by decide, hnodup⟩
  have hr : r = 3 := by
    have h1' : 2 < r := h1
    omega
  unfold Skipped
  rw [hr]
  decide

/-- A root at the end of a leader window: the root block is a ready parent of the first leader slot
after it from the start, and no event says so. -/
theorem start_ready_without_event :
    4 % numConsecutiveLeaderSlots = 0 ∧ (3, 0) ∈ ((start (3, 0)).tracker.status 4).parentsReady ∧
      (start (3, 0)).events = [] ∧
      ((start (3, 0)).run [.addNewNotarFallbackOrStronger (3, 0), .addNewSkip 4]).map
        (fun w => (decide ((3, 0) ∈ (w.tracker.status 4).parentsReady), w.events)) =
          some (true, []) := by
  decide

end History
end FlowraValidator.Votor.ParentReadyTracker
