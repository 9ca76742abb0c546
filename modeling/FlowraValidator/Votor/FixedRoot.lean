import FlowraValidator.Votor.ParentReady

/-!
# Trackers whose root stays

Between two moves of the root, what a parent-ready tracker holds and has reported depends on the
certificates it was given and not on their order, and whether it accepts another certificate can be
said in terms of those given before: a slot above the root has room for three certified blocks, and
the end of `u64` is out of reach.

* `exists_perform_block`, `exists_perform_skip`: a certificate that a tracker can take.
* `FixedRoot`: what holds of a run without a new root, kept by `FixedRoot.perform`.
* `parentReady_congr`: the events of two such runs with the same certificates are the same.
* `FixedRoot.exists_perform`: which certificates such a run can take next.
* `blockProductionParent_iff`: the parent for block production.
-/

namespace FlowraValidator.Votor.ParentReadyTracker
open Function List Option

/-! ## When a call succeeds -/

variable {block : Block} {r : ℕ}

theorem exists_connect :
    ∀ {rounds a : ℕ} {t : ParentReadyTracker} {events : List VotorEvent}, a ≤ r →
      r < a + rounds → (t.status r).skip = false → ∃ result,
        connect block rounds a t events = some result := by
  intro rounds
  induction rounds with
  | zero =>
    intro a t events h1 h2 _
    omega
  | succ rounds ih =>
    intro a t events h1 h2 hr
    rw [connect]
    cases hskip : (t.status a).skip with
    | false => exact ⟨_, if_neg Bool.false_ne_true⟩
    | true =>
      have hne : a ≠ r := by
        rintro rfl
        rw [hskip] at hr
        exact absurd hr (by decide)
      rw [if_pos rfl]
      refine ih (by omega) (by omega) ?_
      have hkeeps := (keeps_pushParent t a block events).skip r
      split_ifs
      · rw [hkeeps, hr]
      · rw [status_raiseHighest, hkeeps, hr]

variable {t : ParentReadyTracker}

theorem exists_futureSlots (hr : (t.status r).skip = false) :
    ∀ {rounds a : ℕ}, a ≤ r → r < a + rounds → ∃ slots, t.futureSlots rounds a = some slots := by
  intro rounds
  induction rounds with
  | zero =>
    intro a h1 h2
    omega
  | succ rounds ih =>
    intro a h1 h2
    rw [futureSlots]
    cases hskip : (t.status a).skip with
    | false => exact ⟨_, if_neg Bool.false_ne_true⟩
    | true =>
      have hne : a ≠ r := by
        rintro rfl
        rw [hskip] at hr
        exact absurd hr (by decide)
      obtain ⟨slots, hslots⟩ := ih (a := a + 1) (by omega) (by omega)
      exact ⟨a :: slots, by rw [if_pos rfl, hslots]; rfl⟩

/-- A block is taken when its slot has room and a later slot is not skipped. -/
theorem exists_perform_block
    (hroom : block ∈ (t.status block.1).notarFallbacks ∨ (t.status block.1).notarFallbacks.length +
      1 ≤ maxEntriesPerPubkeyForNotarizeLite) (hlt : block.1 < r) (hr : r < u64Max)
    (hskip : (t.status r).skip = false) :
    ∃ result, t.perform (.addNewNotarFallbackOrStronger block) = some result := by
  unfold perform addNewNotarFallbackOrStronger
  dsimp only
  by_cases hroot : block.1 ≤ t.root
  · exact ⟨_, if_pos hroot⟩
  rw [if_neg hroot]
  by_cases hmem : block ∈ (t.status block.1).notarFallbacks
  · exact ⟨_, if_pos hmem⟩
  rw [if_neg hmem, if_pos (hroom.resolve_left hmem), saturatingSucc_of_lt (by omega)]
  refine exists_connect hlt (by omega) ?_
  rw [status_setStatus, if_neg (by omega), hskip]

theorem exists_perform_skip {slot : ℕ} (hlt : slot < r) (hr : r < u64Max)
    (hskip : (t.status r).skip = false) :
    ∃ result, t.perform (.addNewSkip slot) = some result := by
  unfold perform addNewSkip
  dsimp only
  by_cases hroot : slot ≤ t.root
  · exact ⟨_, if_pos hroot⟩
  rw [if_neg hroot, saturatingSucc_of_lt (by omega)]
  have hstatus : ((t.setStatus slot { t.status slot with skip := true }).status r).skip =
      false := by
    rw [status_setStatus, if_neg (by omega), hskip]
  obtain ⟨slots, hslots⟩ : ∃ slots,
      (t.setStatus slot { t.status slot with skip := true }).futureSlots
        (u64Max - (slot + 1)) (slot + 1) = some slots :=
    exists_futureSlots hstatus hlt (by omega)
  rw [hslots, bind_eq_bind, bind_some]
  split_ifs
  · exact ⟨_, rfl⟩
  · exact ⟨_, rfl⟩

/-- What a tracker that took a block has done with it. -/
theorem notarFallbacks_of_perform {result : ParentReadyTracker × List VotorEvent}
    (h : t.perform (.addNewNotarFallbackOrStronger block) = some result) (s : ℕ) :
    (result.1.status s).notarFallbacks = (t.status s).notarFallbacks ∨
      s = block.1 ∧ t.root < block.1 ∧ block.1 + 1 < u64Max ∧
        block ∉ (t.status s).notarFallbacks ∧
        (t.status s).notarFallbacks.length + 1 ≤ maxEntriesPerPubkeyForNotarizeLite ∧
        (result.1.status s).notarFallbacks = (t.status s).notarFallbacks ++ [block] := by
  unfold perform addNewNotarFallbackOrStronger at h
  dsimp only at h
  split_ifs at h with hroot hmem hlen
  · cases h
    exact .inl rfl
  · cases h
    left
    rw [status_setStatus]
    split_ifs with hs
    · rw [hs]
    · rfl
  · cases hrounds : u64Max - saturatingSucc block.1 with
    | zero =>
      rw [hrounds] at h
      exact absurd h (by simp [connect])
    | succ rounds =>
      have hsucc := saturatingSucc_of_rounds hrounds
      rw [hrounds, hsucc] at h
      rw [(connect_spec h).1.keeps.notarFallbacks, status_setStatus]
      split_ifs with hs
      · subst hs
        exact .inr ⟨rfl, by omega, by omega, hmem, hlen, rfl⟩
      · exact .inl rfl

theorem lt_of_perform_skip {slot : ℕ} {result : ParentReadyTracker × List VotorEvent}
    (h : t.perform (.addNewSkip slot) = some result) (hroot : t.root < slot) :
    slot + 1 < u64Max := by
  unfold perform addNewSkip at h
  dsimp only at h
  rw [if_neg (by omega)] at h
  obtain ⟨slots, hslots, -⟩ := bind_eq_some_iff.mp h
  cases hrounds : u64Max - saturatingSucc slot with
  | zero =>
    rw [hrounds] at hslots
    exact absurd hslots (by simp [futureSlots])
  | succ rounds =>
    have hsucc := saturatingSucc_of_rounds hrounds
    omega

/-! ## Runs -/

/-- The slot a call is about. -/
def Call.slot : Call → ℕ
  | .addNewNotarFallbackOrStronger block => block.1
  | .addNewSkip slot => slot
  | .setRoot root => root

/-- A certificate, and no new root. -/
def Call.IsCertificate : Call → Prop
  | .setRoot _ => False
  | _ => True

theorem perform_of_le {c : Call} (hc : c.IsCertificate) (h : c.slot ≤ t.root) :
    t.perform c = some (t, []) := by
  cases c with
  | addNewNotarFallbackOrStronger block | addNewSkip slot => exact if_pos h
  | setRoot root => exact absurd hc not_false

theorem leastParent_spec (blocks : List Block) :
    leastParent blocks = none ∧ blocks = [] ∨ ∃ b, leastParent blocks = some b ∧
      b ∈ blocks ∧ ∀ c ∈ blocks, toLex b ≤ toLex c := by
  unfold leastParent
  induction blocks using reverseRecOn with
  | nil => exact .inl ⟨rfl, rfl⟩
  | append_singleton blocks c ih =>
    right
    rw [foldl_append]
    rcases ih with ⟨hnone, rfl⟩ | ⟨b, hb, hmem, hle⟩
    · exact ⟨c, rfl, by simp⟩
    · rw [hb]
      simp only [foldl_cons, foldl_nil, forall_mem_append, forall_mem_singleton]
      split_ifs with hlt
      · have hcb : toLex c < toLex b := Prod.Lex.toLex_lt_toLex.mpr hlt
        exact ⟨c, rfl, by simp, fun d hd => hcb.le.trans (hle d hd), le_rfl⟩
      · have hbc : toLex b ≤ toLex c := not_lt.mp (mt Prod.Lex.toLex_lt_toLex.mp hlt)
        exact ⟨b, rfl, mem_append_left _ hmem, hle, hbc⟩

namespace History

/-- The block of the start, or one above its slot. -/
def FromRoot (rootBlock b : Block) : Prop := b = rootBlock ∨ rootBlock.1 < b.1

/-- What holds as long as the root does not move. -/
structure FixedRoot (rootBlock : Block) (w : History) : Prop where
  root_eq : w.tracker.root = rootBlock.1
  ready_start : ∀ s b, (start rootBlock).tracker.Ready s b → w.tracker.Ready s b
  ready_from : ∀ s b, w.tracker.Ready s b →
    (start rootBlock).tracker.Ready s b ∨ rootBlock.1 < s ∧ FromRoot rootBlock b
  notarFallbacks_from : ∀ s, ∀ b ∈ (w.tracker.status s).notarFallbacks, FromRoot rootBlock b
  notarFallbacks_lt : ∀ s, rootBlock.1 < s → (w.tracker.status s).notarFallbacks ≠ [] →
    s + 1 < u64Max
  notarFallbacks_nodup : ∀ s, (w.tracker.status s).notarFallbacks.Nodup
  notarFallbacks_length : ∀ s,
    (w.tracker.status s).notarFallbacks.length ≤ maxEntriesPerPubkeyForNotarizeLite
  call_lt : ∀ c ∈ w.calls, rootBlock.1 < c.slot → c.slot + 1 < u64Max
  unmoved : (∀ c ∈ w.calls, c.slot ≤ rootBlock.1) → w.tracker = (start rootBlock).tracker
  events_iff : ∀ s b, .parentReady s b ∈ w.events ↔ s % numConsecutiveLeaderSlots = 0 ∧
    w.tracker.Ready s b ∧ ¬(start rootBlock).tracker.Ready s b

variable {rootBlock : Block} {w : History} {c : Call} {t : ParentReadyTracker}
  {emitted : List VotorEvent}

theorem notarFallbacks_start (rootBlock : Block) (s : ℕ) :
    ((start rootBlock).tracker.status s).notarFallbacks = [] ∨
      s = rootBlock.1 ∧ ((start rootBlock).tracker.status s).notarFallbacks = [rootBlock] := by
  unfold start status new
  dsimp only
  by_cases hs : s = saturatingSucc rootBlock.1
  · rw [hs, update_self]
    exact .inl rfl
  · rw [update_of_ne hs]
    by_cases hroot : s = rootBlock.1
    · rw [hroot, update_self]
      exact .inr ⟨rfl, rfl⟩
    · rw [update_of_ne hroot]
      exact .inl rfl

theorem fixedRoot_start (rootBlock : Block) : FixedRoot rootBlock (start rootBlock) where
  root_eq := rfl
  ready_start := fun _ _ hr => hr
  ready_from := fun _ _ hr => .inl hr
  notarFallbacks_from := by
    intro s b hb
    rcases notarFallbacks_start rootBlock s with heq | ⟨-, heq⟩
    · rw [heq] at hb
      cases hb
    · rw [heq] at hb
      exact .inl (mem_singleton.mp hb)
  notarFallbacks_lt := by
    intro s hs hne
    rcases notarFallbacks_start rootBlock s with heq | ⟨rfl, -⟩
    · exact absurd heq hne
    · exact absurd hs (lt_irrefl _)
  notarFallbacks_nodup := by
    intro s
    rcases notarFallbacks_start rootBlock s with heq | ⟨-, heq⟩ <;> rw [heq] <;> simp
  notarFallbacks_length := by
    intro s
    rcases notarFallbacks_start rootBlock s with heq | ⟨-, heq⟩ <;> rw [heq] <;>
      simp [maxEntriesPerPubkeyForNotarizeLite]
  call_lt := nofun
  unmoved := fun _ => rfl
  events_iff := by
    intro s b
    constructor
    · intro he
      cases he
    · rintro ⟨-, hyes, hno⟩
      exact absurd hyes hno

/-- What a certificate that the tracker takes changes, one field after the other. -/
theorem FixedRoot.of_callSpec (hw : FixedRoot rootBlock w) {new : ℕ → Block → Prop}
    (hspec : CallSpec w.tracker [] new (t, emitted))
    (hfrom : ∀ s b, new s b → FromRoot rootBlock b)
    (hnotar : ∀ s, (t.status s).notarFallbacks = (w.tracker.status s).notarFallbacks ∨
      ∃ block : Block, s = block.1 ∧ rootBlock.1 < block.1 ∧ block.1 + 1 < u64Max ∧
        block ∉ (w.tracker.status s).notarFallbacks ∧
        (w.tracker.status s).notarFallbacks.length + 1 ≤ maxEntriesPerPubkeyForNotarizeLite ∧
        (t.status s).notarFallbacks = (w.tracker.status s).notarFallbacks ++ [block])
    (hlt : rootBlock.1 < c.slot → c.slot + 1 < u64Max)
    (hunmoved : c.slot ≤ rootBlock.1 → t = w.tracker) :
    FixedRoot rootBlock ⟨w.calls ++ [c], t, w.events ++ emitted⟩ where
  root_eq := hspec.root.trans hw.root_eq
  ready_start := fun s b hr => (hspec.ready_iff s b).mpr (.inl (hw.ready_start s b hr))
  ready_from := by
    intro s b hr
    rcases (hspec.ready_iff s b).mp hr with hr | hnew
    · exact hw.ready_from s b hr
    · exact .inr ⟨hw.root_eq ▸ hspec.above s b hnew, hfrom s b hnew⟩
  notarFallbacks_from := by
    intro s b hb
    rcases hnotar s with heq | ⟨block, -, habove, -, -, -, heq⟩
    · exact hw.notarFallbacks_from s b (heq ▸ hb)
    · dsimp only at hb
      rw [heq, mem_append, mem_singleton] at hb
      rcases hb with hb | rfl
      · exact hw.notarFallbacks_from s b hb
      · exact .inr habove
  notarFallbacks_lt := by
    intro s hs hne
    rcases hnotar s with heq | ⟨block, rfl, -, hmax, -⟩
    · exact hw.notarFallbacks_lt s hs (heq ▸ hne)
    · exact hmax
  notarFallbacks_nodup := by
    intro s
    rcases hnotar s with heq | ⟨block, -, -, -, hno, -, heq⟩
    · exact heq ▸ hw.notarFallbacks_nodup s
    · dsimp only
      rw [heq, ← concat_eq_append]
      exact (hw.notarFallbacks_nodup s).concat hno
  notarFallbacks_length := by
    intro s
    rcases hnotar s with heq | ⟨block, -, -, -, -, hlen, heq⟩
    · exact heq ▸ hw.notarFallbacks_length s
    · dsimp only
      rwa [heq, length_append]
  call_lt := forall_mem_append.mpr ⟨hw.call_lt, forall_mem_singleton.mpr hlt⟩
  unmoved := by
    intro hall
    exact (hunmoved (hall c (by simp))).trans
      (hw.unmoved fun c' hc' => hall c' (mem_append_left _ hc'))
  events_iff := by
    intro s b
    obtain ⟨out, heq, hem⟩ := hspec.exists_emits
    rw [nil_append] at heq
    dsimp only at heq hem ⊢
    rw [mem_append, hw.events_iff, heq, hem.mem_iff]
    constructor
    · rintro (⟨hs, hyes, hno⟩ | ⟨s', b', heq, hs, hno, hyes⟩)
      · exact ⟨hs, hem.ready hyes, hno⟩
      · rw [VotorEvent.parentReady.injEq] at heq
        obtain ⟨rfl, rfl⟩ := heq
        exact ⟨hs, hyes, fun hstart => hno (hw.ready_start s b hstart)⟩
    · rintro ⟨hs, hyes, hno⟩
      by_cases hbefore : w.tracker.Ready s b
      · exact .inl ⟨hs, hbefore, hno⟩
      · exact .inr ⟨s, b, rfl, hs, hbefore, hyes⟩

/-- **A certificate keeps it.** -/
theorem FixedRoot.perform (hw : FixedRoot rootBlock w) (hc : c.IsCertificate)
    (h : w.tracker.perform c = some (t, emitted)) :
    FixedRoot rootBlock ⟨w.calls ++ [c], t, w.events ++ emitted⟩ := by
  have hunmoved : c.slot ≤ rootBlock.1 → t = w.tracker := by
    intro hle
    rw [perform_of_le hc (hw.root_eq ▸ hle), some_inj, Prod.mk.injEq] at h
    exact h.1.symm
  cases c with
  | addNewNotarFallbackOrStronger block =>
    obtain ⟨hspec, -, hmem⟩ := addNewNotarFallbackOrStronger_spec h
    have hnotar := notarFallbacks_of_perform h
    rw [hw.root_eq] at hspec hnotar hmem
    refine hw.of_callSpec hspec (fun s b hnew => ?_) (fun s => ?_) (fun habove => ?_) hunmoved
    · obtain ⟨habove, -, rfl, -⟩ := hnew
      exact .inr habove
    · rcases hnotar s with heq | ⟨hs, hrest⟩
      · exact .inl heq
      · exact .inr ⟨block, hs, hrest⟩
    · rcases hnotar block.1 with heq | ⟨-, -, hmax, -⟩
      · -- the block is there, so it has been taken before
        have hblock : block ∈ (t.status block.1).notarFallbacks :=
          (hmem block.1 block).mpr (.inr ⟨habove, rfl, rfl⟩)
        rw [heq] at hblock
        exact hw.notarFallbacks_lt block.1 habove (ne_nil_of_mem hblock)
      · exact hmax
  | addNewSkip slot =>
    obtain ⟨hspec, hnotar, -⟩ := addNewSkip_spec h
    refine hw.of_callSpec hspec (fun s b hnew => ?_) (fun s => .inl (hnotar s))
      (fun habove => lt_of_perform_skip h (hw.root_eq ▸ habove)) hunmoved
    obtain ⟨-, hb, -⟩ := hnew
    rcases mem_append.mp hb with hb | hb
    · exact hw.notarFallbacks_from _ b hb
    · split_ifs at hb
      · rcases hw.ready_from _ b hb with hstart | ⟨-, hfrom⟩
        · exact .inl ((ready_new_iff rootBlock _ b).mp hstart).2
        · exact hfrom
      · cases hb
  | setRoot root => exact absurd hc not_false

/-! ## Two runs -/

/-- The ready pairs above the root, in terms of the calls. -/
theorem FixedRoot.ready_iff (hw : FixedRoot rootBlock w) (hroot : rootBlock.1 < u64Max)
    (h : Reaches (start rootBlock) w) (s : ℕ) (b : Block) :
    w.tracker.Ready s b ↔ (rootBlock.1 < s ∧ FromRoot rootBlock b) ∧
      b.1 < s ∧ Added rootBlock w b ∧ ∀ r, b.1 < r → r < s → w.Skipped r := by
  have hchar := h.characterised hroot
  have habove : w.tracker.Ready s b → rootBlock.1 < s ∧ FromRoot rootBlock b := by
    intro hr
    rcases hw.ready_from s b hr with hstart | hfrom
    · obtain ⟨rfl, rfl⟩ := (ready_new_iff rootBlock s b).mp hstart
      rw [saturatingSucc_of_lt hroot]
      exact ⟨Nat.lt_succ_self _, .inl rfl⟩
    · exact hfrom
  have hiff : rootBlock.1 < s → FromRoot rootBlock b → (w.tracker.Ready s b ↔
      b.1 < s ∧ Added rootBlock w b ∧ ∀ r, b.1 < r → r < s → w.Skipped r) := by
    intro hs hb
    refine hchar.ready_iff s b (hw.root_eq ▸ hs) ?_
    rcases hb with rfl | hlt
    · exact .inr ⟨rfl, hw.root_eq⟩
    · exact .inl (hw.root_eq ▸ hlt)
  constructor
  · intro hr
    obtain ⟨hs, hb⟩ := habove hr
    exact ⟨⟨hs, hb⟩, (hiff hs hb).mp hr⟩
  · rintro ⟨⟨hs, hb⟩, hrest⟩
    exact (hiff hs hb).mpr hrest

/-- **The same certificates, the same events**, in whatever order they arrived. -/
theorem parentReady_congr {w1 w2 : History} (h1 : Reaches (start rootBlock) w1)
    (h2 : Reaches (start rootBlock) w2) (hw1 : FixedRoot rootBlock w1)
    (hw2 : FixedRoot rootBlock w2) (hcalls : ∀ c, c ∈ w1.calls ↔ c ∈ w2.calls) (s : ℕ) (b : Block) :
    .parentReady s b ∈ w1.events ↔ .parentReady s b ∈ w2.events := by
  rw [hw1.events_iff, hw2.events_iff]
  have hready : w1.tracker.Ready s b ↔ w2.tracker.Ready s b := by
    rcases Nat.lt_or_ge rootBlock.1 u64Max with hroot | hroot
    · rw [hw1.ready_iff hroot h1, hw2.ready_iff hroot h2]
      unfold Added Skipped
      simp only [hcalls]
    · -- at the end of `u64` no certificate is above the root
      have hle : ∀ {w : History}, FixedRoot rootBlock w → ∀ c ∈ w.calls, c.slot ≤ rootBlock.1 := by
        intro w hw c hc
        by_contra hlt
        have := hw.call_lt c hc (not_le.mp hlt)
        omega
      rw [hw1.unmoved (hle hw1), hw2.unmoved (hle hw2)]
  rw [hready]

/-- A block is taken as long as its slot has room and is not at the end of `u64`. -/
theorem FixedRoot.exists_perform (hw : FixedRoot rootBlock w) (h : Reaches (start rootBlock) w)
    (hc : c.IsCertificate)
    (hlt : rootBlock.1 < c.slot → c.slot + 1 < u64Max)
    (hroom : ∀ block, c = .addNewNotarFallbackOrStronger block → rootBlock.1 < block.1 →
      block ∉ (w.tracker.status block.1).notarFallbacks →
      (w.tracker.status block.1).notarFallbacks.length + 1 ≤ maxEntriesPerPubkeyForNotarizeLite) :
    ∃ result, w.tracker.perform c = some result := by
  rcases Nat.lt_or_ge rootBlock.1 c.slot with habove | hle
  · have hmax := hlt habove
    have hroot : rootBlock.1 < u64Max := by omega
    -- the last slot of `u64` is never skipped
    have hskip : (w.tracker.status (u64Max - 1)).skip = false := by
      by_contra hno
      have hskipped := ((h.characterised hroot).skip_iff (u64Max - 1)
        (by rw [hw.root_eq]; omega)).mp (by simpa using hno)
      have := hw.call_lt _ hskipped (by simp only [Call.slot]; omega)
      simp only [Call.slot] at this
      omega
    cases c with
    | addNewNotarFallbackOrStronger block =>
      simp only [Call.slot] at habove hmax
      refine exists_perform_block ?_ (by omega) (by omega) hskip
      by_cases hmem : block ∈ (w.tracker.status block.1).notarFallbacks
      · exact .inl hmem
      · exact .inr (hroom block rfl habove hmem)
    | addNewSkip slot =>
      simp only [Call.slot] at habove hmax
      exact exists_perform_skip (by omega) (by omega) hskip
    | setRoot root => exact absurd hc not_false
  · exact ⟨_, perform_of_le hc (hw.root_eq ▸ hle)⟩

/-! ## The parent for block production -/

/-- The window of a slot is missed once a later slot has a ready parent; otherwise the least ready
parent of the slot is taken. -/
theorem FixedRoot.blockProductionParent_iff (hw : FixedRoot rootBlock w)
    (hroot : rootBlock.1 < u64Max) (h : Reaches (start rootBlock) w) (s : ℕ) :
    (w.tracker.blockProductionParent s = .missedWindow ↔ ∃ r b, s < r ∧ w.tracker.Ready r b) ∧
    (∀ b, w.tracker.blockProductionParent s = .parent b ↔
      (∀ r c, w.tracker.Ready r c → r ≤ s) ∧ w.tracker.Ready s b ∧
        ∀ c, w.tracker.Ready s c → toLex b ≤ toLex c) ∧
    (w.tracker.blockProductionParent s = .parentNotReady → ∀ b, ¬w.tracker.Ready s b) := by
  unfold blockProductionParent
  by_cases hlt : s < w.tracker.highestParentReady
  · -- nothing is pruned, so the highest slot still has its parent
    obtain ⟨v, -, hvw, b, hb⟩ := h.highest_attained
    have hfirst := h.le_highest _ _ (hw.ready_start _ _ ((ready_new_iff _ _ _).mpr ⟨rfl, rfl⟩))
    rw [saturatingSucc_of_lt hroot] at hfirst
    have hready := (hvw.ready hb).resolve_right (by rw [hw.root_eq]; omega)
    rw [if_pos hlt]
    refine ⟨⟨fun _ => ⟨_, b, hlt, hready⟩, fun _ => rfl⟩, fun c => ⟨nofun, fun hc => ?_⟩, nofun⟩
    exact absurd (hc.1 _ b hready) hlt.not_ge
  · have hle : ∀ r c, w.tracker.Ready r c → r ≤ s :=
      fun r c hr => (h.le_highest r c hr).trans (not_lt.mp hlt)
    have hno : ¬∃ r b, s < r ∧ w.tracker.Ready r b :=
      fun ⟨r, b, hsr, hr⟩ => hsr.not_ge (hle r b hr)
    rw [if_neg hlt]
    rcases leastParent_spec (w.tracker.status s).parentsReady with
      ⟨hnone, hnil⟩ | ⟨b, hb, hmem, hleast⟩
    · have hnot : ∀ b, ¬w.tracker.Ready s b := fun b hb => not_mem_nil (hnil ▸ hb : b ∈ [])
      rw [hnone]
      exact ⟨⟨nofun, fun h => absurd h hno⟩, fun c => ⟨nofun, fun hc => absurd hc.2.1 (hnot c)⟩,
        fun _ => hnot⟩
    · rw [hb]
      refine ⟨⟨nofun, fun h => absurd h hno⟩, fun c => ⟨?_, fun hc => ?_⟩, nofun⟩
      · rintro ⟨⟩
        exact ⟨hle, hmem, hleast⟩
      · exact congrArg _ (toLex.injective ((hleast c hc.2.1).antisymm (hc.2.2 b hmem)))

end History
end FlowraValidator.Votor.ParentReadyTracker
