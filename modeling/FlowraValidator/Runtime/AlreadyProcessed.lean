import FlowraValidator.Lib.Fallible
import FlowraValidator.Runtime.BankForks

/-!
# No transaction is accepted twice on one fork

A transaction that was recorded in a bank is found from every bank on its fork for as long as its
blockhash is young enough. Its entry leaves the cache only with a root that is not older than the
bank that recorded it, and its slot leaves the roots only likewise. The window of the roots is as
long as the queue of blockhashes, twice the age up to which transactions are accepted: so many
roots lie on one branch that the blockhash has become too old before.

* `step_bank`: what an event does to the banks.
* `Inv`, `step_inv`, `run_inv`: what holds of the banks, the queues and the roots in every run.
* `Kept`, `step_kept`: what holds of a recorded transaction ever after.
* `blockHeight_le`: the age of a blockhash bounds the distance of the banks.
* `checkStatusCache_alreadyProcessed`: **every transaction that was recorded is refused** on its
  fork, as long as its blockhash passes the check of its age.
-/

namespace FlowraValidator.Runtime

open Std.ExtTreeMap
open BankForks List Option OrdMap Forest Relation StatusCache Finset BlockhashQueue ReflTransGen

namespace BankForks
variable {T : Type} (tree : BankTree)

/-! ## What holds in every run -/

/-- The slot is that of the latest root or of an ancestor of it. -/
def Rooted (s : BankForks T) (slot : ℕ) : Prop :=
  ∃ j, IsAncestorOrSelf tree.parent j s.root ∧ tree.slot j = slot

structure Inv (s : BankForks T) : Prop where
  parent : ∀ (i : ℕ) (b : Bank) (p : ℕ), s.banks[i]? = some b → tree.parent i = some p →
    ∃ bp, s.banks[p]? = some bp ∧ b.blockHeight = bp.blockHeight + 1 ∧ bp.freezeStarted = true
  link : ∀ (i : ℕ) (b : Bank), s.banks[i]? = some b →
    b.parent = tree.parent i ∨
      b.parent = none ∧ ∀ j, IsAncestor tree.parent j i → Rooted tree s (tree.slot j)
  ancestors : ∀ (i : ℕ) (b : Bank), s.banks[i]? = some b → ∀ j, IsAncestorOrSelf tree.parent j i →
    tree.slot j ∈ b.ancestors ∨ Rooted tree s (tree.slot j)
  window : StatusCache.Window { r | Rooted tree s r } s.statusCache
  queue_last : ∀ (i : ℕ) (b : Bank), s.banks[i]? = some b →
    b.blockhashQueue.lastHashIndex = b.blockHeight + b.blockhash.elim 0 fun _ => 1
  queue_hashes : ∀ (i : ℕ) (b : Bank), s.banks[i]? = some b → ∀ (hash : ℕ) (info : HashInfo),
    b.blockhashQueue.hashes[hash]? = some info →
    info.hashIndex = 0 ∨ ∃ (j : ℕ) (bj : Bank), IsAncestorOrSelf tree.parent j i ∧
      s.banks[j]? = some bj ∧ bj.blockhash = some hash ∧ info.hashIndex = bj.blockHeight + 1

variable {tree} {s s' : BankForks T} {i hash timestamp : ℕ} {b bi : Bank} {j slot k : ℕ}
  {p : Processed T} {e : StatusCache.Entry} {tx : Transaction}

/-- The ancestors of a bank are banks, of lower height. -/
theorem Inv.exists_ancestor (h : Inv tree s) (hb : s.banks[i]? = some b)
    (hanc : IsAncestor tree.parent j i) :
    ∃ bj, s.banks[j]? = some bj ∧ bj.blockHeight < b.blockHeight ∧ bj.freezeStarted = true := by
  induction hanc generalizing b with
  | single hp =>
    obtain ⟨bp, hbp, hheight, hfrozen⟩ := h.parent _ _ _ hb hp
    exact ⟨bp, hbp, by omega, hfrozen⟩
  | tail _ hp ih =>
    obtain ⟨bp, hbp, hheight, -⟩ := h.parent _ _ _ hb hp
    obtain ⟨bj, hbj, hlt, hfrozen⟩ := ih hbp
    exact ⟨bj, hbj, by omega, hfrozen⟩

theorem Inv.exists_ancestorOrSelf (h : Inv tree s) (hb : s.banks[i]? = some b)
    (hanc : IsAncestorOrSelf tree.parent j i) :
    ∃ bj, s.banks[j]? = some bj ∧ bj.blockHeight ≤ b.blockHeight := by
  rcases isAncestorOrSelf_iff.mp hanc with rfl | hanc
  · exact ⟨b, hb, le_refl _⟩
  · obtain ⟨bj, hbj, hlt, -⟩ := h.exists_ancestor hb hanc
    exact ⟨bj, hbj, hlt.le⟩

/-- The links lead to ancestors. -/
theorem Inv.isAncestor_of_mem_parents (h : Inv tree s) (hj : j ∈ parents tree s i) :
    IsAncestor tree.parent j i := by
  refine TransGen.mono ?_ _ _ (isAncestor_of_mem_ancestors hj)
  intro a b hlink
  obtain ⟨bank, hbank, hparent⟩ := bind_eq_some_iff.mp hlink
  rcases h.link b bank hbank with heq | ⟨hnone, -⟩
  · exact heq ▸ hparent
  · rw [hnone] at hparent
    cases hparent

/-- The links lead to all ancestors that are not rooted. -/
theorem Inv.mem_parents (h : Inv tree s) (hb : s.banks[i]? = some b)
    (hanc : IsAncestor tree.parent j i) :
    j ∈ parents tree s i ∨ Rooted tree s (tree.slot j) := by
  suffices hall : ∀ n, tree.slot i ≤ n →
      j ∈ Forest.ancestors s.parentLink n i ∨ Rooted tree s (tree.slot j) from hall _ (le_refl _)
  intro n hfuel
  -- the slots decrease along the links, so that the walk is long enough
  induction n generalizing i b with
  | zero =>
    have hlt := hanc.rank_lt tree.slot fun a b hp => tree.slot_lt b a hp
    omega
  | succ n ih =>
    rcases h.link i b hb with hlink | ⟨-, hrooted⟩
    · obtain ⟨p, hp, hself⟩ := isAncestor_iff.mp hanc
      obtain ⟨bp, hbp, -, -⟩ := h.parent i b p hb hp
      have hparent : s.parentLink i = some p := by
        rw [parentLink, hb]
        exact hlink.trans hp
      have hlt := tree.slot_lt i p hp
      rw [Forest.ancestors, hparent]
      rcases isAncestorOrSelf_iff.mp hself with rfl | hself
      · exact .inl mem_cons_self
      · exact (ih hbp hself (by omega)).imp_left fun hmem => mem_cons_of_mem _ hmem
    · exact .inr (hrooted j hanc)

/-! ## The events -/

theorem genesis_inv (hash lamportsPerSignature timestamp : ℕ) :
    Inv tree (genesis hash lamportsPerSignature timestamp : BankForks T) := by
  have hbank : ∀ (i : ℕ) (b : Bank),
      (genesis hash lamportsPerSignature timestamp : BankForks T).banks[i]? = some b →
      i = 0 ∧ b.blockHeight = 0 ∧ b.parent = none ∧ b.ancestors = {0} ∧ b.blockhash = none ∧
        b.blockhashQueue = (new maxRecentBlockhashes).genesisHash hash
          lamportsPerSignature timestamp := by
    intro i b hb
    rw [genesis, get_insert] at hb
    split at hb
    · rename_i hi
      cases hb
      exact ⟨hi.symm, rfl, rfl, rfl, rfl, rfl⟩
    · rw [getElem?_empty] at hb
      cases hb
  have hself : ∀ j, IsAncestorOrSelf tree.parent j 0 → j = 0 := by
    intro j hj
    refine (isAncestorOrSelf_iff.mp hj).resolve_right fun hanc => ?_
    obtain ⟨p, hp, -⟩ := isAncestor_iff.mp hanc
    rw [tree.genesis_parent] at hp
    cases hp
  have hrooted : ∀ r, Rooted tree (genesis hash lamportsPerSignature timestamp : BankForks T) r ↔
      r = 0 := by
    intro r
    constructor
    · rintro ⟨j, hj, rfl⟩
      rw [hself j hj, tree.genesis_slot]
    · rintro rfl
      exact ⟨0, refl, tree.genesis_slot⟩
  constructor
  · intro i b p hb hp
    obtain ⟨rfl, -⟩ := hbank i b hb
    rw [tree.genesis_parent] at hp
    cases hp
  · intro i b hb
    obtain ⟨rfl, -, hparent, -⟩ := hbank i b hb
    exact .inl (hparent.trans tree.genesis_parent.symm)
  · intro i b hb j hj
    obtain ⟨rfl, -, -, hancestors, -⟩ := hbank i b hb
    rw [hself j hj, hancestors, tree.genesis_slot]
    exact .inl (Finset.mem_singleton_self 0)
  · refine ⟨fun r hr => (hrooted r).mpr (Finset.mem_singleton.mp hr), ?_, fun r hr hout => ?_⟩
    · show ({0} : Finset ℕ).card ≤ 300
      decide
    · exact absurd (Finset.mem_singleton.mpr ((hrooted r).mp hr)) hout
  · intro i b hb
    obtain ⟨-, hheight, -, -, hblockhash, hqueue⟩ := hbank i b hb
    rw [hheight, hblockhash, hqueue]
    rfl
  · intro i b hb other info hinfo
    obtain ⟨-, -, -, -, -, hqueue⟩ := hbank i b hb
    rw [hqueue, genesisHash, get_insert] at hinfo
    split at hinfo
    · cases hinfo
      exact .inl rfl
    · rw [new, getElem?_empty] at hinfo
      cases hinfo

/-- What making a bank does. -/
theorem newFromParent_eq_some (hstep : newFromParent tree s i = some s') :
    ∃ p parent, tree.parent i = some p ∧ s.banks[p]? = some parent ∧ s.banks[i]? = none ∧
      parent.blockhash.isSome ∧ s' = { s with
        banks := (s.banks.insert p { parent with freezeStarted := true }).insert i
          (child tree s i p parent) } := by
  obtain ⟨p, hp, hstep⟩ := bind_eq_some_iff.mp hstep
  obtain ⟨parent, hparent, hstep⟩ := bind_eq_some_iff.mp hstep
  split_ifs at hstep with hguard
  cases hstep
  exact ⟨p, parent, hp, hparent, isNone_iff_eq_none.mp hguard.1, hguard.2, rfl⟩

/-- What registering a hash does. -/
theorem registerRecentBlockhash_eq_some
    (hstep : registerRecentBlockhash s i hash timestamp = some s') :
    ∃ bank, s.banks[i]? = some bank ∧ bank.blockhash = none ∧ hash ∉ s.seen ∧ s' = { s with
      banks := s.banks.insert i { bank with
        blockhashQueue := bank.blockhashQueue.registerHash hash bank.lamportsPerSignature timestamp
        blockhash := some hash }
      seen := insert hash s.seen } := by
  obtain ⟨bank, hbank, hstep⟩ := bind_eq_some_iff.mp hstep
  split_ifs at hstep with hguard
  cases hstep
  exact ⟨bank, hbank, isNone_iff_eq_none.mp hguard.2.1, hguard.2.2, rfl⟩

/-- The hashes of a queue after a registration: the new one and some of the old ones. -/
theorem registerHash_hashes {q : BlockhashQueue} {lamportsPerSignature other : ℕ} {info : HashInfo}
    (h : (q.registerHash hash lamportsPerSignature timestamp).hashes[other]? = some info) :
    other = hash ∧ info.hashIndex = q.lastHashIndex + 1 ∨ q.hashes[other]? = some info := by
  rw [registerHash, get_insert] at h
  split at h
  · rename_i heq
    cases h
    exact .inl ⟨heq.symm, rfl⟩
  · refine .inr ?_
    split at h
    · rw [getElem?_filter', filter_eq_some_iff] at h
      exact h.1
    · exact h

variable {cache cache' : StatusCache T}

theorem recordStatus_roots (h : recordStatus slot cache p = some cache') :
    cache'.roots = cache.roots := by
  rw [recordStatus] at h
  split at h
  · exact (some.inj h) ▸ rfl
  · obtain ⟨mid, hmid, hlast⟩ := bind_eq_some_iff.mp h
    obtain ⟨-, -, -, -, hroots, -⟩ := insert_eq_some hmid
    obtain ⟨-, -, -, -, hroots', -⟩ := insert_eq_some hlast
    exact hroots'.trans hroots

variable {processed : List (Processed T)} {b₀ : Bank}

theorem updateTransactionStatuses_roots
    (h : updateTransactionStatuses slot cache processed = some cache') :
    cache'.roots = cache.roots := by
  rw [updateTransactionStatuses] at h
  induction processed generalizing cache with
  | nil => exact (some.inj h) ▸ rfl
  | cons p processed ih =>
    obtain ⟨mid, hmid, hrest⟩ := bind_eq_some_iff.mp h
    exact (ih hrest).trans (recordStatus_roots hmid)

/-- What a commit does. -/
theorem commit_eq_some (hstep : commit tree s i processed = some s') :
    ∃ bank cache, s.banks[i]? = some bank ∧ bank.freezeStarted = false ∧
      updateTransactionStatuses (tree.slot i) s.statusCache processed = some cache ∧
      s' = { s with statusCache := cache, seen := s.seen ∪ usedBlockhashes processed } := by
  obtain ⟨bank, hbank, hstep⟩ := bind_eq_some_iff.mp hstep
  split_ifs at hstep with hguard
  obtain ⟨cache, hcache, hstep⟩ := bind_eq_some_iff.mp hstep
  cases hstep
  exact ⟨bank, cache, hbank, hguard, hcache, rfl⟩

/-- What squashing a bank does. -/
theorem squash_eq_some (hstep : squash tree s i = some s') :
    ∃ bank, s.banks[i]? = some bank ∧ IsAncestorOrSelf tree.parent s.root i ∧ s' = { s with
      banks := s.banks.insert i { bank with freezeStarted := true, parent := none }
      statusCache := ((i :: parents tree s i).map tree.slot).foldl addRoot
        s.statusCache
      root := i } := by
  obtain ⟨bank, hbank, hstep⟩ := bind_eq_some_iff.mp hstep
  split_ifs at hstep with hguard
  cases hstep
  refine ⟨bank, hbank, isAncestorOrSelf_iff.mpr ?_, rfl⟩
  exact (mem_cons.mp hguard).imp_right isAncestor_of_mem_ancestors

/-- The slots that are rooted after a bank was squashed: those that were, and those that were
added. -/
theorem Inv.rooted_squash (h : Inv tree s) (hstep : squash tree s i = some s') :
    { r | Rooted tree s' r } =
      { r | Rooted tree s r } ∪ { r | r ∈ (i :: parents tree s i).map tree.slot } := by
  obtain ⟨bank, hbank, hroot, rfl⟩ := squash_eq_some hstep
  ext r
  constructor
  · rintro ⟨j, hj, rfl⟩
    rcases isAncestorOrSelf_iff.mp hj with rfl | hanc
    · exact .inr (mem_map_of_mem mem_cons_self)
    · rcases h.mem_parents hbank hanc with hmem | hrooted
      · exact .inr (mem_map_of_mem (mem_cons_of_mem _ hmem))
      · exact .inl hrooted
  · rintro (⟨j, hj, rfl⟩ | hmem)
    · exact ⟨j, hj.trans hroot, rfl⟩
    · obtain ⟨j, hj, rfl⟩ := mem_map.mp hmem
      refine ⟨j, isAncestorOrSelf_iff.mpr ?_, rfl⟩
      exact (mem_cons.mp hj).imp_right h.isAncestor_of_mem_parents

/-! ## One event -/

/-- What an event may change of a bank. -/
structure Changes (s s' : BankForks T) (k : ℕ) (b₀ b : Bank) : Prop where
  blockHeight : b.blockHeight = b₀.blockHeight
  frozen : b₀.freezeStarted = true → b.freezeStarted = true
  ancestors : b.ancestors = b₀.ancestors
  parent : b.parent = b₀.parent ∨ b.parent = none ∧ s'.root = k
  queue : (b.blockhashQueue = b₀.blockhashQueue ∧ b.blockhash = b₀.blockhash) ∨
    ∃ hash timestamp, b₀.blockhash = none ∧ hash ∉ s.seen ∧ b.blockhash = some hash ∧
      b.blockhashQueue = b₀.blockhashQueue.registerHash hash b₀.lamportsPerSignature timestamp

theorem Changes.refl (k : ℕ) (b : Bank) : Changes s s' k b b :=
  ⟨rfl, id, rfl, .inl rfl, .inl ⟨rfl, rfl⟩⟩

theorem Changes.blockhash (h : Changes s s' k b₀ b) (hhash : b₀.blockhash = some hash)
    : b.blockhash = some hash := by
  rcases h.queue with ⟨-, heq⟩ | ⟨_, _, hnone, -⟩
  · exact heq.trans hhash
  · cases hnone.symm.trans hhash

/-- One bank is replaced. -/
theorem changes_insert {bank new : Bank} (hbank : s.banks[i]? = some bank)
    (hnew : Changes s s' i bank new) (hb : (s.banks.insert i new)[k]? = some b) :
    ∃ b₀, s.banks[k]? = some b₀ ∧ Changes s s' k b₀ b := by
  rw [get_insert] at hb
  split at hb
  · rename_i hk
    subst hk
    cases hb
    exact ⟨bank, hbank, hnew⟩
  · exact ⟨b, hb, Changes.refl k b⟩

variable {event : BankEvent T} {events : List (BankEvent T)}

/-- **What an event does to the banks.**  A bank was there before, or it is a new child. -/
theorem step_bank (hstep : step tree s event = some s') (hb : s'.banks[k]? = some b) :
    (∃ b₀, s.banks[k]? = some b₀ ∧ Changes s s' k b₀ b) ∨
      ∃ p parent, s.banks[k]? = none ∧ tree.parent k = some p ∧ s.banks[p]? = some parent ∧
        parent.blockhash.isSome ∧ (∃ bp, s'.banks[p]? = some bp ∧
          bp.blockHeight = parent.blockHeight ∧ bp.freezeStarted = true) ∧
        b = child tree s k p parent := by
  cases event with
  | newFromParent i =>
    obtain ⟨p, parent, hp, hparent, hnew, hcomplete, rfl⟩ := newFromParent_eq_some hstep
    by_cases hk : i = k
    · subst hk
      rw [get_insert, if_pos rfl] at hb
      have hpi : i ≠ p := by
        rintro rfl
        exact absurd (tree.slot_lt i i hp) (lt_irrefl _)
      refine .inr ⟨p, parent, hnew, hp, hparent, hcomplete,
        ⟨{ parent with freezeStarted := true }, ?_, rfl, rfl⟩, (some.inj hb).symm⟩
      rw [get_insert, if_neg hpi, get_insert, if_pos rfl]
    · rw [get_insert, if_neg hk] at hb
      refine .inl (changes_insert hparent ?_ hb)
      exact ⟨rfl, fun _ => rfl, rfl, .inl rfl, .inl ⟨rfl, rfl⟩⟩
  | registerRecentBlockhash i hash timestamp =>
    obtain ⟨bank, hbank, hnone, hfresh, rfl⟩ := registerRecentBlockhash_eq_some hstep
    refine .inl (changes_insert hbank ?_ hb)
    exact ⟨rfl, id, rfl, .inl rfl, .inr ⟨hash, timestamp, hnone, hfresh, rfl, rfl⟩⟩
  | updateTransactionStatuses i processed =>
    obtain ⟨_, _, _, _, _, rfl⟩ := commit_eq_some hstep
    exact .inl ⟨b, hb, Changes.refl k b⟩
  | squash i =>
    obtain ⟨bank, hbank, -, rfl⟩ := squash_eq_some hstep
    refine .inl (changes_insert hbank ?_ hb)
    exact ⟨rfl, fun _ => rfl, rfl, .inr ⟨rfl, rfl⟩, .inl ⟨rfl, rfl⟩⟩
  | clearSlotEntries slot =>
    obtain ⟨_, _, hstep⟩ := bind_eq_some_iff.mp hstep
    cases hstep
    exact .inl ⟨b, hb, Changes.refl k b⟩

/-- No bank is lost. -/
theorem step_grows (hstep : step tree s event = some s') (hb0 : s.banks[k]? = some b₀) :
    ∃ b, s'.banks[k]? = some b ∧ Changes s s' k b₀ b := by
  have hinsert : ∀ {banks : OrdMap ℕ Bank} (i : ℕ) (new : Bank), banks[k]?.isSome →
      (banks.insert i new)[k]?.isSome := by
    intro banks i new hsome
    rw [get_insert]
    split_ifs
    · rfl
    · exact hsome
  have hsome : s.banks[k]?.isSome := isSome_iff_exists.mpr ⟨b₀, hb0⟩
  have hsome' : s'.banks[k]?.isSome := by
    cases event with
    | newFromParent i =>
      obtain ⟨_, _, _, _, _, _, rfl⟩ := newFromParent_eq_some hstep
      exact hinsert _ _ (hinsert _ _ hsome)
    | registerRecentBlockhash i hash timestamp =>
      obtain ⟨_, _, _, _, rfl⟩ := registerRecentBlockhash_eq_some hstep
      exact hinsert _ _ hsome
    | updateTransactionStatuses i processed =>
      obtain ⟨_, _, _, _, _, rfl⟩ := commit_eq_some hstep
      exact hsome
    | squash i =>
      obtain ⟨_, _, _, rfl⟩ := squash_eq_some hstep
      exact hinsert _ _ hsome
    | clearSlotEntries slot =>
      obtain ⟨_, _, hstep⟩ := bind_eq_some_iff.mp hstep
      cases hstep
      exact hsome
  obtain ⟨b, hb⟩ := isSome_iff_exists.mp hsome'
  rcases step_bank hstep hb with ⟨b1, hb1, hchanges⟩ | ⟨_, _, hnone, -⟩
  · cases hb0.symm.trans hb1
    exact ⟨b, hb, hchanges⟩
  · cases hnone.symm.trans hb0

/-- What is rooted stays rooted, and the window is kept. -/
theorem step_window (h : Inv tree s) (hstep : step tree s event = some s') :
    (∀ r, Rooted tree s r → Rooted tree s' r) ∧
      StatusCache.Window { r | Rooted tree s' r } s'.statusCache := by
  have hcache : ∀ {cache : StatusCache T}, cache.roots = s.statusCache.roots →
      StatusCache.Window { r | Rooted tree s r } cache := by
    intro cache hroots
    obtain ⟨hmem, hcard, hkept⟩ := h.window
    exact ⟨by rwa [hroots], by rwa [hroots], by rwa [hroots]⟩
  cases event with
  | newFromParent i =>
    obtain ⟨_, _, _, _, _, _, rfl⟩ := newFromParent_eq_some hstep
    exact ⟨fun _ hr => hr, h.window⟩
  | registerRecentBlockhash i hash timestamp =>
    obtain ⟨_, _, _, _, rfl⟩ := registerRecentBlockhash_eq_some hstep
    exact ⟨fun _ hr => hr, h.window⟩
  | updateTransactionStatuses i processed =>
    obtain ⟨_, _, _, _, hcommitted, rfl⟩ := commit_eq_some hstep
    exact ⟨fun _ hr => hr, hcache (updateTransactionStatuses_roots hcommitted)⟩
  | squash i =>
    have hset := h.rooted_squash hstep
    have hwindow := (h.window.foldl_addRoot ((i :: parents tree s i).map tree.slot)).1
    rw [← hset] at hwindow
    have hrooted : ∀ r, Rooted tree s r → r ∈ { r | Rooted tree s' r } := fun r hr => hset ▸ .inl hr
    obtain ⟨bank, -, -, rfl⟩ := squash_eq_some hstep
    exact ⟨hrooted, hwindow⟩
  | clearSlotEntries slot =>
    obtain ⟨_, hcleared, hstep⟩ := bind_eq_some_iff.mp hstep
    cases hstep
    exact ⟨fun _ hr => hr, hcache (clearSlotEntries_eq_some hcleared).1⟩

/-- **One event keeps the invariant.** -/
theorem step_inv (h : Inv tree s) (hstep : step tree s event = some s') : Inv tree s' := by
  obtain ⟨hrooted, hwindow⟩ := step_window h hstep
  -- a hash of a queue belongs to an ancestor, which is still there
  have hlift : ∀ {k hash : ℕ} {info : HashInfo},
      (∃ (j : ℕ) (bj : Bank), IsAncestorOrSelf tree.parent j k ∧ s.banks[j]? = some bj ∧
        bj.blockhash = some hash ∧ info.hashIndex = bj.blockHeight + 1) →
      ∃ (j : ℕ) (bj : Bank), IsAncestorOrSelf tree.parent j k ∧ s'.banks[j]? = some bj ∧
        bj.blockhash = some hash ∧ info.hashIndex = bj.blockHeight + 1 := by
    rintro k hash info ⟨j, bj, hanc, hbj, hhash, hindex⟩
    obtain ⟨bj', hbj', hchanges⟩ := step_grows hstep hbj
    exact ⟨j, bj', hanc, hbj', hchanges.blockhash hhash, hindex.trans (by
      rw [hchanges.blockHeight])⟩
  refine ⟨fun k b q hb hq => ?_, fun k b hb => ?_, fun k b hb j hj => ?_, hwindow,
    fun k b hb => ?_, fun k b hb hash info hinfo => ?_⟩ <;>
    obtain ⟨b₀, hb0, hchanges⟩ | ⟨p, parent, hnone, hp, hparent, hcomplete, hfrozen, rfl⟩ :=
      step_bank hstep hb
  · obtain ⟨bq, hbq, hheight, hfrozen⟩ := h.parent k b₀ q hb0 hq
    obtain ⟨bq', hbq', hchanges'⟩ := step_grows hstep hbq
    refine ⟨bq', hbq', ?_, hchanges'.frozen hfrozen⟩
    rw [hchanges.blockHeight, hchanges'.blockHeight, hheight]
  · cases hp.symm.trans hq
    obtain ⟨bp, hbp, hheight, hfrozen⟩ := hfrozen
    exact ⟨bp, hbp, congrArg (· + 1) hheight.symm, hfrozen⟩
  · rcases hchanges.parent with hlink | ⟨hlink, rfl⟩
    · rw [hlink]
      refine (h.link k b₀ hb0).imp_right fun ⟨hnone, hall⟩ => ⟨hnone, fun j hj => ?_⟩
      exact hrooted _ (hall j hj)
    · exact .inr ⟨hlink, fun j hj => ⟨j, hj.orSelf, rfl⟩⟩
  · exact .inl hp.symm
  · rw [hchanges.ancestors]
    exact (h.ancestors k b₀ hb0 j hj).imp_right (hrooted _)
  · have hmem : ∀ a ∈ k :: p :: parents tree s p,
        tree.slot a ∈ ((k :: p :: parents tree s p).map tree.slot).toFinset :=
      fun a ha => mem_toFinset.mpr (mem_map_of_mem ha)
    rcases isAncestorOrSelf_iff.mp hj with rfl | hanc
    · exact .inl (hmem _ mem_cons_self)
    · obtain ⟨q, hq, hself⟩ := isAncestor_iff.mp hanc
      cases hp.symm.trans hq
      rcases isAncestorOrSelf_iff.mp hself with rfl | hanc
      · exact .inl (hmem _ (mem_cons_of_mem _ mem_cons_self))
      · refine (h.mem_parents hparent hanc).imp (fun hin => ?_) (hrooted _)
        exact hmem _ (mem_cons_of_mem _ (mem_cons_of_mem _ hin))
  · have hlast := h.queue_last k b₀ hb0
    rcases hchanges.queue with ⟨hqueue, hhash⟩ | ⟨hash, timestamp, hnone, -, hhash, hqueue⟩
    · rwa [hchanges.blockHeight, hqueue, hhash]
    · rw [hnone] at hlast
      rw [hchanges.blockHeight, hqueue, hhash]
      exact congrArg (· + 1) hlast
  · obtain ⟨hash, hhash⟩ := isSome_iff_exists.mp hcomplete
    have hlast := h.queue_last p parent hparent
    rwa [hhash] at hlast
  · rcases hchanges.queue with ⟨hqueue, -⟩ | ⟨new, timestamp, hnone, -, hhash, hqueue⟩
    · rw [hqueue] at hinfo
      exact (h.queue_hashes k b₀ hb0 hash info hinfo).imp_right hlift
    · rw [hqueue] at hinfo
      rcases registerHash_hashes hinfo with ⟨rfl, hindex⟩ | hinfo
      · refine .inr ⟨k, b, refl, hb, hhash, ?_⟩
        have hlast := h.queue_last k b₀ hb0
        rw [hnone] at hlast
        rw [hindex, hlast, hchanges.blockHeight]
        rfl
      · exact (h.queue_hashes k b₀ hb0 hash info hinfo).imp_right hlift
  · refine (h.queue_hashes p parent hparent hash info hinfo).imp_right fun hsome => ?_
    obtain ⟨j, bj, hanc, hbj⟩ := hlift hsome
    exact ⟨j, bj, hanc.tail hp, hbj⟩

theorem run_inv (h : Inv tree s) (hrun : run tree s events = some s') : Inv tree s' := by
  rw [run] at hrun
  induction events generalizing s with
  | nil => exact (some.inj hrun) ▸ h
  | cons event events ih =>
    obtain ⟨mid, hmid, hrest⟩ := bind_eq_some_iff.mp hrun
    exact ih (step_inv h hmid) hrest

/-! ## A recorded transaction -/

variable (tree) in
/-- What holds of a transaction that was recorded in a bank, for as long as the slot is not
cleared: its blockhash is not registered anew, it was not registered below the bank, and the entry
of the message hash is recorded. -/
structure Kept (s : BankForks T) (i : ℕ) (tx : Transaction) : Prop where
  seen : tx.recentBlockhash ∈ s.seen
  older : ∀ (k : ℕ) (b : Bank), s.banks[k]? = some b → b.blockhash = some tx.recentBlockhash →
    ¬IsAncestor tree.parent i k
  recorded : StatusCache.Recorded { r | Rooted tree s r } s.statusCache
    ⟨tx.recentBlockhash, tx.messageHash.val, tree.slot i⟩

theorem recordStatus_presentIn (hpresent : StatusCache.PresentIn cache.cache e)
    (h : recordStatus slot cache p = some cache') :
    StatusCache.PresentIn cache'.cache e := by
  rw [recordStatus] at h
  split at h
  · exact (some.inj h) ▸ hpresent
  · obtain ⟨mid, hmid, hlast⟩ := bind_eq_some_iff.mp h
    exact (hpresent.insert hmid).insert hlast

theorem updateTransactionStatuses_presentIn (hpresent : StatusCache.PresentIn cache.cache e)
    (h : updateTransactionStatuses slot cache processed = some cache') :
    StatusCache.PresentIn cache'.cache e := by
  rw [updateTransactionStatuses] at h
  induction processed generalizing cache with
  | nil => exact (some.inj h) ▸ hpresent
  | cons p processed ih =>
    obtain ⟨mid, hmid, hrest⟩ := bind_eq_some_iff.mp h
    exact ih (recordStatus_presentIn hpresent hmid) hrest

/-- The message hash of a transaction that was processed is present. -/
theorem presentIn_updateTransactionStatuses (hp : p ∈ processed) (hresult : p.result.isSome)
    (h : updateTransactionStatuses slot cache processed = some cache') :
    StatusCache.PresentIn cache'.cache
      ⟨p.transaction.recentBlockhash, p.transaction.messageHash.val, slot⟩ := by
  rw [updateTransactionStatuses] at h
  induction processed generalizing cache with
  | nil => cases hp
  | cons q processed ih =>
    obtain ⟨mid, hmid, hrest⟩ := bind_eq_some_iff.mp h
    rcases mem_cons.mp hp with rfl | hp
    · obtain ⟨status, hstatus⟩ := isSome_iff_exists.mp hresult
      rw [recordStatus, hstatus] at hmid
      obtain ⟨first, hfirst, hsecond⟩ := bind_eq_some_iff.mp hmid
      exact updateTransactionStatuses_presentIn
        ((presentIn_insert hfirst).insert hsecond) hrest
    · exact ih hp hrest

/-- **A commit records its transactions.**  A bank that is not frozen has no children, so that no
bank below it has registered a hash. -/
theorem commit_kept (h : Inv tree s) (hstep : commit tree s i processed = some s')
    (hp : p ∈ processed) (hresult : p.result.isSome) : Kept tree s' i p.transaction := by
  obtain ⟨bank, cache, hbank, hfrozen, hcache, rfl⟩ := commit_eq_some hstep
  constructor
  · refine mem_union_right _ (mem_toFinset.mpr (mem_map_of_mem ?_))
    exact mem_filter.mpr ⟨hp, hresult⟩
  · intro k b hb _ hanc
    obtain ⟨bi, hbi, -, hfrozen'⟩ := h.exists_ancestor hb hanc
    cases hbank.symm.trans hbi
    rw [hfrozen] at hfrozen'
    cases hfrozen'
  · exact .inr (presentIn_updateTransactionStatuses hp hresult hcache)

theorem step_seen (hstep : step tree s event = some s') : s.seen ⊆ s'.seen := by
  cases event with
  | newFromParent i =>
    obtain ⟨-, -, -, -, -, -, rfl⟩ := newFromParent_eq_some hstep
    exact Finset.Subset.refl _
  | registerRecentBlockhash i new timestamp =>
    obtain ⟨-, -, -, -, rfl⟩ := registerRecentBlockhash_eq_some hstep
    exact subset_insert _ _
  | updateTransactionStatuses i processed =>
    obtain ⟨-, -, -, -, -, rfl⟩ := commit_eq_some hstep
    exact subset_union_left
  | squash i =>
    obtain ⟨-, -, -, rfl⟩ := squash_eq_some hstep
    exact Finset.Subset.refl _
  | clearSlotEntries slot =>
    obtain ⟨_, _, hstep⟩ := bind_eq_some_iff.mp hstep
    cases hstep
    exact Finset.Subset.refl _

/-- What is recorded stays recorded, unless its slot is cleared. -/
theorem step_recorded (h : Inv tree s) (hstep : step tree s event = some s')
    (hclear : event ≠ .clearSlotEntries e.slot)
    (hrecorded : StatusCache.Recorded { r | Rooted tree s r } s.statusCache e) :
    StatusCache.Recorded { r | Rooted tree s' r } s'.statusCache e := by
  cases event with
  | newFromParent i =>
    obtain ⟨-, -, -, -, -, -, rfl⟩ := newFromParent_eq_some hstep
    exact hrecorded
  | registerRecentBlockhash i new timestamp =>
    obtain ⟨-, -, -, -, rfl⟩ := registerRecentBlockhash_eq_some hstep
    exact hrecorded
  | updateTransactionStatuses i processed =>
    obtain ⟨-, cache, -, -, hcache, rfl⟩ := commit_eq_some hstep
    rcases hrecorded with ⟨r, hr, hout, hle⟩ | hpresent
    · refine .inl ⟨r, hr, ?_, hle⟩
      rwa [updateTransactionStatuses_roots hcache]
    · exact .inr (updateTransactionStatuses_presentIn hpresent hcache)
  | squash i =>
    have hset := h.rooted_squash hstep
    have hkept := (h.window.foldl_addRoot ((i :: parents tree s i).map tree.slot)).2 e hrecorded
    rw [← hset] at hkept
    obtain ⟨bank, -, -, rfl⟩ := squash_eq_some hstep
    exact hkept
  | clearSlotEntries slot =>
    obtain ⟨cache, hcache, hstep⟩ := bind_eq_some_iff.mp hstep
    cases hstep
    obtain ⟨hroots, hpresent⟩ := clearSlotEntries_eq_some hcache
    have hne : e.slot ≠ slot := fun heq => hclear (heq ▸ rfl)
    rcases hrecorded with ⟨r, hr, hout, hle⟩ | hp
    · exact .inl ⟨r, hr, hroots.symm ▸ hout, hle⟩
    · exact .inr (hpresent e hne hp)

/-- **A recorded transaction is kept** by every event but the clearing of its slot. -/
theorem step_kept (h : Inv tree s) (hstep : step tree s event = some s')
    (hclear : event ≠ .clearSlotEntries (tree.slot i)) (hkept : Kept tree s i tx) :
    Kept tree s' i tx := by
  constructor
  · exact step_seen hstep hkept.seen
  · intro k b hb hhash
    rcases step_bank hstep hb with ⟨b₀, hb0, hchanges⟩ | ⟨_, _, _, _, _, _, _, rfl⟩
    · rcases hchanges.queue with ⟨-, heq⟩ | ⟨new, _, -, hfresh, hnew, -⟩
      · exact hkept.older k b₀ hb0 (heq.symm.trans hhash)
      · cases hnew.symm.trans hhash
        exact absurd hkept.seen hfresh
    · exact absurd hhash (by simp [child])
  · exact step_recorded h hstep hclear hkept.recorded

theorem run_kept (h : Inv tree s) (hrun : run tree s events = some s')
    (hclear : ∀ event ∈ events, event ≠ .clearSlotEntries (tree.slot i)) (hkept : Kept tree s i tx)
    :
    Kept tree s' i tx := by
  rw [run] at hrun
  induction events generalizing s with
  | nil => exact (some.inj hrun) ▸ hkept
  | cons event events ih =>
    obtain ⟨mid, hmid, hrest⟩ := bind_eq_some_iff.mp hrun
    have hmid' := step_kept h hmid (hclear event mem_cons_self) hkept
    exact ih (step_inv h hmid) hrest (fun e he => hclear e (mem_cons_of_mem _ he)) hmid'

/-! ## Ages and distances -/

/-- **The age of a blockhash bounds the distance of the banks.** -/
theorem blockHeight_le {maxAge : ℕ} (h : Inv tree s) (hkept : Kept tree s i tx)
    (hb : s.banks[k]? = some b) (hbi : s.banks[i]? = some bi)
    (hanc : IsAncestorOrSelf tree.parent i k) (hage : maxAge ≤ maxProcessingAge)
    (hvalid : (b.blockhashQueue.getHashInfoIfValid tx.recentBlockhash maxAge).isSome) :
    b.blockHeight ≤ bi.blockHeight + (maxProcessingAge + 1) := by
  obtain ⟨info, hinfo⟩ := isSome_iff_exists.mp hvalid
  obtain ⟨hget, hindex⟩ := filter_eq_some_iff.mp hinfo
  have hindex : b.blockhashQueue.lastHashIndex - info.hashIndex ≤ maxAge := of_decide_eq_true hindex
  have hlast := h.queue_last k b hb
  rcases h.queue_hashes k b hb _ info hget with hzero | ⟨j, bj, hjk, hbj, hhash, hj⟩
  · omega
  · -- the bank of the hash is not below the bank of the transaction
    have hji : IsAncestorOrSelf tree.parent j i := by
      rcases hanc.total_of_common hjk with hij | hji
      · rcases isAncestorOrSelf_iff.mp hij with rfl | hij
        · exact refl
        · exact absurd hij (hkept.older j bj hbj hhash)
      · exact hji
    obtain ⟨bj', hbj', hle⟩ := h.exists_ancestorOrSelf hbi hji
    cases hbj.symm.trans hbj'
    omega

/-- Ancestors of one bank with one height are one bank. -/
theorem Inv.eq_of_blockHeight_eq (h : Inv tree s) {bj : Bank} (hbi : s.banks[i]? = some bi)
    (hbj : s.banks[j]? = some bj) (hi : IsAncestorOrSelf tree.parent i k)
    (hj : IsAncestorOrSelf tree.parent j k) (hheight : bi.blockHeight = bj.blockHeight) :
    i = j := by
  rcases hi.total_of_common hj with hij | hji
  · refine (isAncestorOrSelf_iff.mp hij).resolve_right fun hanc => ?_
    obtain ⟨bi', hbi', hlt, -⟩ := h.exists_ancestor hbj hanc
    cases hbi.symm.trans hbi'
    omega
  · refine ((isAncestorOrSelf_iff.mp hji).resolve_right fun hanc => ?_).symm
    obtain ⟨bj', hbj', hlt, -⟩ := h.exists_ancestor hbi hanc
    cases hbj.symm.trans hbj'
    omega

/-- **No root that is not older has left the window**, if the bank is so near that there are fewer
roots above the recorded transaction than the window holds. -/
theorem not_left_window {r : ℕ} (h : Inv tree s) (hb : s.banks[k]? = some b)
    (hbi : s.banks[i]? = some bi) (hik : IsAncestorOrSelf tree.parent i k)
    (hroot : IsAncestorOrSelf tree.parent s.root k)
    (hheight : b.blockHeight ≤ bi.blockHeight + (maxProcessingAge + 1)) (hr : Rooted tree s r)
    (hle : tree.slot i ≤ r) : r ∈ s.statusCache.roots := by
  by_contra hout
  obtain ⟨hcard, hlt⟩ := h.window.kept r hr hout
  have hrank : ∀ a c, tree.parent c = some a → tree.slot a < tree.slot c :=
    fun a c hp => tree.slot_lt c a hp
  -- a root is the slot of a bank above the recorded one, at a height of its own
  have hbank : ∀ r' ∈ s.statusCache.roots, ∃ j height : ℕ, tree.slot j = r' ∧
      (∃ bj, s.banks[j]? = some bj ∧ bj.blockHeight = height) ∧
      IsAncestorOrSelf tree.parent j k ∧ bi.blockHeight < height ∧
      height ≤ bi.blockHeight + (maxProcessingAge + 1) := by
    intro r' hr'
    obtain ⟨j, hj, rfl⟩ := h.window.mem_added r' hr'
    have hjk : IsAncestorOrSelf tree.parent j k := hj.trans hroot
    obtain ⟨bj, hbj, hjle⟩ := h.exists_ancestorOrSelf hb hjk
    have hslot : tree.slot i < tree.slot j := hle.trans_lt (hlt _ hr')
    have hij : IsAncestor tree.parent i j := by
      rcases hik.total_of_common hjk with hij | hji
      · exact (isAncestorOrSelf_iff.mp hij).resolve_left fun heq => by
          rw [heq] at hslot
          exact lt_irrefl _ hslot
      · exact absurd (hji.rank_le tree.slot hrank) (not_le.mpr hslot)
    obtain ⟨bi', hbi', hheight', -⟩ := h.exists_ancestor hbj hij
    cases hbi.symm.trans hbi'
    exact ⟨j, bj.blockHeight, rfl, ⟨bj, hbj, rfl⟩, hjk, hheight', by omega⟩
  choose! node height hslot hget hanc hgt hle' using hbank
  have hcount : s.statusCache.roots.card ≤
      (Finset.Ioc bi.blockHeight (bi.blockHeight + (maxProcessingAge + 1))).card := by
    refine card_le_card_of_injOn height ?_ ?_
    · intro r' hr'
      exact mem_coe.mpr (mem_Ioc.mpr ⟨hgt r' hr', hle' r' hr'⟩)
    · intro r1 h1 r2 h2 heq
      obtain ⟨b1, hb1, hheight1⟩ := hget r1 h1
      obtain ⟨b2, hb2, hheight2⟩ := hget r2 h2
      have hnode := h.eq_of_blockHeight_eq hb1 hb2 (hanc r1 h1) (hanc r2 h2)
        (hheight1.trans (heq.trans hheight2.symm))
      rw [← hslot r1 h1, ← hslot r2 h2, hnode]
  rw [Nat.card_Ioc, hcard] at hcount
  simp only [maxCacheEntries, maxProcessingAge] at hcount
  omega

end BankForks

/-! ## The check refuses it -/

section
variable {T Details : Type}

theorem getProcessedSlot_total (bank : Bank) (cache : StatusCache T) (tx : Transaction) :
    ∃ slot, getProcessedSlot bank cache tx = some slot := by
  have hlength : cachedKeySize ≤ tx.messageHash.val.length := by
    rw [tx.messageHash.property]
    decide
  obtain ⟨found, hfound⟩ := getStatus_total hlength cache tx.recentBlockhash bank.ancestors
  exact ⟨found.map Prod.fst, by rw [getProcessedSlot, hfound]; rfl⟩

theorem checkTransactionStatus_total (bank : Bank) (cache : StatusCache T)
    (tx : Transaction × Except TransactionError Details) :
    ∃ result, checkTransactionStatus bank cache tx = some result := by
  rw [checkTransactionStatus]
  split
  · exact ⟨_, rfl⟩
  · obtain ⟨slot, hslot⟩ := getProcessedSlot_total bank cache tx.1
    rw [hslot]
    cases slot with
    | none | some slot => exact ⟨_, rfl⟩

/-- A transaction whose entry is found is refused. -/
theorem checkStatusCache_of_getStatus {bank : Bank} {cache : StatusCache T}
    {sanitizedTxs : List Transaction} {lockResults : List (Except TransactionError Details)}
    (collect : Bool) {n : ℕ} {tx : Transaction} {details : Details}
    (htx : (sanitizedTxs.zip lockResults)[n]? = some (tx, .ok details)) {found : ℕ × T}
    (hfound : cache.getStatus tx.messageHash.val tx.recentBlockhash bank.ancestors =
      some (some found)) :
    ∃ results slots, checkStatusCache bank cache sanitizedTxs lockResults collect =
      some (results, slots) ∧ results[n]? = some (.error .alreadyProcessed) := by
  obtain ⟨checked, hchecked⟩ := Fallible.exists_mapM (l := sanitizedTxs.zip lockResults)
    fun tx _ => isSome_iff_exists.mpr (checkTransactionStatus_total bank cache tx)
  have hone : checkTransactionStatus bank cache (tx, .ok details) =
      some (.error .alreadyProcessed, some found.1) := by
    have hslot : getProcessedSlot bank cache tx = some (some found.1) := by
      rw [getProcessedSlot, hfound]
      rfl
    show (getProcessedSlot bank cache tx).bind _ = _
    rw [hslot]
    rfl
  refine ⟨checked.map Prod.fst, _, by rw [checkStatusCache, hchecked]; rfl, ?_⟩
  have hget := congrArg (·[n]?) (Fallible.mapM_eq_some_iff.mp hchecked)
  simp only [getElem?_map, htx, map_some, hone] at hget ⊢
  obtain ⟨result, hresult, heq⟩ := map_eq_some_iff.mp hget.symm
  rw [hresult, map_some, some.inj heq]

/-- **No blockhash transaction is accepted twice on one fork.**  In a run from genesis, a
transaction is recorded in bank `i`, and its slot is not cleared afterwards. A bank `k` is `i` or
descends from it, and is the latest root or descends from it. As long as the blockhash passes the
check of its age in `k`, every transaction with this message hash and blockhash that has passed the
checks before is refused as already processed, whatever offsets were drawn. -/
theorem checkStatusCache_alreadyProcessed {tree : BankTree}
    {hash lamportsPerSignature timestamp : ℕ} {before after : List (BankEvent T)} {i : ℕ}
    {processed : List (Processed T)} {p : Processed T} {s₀ s₁ s : BankForks T}
    (hbefore : run tree (genesis hash lamportsPerSignature timestamp) before = some s₀)
    (hcommit : step tree s₀ (.updateTransactionStatuses i processed) = some s₁)
    (hp : p ∈ processed) (hresult : p.result.isSome)
    (hafter : run tree s₁ after = some s)
    (hclear : ∀ event ∈ after, event ≠ .clearSlotEntries (tree.slot i))
    {k : ℕ} {b : Bank} (hb : s.banks[k]? = some b) (hik : IsAncestorOrSelf tree.parent i k)
    (hroot : IsAncestorOrSelf tree.parent s.root k) {maxAge : ℕ}
    (hage : maxAge ≤ maxProcessingAge)
    (hvalid : (b.blockhashQueue.getHashInfoIfValid p.transaction.recentBlockhash maxAge).isSome)
    {sanitizedTxs : List Transaction} {lockResults : List (Except TransactionError Details)}
    (collectProcessedSlots : Bool) {n : ℕ} {tx : Transaction} {details : Details}
    (htx : (sanitizedTxs.zip lockResults)[n]? = some (tx, .ok details))
    (hmessage : tx.messageHash = p.transaction.messageHash)
    (hblockhash : tx.recentBlockhash = p.transaction.recentBlockhash) :
    ∃ results slots,
      checkStatusCache b s.statusCache sanitizedTxs lockResults collectProcessedSlots =
        some (results, slots) ∧
      results[n]? = some (.error .alreadyProcessed) := by
  have hinv0 := run_inv (genesis_inv hash lamportsPerSignature timestamp)
    hbefore
  have hinv1 := step_inv hinv0 hcommit
  have hinv := run_inv hinv1 hafter
  have hkept := run_kept hinv1 hafter hclear
    (commit_kept hinv0 hcommit hp hresult)
  obtain ⟨bi, hbi, -⟩ := hinv.exists_ancestorOrSelf hb hik
  have hheight := blockHeight_le hinv hkept hb hbi hik hage hvalid
  have hwindow : ∀ r, BankForks.Rooted tree s r → tree.slot i ≤ r → r ∈ s.statusCache.roots :=
    fun r hr hle => not_left_window hinv hb hbi hik hroot hheight hr hle
  -- the entry is still there, and its slot is an ancestor of the bank or a root
  have hpresent := hkept.recorded.resolve_left fun ⟨r, hr, hout, hle⟩ => hout (hwindow r hr hle)
  have hfork : tree.slot i ∈ b.ancestors ∨ tree.slot i ∈ s.statusCache.roots :=
    (hinv.ancestors k b hb i hik).imp_right fun hr => hwindow _ hr (le_refl _)
  obtain ⟨found, hfound⟩ := hpresent.getStatus hfork
  rw [← hmessage, ← hblockhash] at hfound
  exact checkStatusCache_of_getStatus collectProcessedSlots htx hfound

/-- One branch without forks, every slot with its bank. -/
def chainTree : BankTree where
  parent i := if i = 0 then none else some (i - 1)
  slot i := i
  genesis_parent := rfl
  genesis_slot := rfl
  slot_lt := by
    intro i p hp
    split_ifs at hp
    have := some.inj hp
    omega

/-- A transaction with the blockhash 7. -/
def exampleTransaction : Transaction where
  messageHash := ⟨List.range 32, rfl⟩
  signature := ⟨List.range 64, rfl⟩
  recentBlockhash := 7

/-- A transaction of bank 1 is refused in bank 2, after bank 1 became the root. -/
theorem checkStatusCache_alreadyProcessed_chain :
    ∃ (s₀ s₁ s : BankForks Unit) (b : Bank),
      run chainTree (genesis 5 0 0)
        [.registerRecentBlockhash 0 7 0, .newFromParent 1] = some s₀ ∧
      step chainTree s₀
        (.updateTransactionStatuses 1 [⟨exampleTransaction, some (), 4, 9⟩]) = some s₁ ∧
      run chainTree s₁
        [.registerRecentBlockhash 1 8 0, .newFromParent 2, .squash 1] = some s ∧
      s.banks[2]? = some b ∧
      ∃ results slots,
        checkStatusCache b s.statusCache [exampleTransaction]
          [(.ok () : Except TransactionError Unit)] true = some (results, slots) ∧
        results[0]? = some (.error .alreadyProcessed) := by
  have hrun : ((run chainTree (genesis 5 0 0 : BankForks Unit)
      [.registerRecentBlockhash 0 7 0, .newFromParent 1]).bind fun s₀ =>
    (step chainTree s₀
      (.updateTransactionStatuses 1 [⟨exampleTransaction, some (), 4, 9⟩])).bind fun s₁ =>
    (run chainTree s₁
      [.registerRecentBlockhash 1 8 0, .newFromParent 2, .squash 1]).bind fun s =>
    s.banks[2]?.bind fun b =>
      if s.root = 1 ∧ (b.blockhashQueue.getHashInfoIfValid 7 150).isSome then some ()
      else none).isSome := by decide +kernel
  obtain ⟨_, h⟩ := isSome_iff_exists.mp hrun
  obtain ⟨s₀, hbefore, h⟩ := bind_eq_some_iff.mp h
  obtain ⟨s₁, hcommit, h⟩ := bind_eq_some_iff.mp h
  obtain ⟨s, hafter, h⟩ := bind_eq_some_iff.mp h
  obtain ⟨b, hb, h⟩ := bind_eq_some_iff.mp h
  split_ifs at h with hend
  have hanc : IsAncestorOrSelf chainTree.parent 1 2 :=
    single (show chainTree.parent 2 = some 1 by decide)
  refine ⟨s₀, s₁, s, b, hbefore, hcommit, hafter, hb, ?_⟩
  exact checkStatusCache_alreadyProcessed hbefore hcommit mem_cons_self rfl hafter
    (by simp) hb hanc (hend.1 ▸ hanc) (le_refl _) hend.2 true rfl rfl rfl

end
end FlowraValidator.Runtime
