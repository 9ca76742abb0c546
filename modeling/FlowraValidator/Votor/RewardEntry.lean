import FlowraValidator.Lib.KeyedList
import FlowraValidator.Votor.CertificateBuilder

/-!
# The reward votes of a slot

`votor/src/consensus_rewards/entry.rs` and its two submodules: the skip and notarization votes that
a leader has seen for one slot, and the reward certificates built from them.

A bit vector is a list of bits here. Adding signatures is assumed to succeed, as in the certificate
builder, so `AddVoteError::Bls` is never returned. The partial certificates for different blocks
are in a hash map; the order in which it is iterated is an argument of the functions that depend on
it. `none` is a failed `unwrap`.

* `Entry.Counts`: the vote is in one of the certificates.
* `Entry.addVote_spec`: what one vote changes in an entry.
-/

namespace FlowraValidator.Votor
open KeyedList List Option Prod

/-- `AddVoteError` of `entry.rs`. -/
inductive Entry.AddVoteError where
  | invalidRank
  | duplicate
  | bls
  deriving DecidableEq

inductive BuildSigBitmapError where
  | encode (error : EncodeError)
  | empty

inductive BuildRewardCertsRespError where
  | rewardCertTryNew
  | encode (error : EncodeError)

/-! ## One certificate -/

/-- `PartialCert`: the votes for one certificate. -/
structure PartialCert (Sig : Type) where
  signature : Sig
  bitvec : List Bool
  cnt : ℕ
  validators : List Pubkey

namespace PartialCert
variable {Sig : Type}

def wantsVote (p : PartialCert Sig) (rank : ℕ) : Bool :=
  match p.bitvec[rank]? with
  | none => false
  | some ind => !ind

/-- `bitvec.last_one().map_or(0, |i| i.saturating_add(1))`. -/
def usedLength (bits : List Bool) : ℕ := (bits.reverse.dropWhile fun bit => !bit).length

def votesSeen (p : PartialCert Sig) : ℕ := p.cnt

def buildSigBitmap (store : SignerStore) (p : PartialCert Sig) :
    Except BuildSigBitmapError (Sig × List ℕ × List Pubkey) :=
  if p.cnt = 0 then .error .empty
  else
    match store.encodeBase2 (p.bitvec.take (usedLength p.bitvec)) with
    | .error e => .error (.encode e)
    | .ok bitmap => .ok (p.signature, bitmap, p.validators)

variable [AddCommMonoid Sig]

def new (maxValidators : ℕ) : PartialCert Sig :=
  { signature := 0, bitvec := List.replicate maxValidators false, cnt := 0, validators := [] }

def addVote (p : PartialCert Sig) (rankMap : EpochStakes) (rank : ℕ) (signature : Sig) :
    Option (Except Entry.AddVoteError (PartialCert Sig)) :=
  match p.bitvec[rank]? with
  | none => some (.error .invalidRank)
  | some true => some (.error .duplicate)
  | some false =>
    (rankMap.entry rank).map fun e =>
      .ok
        { signature := p.signature + signature
          bitvec := p.bitvec.set rank true
          cnt := saturatingSucc p.cnt
          validators := p.validators ++ [e.1] }

/-- The vote of a rank is in the certificate. -/
def Has (p : PartialCert Sig) (rank : ℕ) : Prop := p.bitvec[rank]? = some true

theorem not_has_new (maxValidators rank : ℕ) :
    ¬ (new maxValidators : PartialCert Sig).Has rank := by
  intro h
  have hmem := mem_of_getElem? h
  rw [new] at hmem
  exact absurd (eq_of_mem_replicate hmem) (by decide)

variable {p : PartialCert Sig} {rank : ℕ}

/-- A vote that is wanted is added, as long as the map has the ranks of the bit vector. -/
theorem addVote_of_wantsVote {rankMap : EpochStakes} (signature : Sig)
    (hlen : p.bitvec.length ≤ rankMap.entries.length) (h : p.wantsVote rank = true) :
    ∃ p', p.addVote rankMap rank signature = some (.ok p') ∧
      p'.bitvec = p.bitvec.set rank true ∧ rank < p.bitvec.length := by
  unfold wantsVote at h
  unfold addVote
  match hbit : p.bitvec[rank]? with
  | none => simp [hbit] at h
  | some true => simp [hbit] at h
  | some false =>
    obtain ⟨hlt, -⟩ := List.getElem?_eq_some_iff.mp hbit
    have hentry : rankMap.entry rank = some rankMap.entries[rank] := getElem?_eq_getElem (by omega)
    rw [hentry]
    exact ⟨_, rfl, rfl, hlt⟩

theorem addVote_of_not_wantsVote (rankMap : EpochStakes) (signature : Sig)
    (h : p.wantsVote rank = false) :
    ∃ e, p.addVote rankMap rank signature = some (.error e) := by
  unfold wantsVote at h
  unfold addVote
  match hbit : p.bitvec[rank]? with
  | none | some true => exact ⟨_, rfl⟩
  | some false => simp [hbit] at h

omit [AddCommMonoid Sig] in
theorem wantsVote_of_not_has (hlt : rank < p.bitvec.length) (h : ¬ p.Has rank) :
    p.wantsVote rank = true := by
  unfold wantsVote
  rw [Has, getElem?_eq_getElem hlt, some_inj] at h
  rw [getElem?_eq_getElem hlt]
  simpa using h

omit [AddCommMonoid Sig] in
/-- Setting a bit adds one rank. -/
theorem has_of_set {p' : PartialCert Sig} (hset : p'.bitvec = p.bitvec.set rank true)
    (hlt : rank < p.bitvec.length) (r : ℕ) : p'.Has r ↔ p.Has r ∨ r = rank := by
  rw [Has, Has, hset, getElem?_set]
  by_cases hr : rank = r
  · subst hr
    simp [hlt]
  · rw [if_neg hr, or_iff_left (Ne.symm hr)]

end PartialCert

/-! ## The notarization votes of a slot -/

/-- `NotarEntry`: one partial certificate for each block id. -/
structure NotarEntry (Sig : Type) where
  voted : Finset ℕ
  partials : List (Hash × PartialCert Sig)

structure SkipRewardCertificate (Sig : Type) where
  slot : ℕ
  signature : Sig
  bitmap : List ℕ

structure NotarRewardCertificate (Sig : Type) where
  slot : ℕ
  blockId : Hash
  signature : Sig
  bitmap : List ℕ

/-- `u16::MAX`, the length that `ShortU16` can encode. -/
def u16Max : ℕ := 65535

def SkipRewardCertificate.tryNew {Sig : Type} (slot : ℕ) (signature : Sig) (bitmap : List ℕ) :
    Except BuildRewardCertsRespError (SkipRewardCertificate Sig) :=
  if u16Max < bitmap.length then .error .rewardCertTryNew else .ok ⟨slot, signature, bitmap⟩

def NotarRewardCertificate.tryNew {Sig : Type} (slot : ℕ) (blockId : Hash) (signature : Sig)
    (bitmap : List ℕ) :
    Except BuildRewardCertsRespError (NotarRewardCertificate Sig) :=
  if u16Max < bitmap.length then .error .rewardCertTryNew
  else .ok ⟨slot, blockId, signature, bitmap⟩

namespace NotarEntry
variable {Sig : Type}

def new : NotarEntry Sig := { voted := ∅, partials := [] }

def wantsVote (n : NotarEntry Sig) (rank : ℕ) : Bool := rank ∉ n.voted

/-- `max_by_key` over the partial certificates: the last one with the most votes. -/
def mostVotes (ps : List (Hash × PartialCert Sig)) : Option (Hash × PartialCert Sig) :=
  ps.foldl (fun best x =>
    match best with
    | none => some x
    | some b => if b.2.votesSeen ≤ x.2.votesSeen then some x else some b) none

/-- `order` is the order in which the hash map is iterated. -/
def buildCert (store : SignerStore)
    (order : List (Hash × PartialCert Sig) → List (Hash × PartialCert Sig)) (n : NotarEntry Sig)
    (rewardSlot : ℕ) :
    Except BuildRewardCertsRespError (Option (NotarRewardCertificate Sig × List Pubkey)) :=
  match mostVotes (order n.partials) with
  | none => .ok none
  | some (blockId, p) =>
    match p.buildSigBitmap store with
    | .error .empty => .ok none
    | .error (.encode e) => .error (.encode e)
    | .ok (signature, bitmap, validators) =>
      (NotarRewardCertificate.tryNew rewardSlot blockId signature bitmap).map fun cert =>
        some (cert, validators)

variable [AddCommMonoid Sig]

/-- `partials.entry(block_id).or_insert(PartialCert::new(max_validators))`. -/
def partialOf (n : NotarEntry Sig) (blockId : Hash) (maxValidators : ℕ) : PartialCert Sig :=
  match n.partials.find? fun x => x.1 = blockId with
  | some x => x.2
  | none => PartialCert.new maxValidators

def addVote (n : NotarEntry Sig) (rankMap : EpochStakes) (rank : ℕ) (signature : Sig)
    (blockId : Hash) (maxValidators : ℕ) :
    Option (Except Entry.AddVoteError Unit × NotarEntry Sig) :=
  if rank ∈ n.voted then some (.error .duplicate, n)
  else
    let p := n.partialOf blockId maxValidators
    (p.addVote rankMap rank signature).map fun res =>
      match res with
      | .ok p' =>
        (.ok (), { voted := insert rank n.voted
                   partials := KeyedList.upsert fst (blockId, p') n.partials })
      | .error e =>
        (.error e, { voted := (insert rank n.voted).erase rank
                     partials := KeyedList.upsert fst (blockId, p) n.partials })

end NotarEntry

/-! ## The entry of a slot -/

/-- `Entry`: the skip and notarization votes of a slot. -/
structure Entry (Sig : Type) where
  skip : PartialCert Sig
  notar : NotarEntry Sig
  maxValidators : ℕ

/-- `BuildRewardCertsRespSucc`. -/
structure BuildRewardCertsRespSucc (Sig : Type) where
  skip : Option (SkipRewardCertificate Sig)
  notar : Option (NotarRewardCertificate Sig)
  validators : List Pubkey

def BuildRewardCertsRespSucc.default {Sig : Type} : BuildRewardCertsRespSucc Sig :=
  { skip := none, notar := none, validators := [] }

namespace Entry
variable {Sig : Type}

def wantsVote (e : Entry Sig) (m : VoteMessage Sig) : Bool :=
  match m.vote with
  | .skip _ => e.skip.wantsVote m.rank
  | .notarize _ _ => e.notar.wantsVote m.rank
  | _ => false

def buildSkip (store : SignerStore) (e : Entry Sig) (rewardSlot : ℕ) :
    Except BuildRewardCertsRespError (Option (SkipRewardCertificate Sig × List Pubkey)) :=
  match e.skip.buildSigBitmap store with
  | .error .empty => .ok none
  | .error (.encode err) => .error (.encode err)
  | .ok (signature, bitmap, validators) =>
    (SkipRewardCertificate.tryNew rewardSlot signature bitmap).map fun cert =>
      some (cert, validators)

/-- `build_certs`; the validators of the skip certificate come first. -/
def buildCerts (store : SignerStore)
    (order : List (Hash × PartialCert Sig) → List (Hash × PartialCert Sig)) (e : Entry Sig)
    (rewardSlot : ℕ) : Except BuildRewardCertsRespError (BuildRewardCertsRespSucc Sig) := do
  let notar ← e.notar.buildCert store order rewardSlot
  let skip ← e.buildSkip store rewardSlot
  return {
    skip := skip.map fst
    notar := notar.map fst
    validators := (skip.map snd).getD [] ++ (notar.map snd).getD [] }

variable [AddCommMonoid Sig]

def new (maxValidators : ℕ) : Entry Sig :=
  { skip := PartialCert.new maxValidators, notar := NotarEntry.new, maxValidators }

def addVote (e : Entry Sig) (rankMap : EpochStakes) (m : VoteMessage Sig) :
    Option (Except Entry.AddVoteError Unit × Entry Sig) :=
  match m.vote with
  | .notarize _ blockId =>
    (e.notar.addVote rankMap m.rank m.signature blockId e.maxValidators).map fun x =>
      (x.1, { e with notar := x.2 })
  | .skip _ =>
    (e.skip.addVote rankMap m.rank m.signature).map fun res =>
      match res with
      | .ok p => (.ok (), { e with skip := p })
      | .error err => (.error err, e)
  | _ => some (.ok (), e)

/-- The vote is counted in the entry. -/
def Counts (e : Entry Sig) (m : VoteMessage Sig) : Prop :=
  match m.vote with
  | .skip _ => e.skip.Has m.rank
  | .notarize _ blockId => ∃ p, (blockId, p) ∈ e.notar.partials ∧ p.Has m.rank
  | _ => False

/-- The bit vectors have one bit for each rank, and `voted` knows who is in a certificate. -/
structure Valid (e : Entry Sig) (n : ℕ) : Prop where
  maxValidators : e.maxValidators = n
  skip : e.skip.bitvec.length = n
  sorted : KeyedList.Sorted fst e.notar.partials
  notar : ∀ x ∈ e.notar.partials, x.2.bitvec.length = n
  voted : ∀ x ∈ e.notar.partials, ∀ rank, x.2.Has rank → rank ∈ e.notar.voted

theorem valid_new (n : ℕ) : (new n : Entry Sig).Valid n where
  maxValidators := rfl
  skip := length_replicate
  sorted := sorted_nil
  notar := nofun
  voted := nofun

omit [AddCommMonoid Sig] in
/-- Only the ranks of the bit vectors are counted. -/
theorem Valid.rank_lt {e : Entry Sig} {n : ℕ} {m : VoteMessage Sig} (h : e.Valid n)
    (hc : e.Counts m) : m.rank < n := by
  have hlt : ∀ p : PartialCert Sig, p.bitvec.length = n → p.Has m.rank → m.rank < n := by
    intro p hlength hhas
    obtain ⟨hlt, -⟩ := List.getElem?_eq_some_iff.mp hhas
    omega
  unfold Counts at hc
  split at hc
  · exact hlt _ h.skip hc
  · obtain ⟨p, hp, hhas⟩ := hc
    exact hlt p (h.notar _ hp) hhas
  · exact hc.elim

theorem not_counts_new (n : ℕ) (m : VoteMessage Sig) : ¬ (new n : Entry Sig).Counts m := by
  unfold Counts
  split
  · exact PartialCert.not_has_new n m.rank
  · rintro ⟨p, hp, -⟩
    cases hp
  · exact not_false

/-- The partial certificate of a block, if there is one, and an empty one otherwise. -/
theorem partialOf_cases (ne : NotarEntry Sig) (blockId : Hash) (n : ℕ) :
    (blockId, ne.partialOf blockId n) ∈ ne.partials ∨
      (∀ x ∈ ne.partials, x.1 ≠ blockId) ∧ ne.partialOf blockId n = PartialCert.new n := by
  unfold NotarEntry.partialOf
  cases hfind : ne.partials.find? fun x => x.1 = blockId with
  | some x =>
    have hx := find?_some hfind
    rw [decide_eq_true_iff] at hx
    left
    rw [← hx]
    exact mem_of_find?_eq_some hfind
  | none =>
    right
    refine ⟨fun x hx => ?_, rfl⟩
    simpa using find?_eq_none.mp hfind x hx

/-- What adding a vote to an entry does to the votes that are counted. -/
structure AddSpec (e e' : Entry Sig) (n : ℕ) (m : VoteMessage Sig) : Prop where
  valid : e'.Valid n
  mono : ∀ m', e.Counts m' → e'.Counts m'
  of_counts : ∀ m' : VoteMessage Sig, m'.vote.slot = m.vote.slot → e'.Counts m' →
    e.Counts m' ∨ m'.vote = m.vote ∧ m'.rank = m.rank
  counts_of_wantsVote : e.wantsVote m = true → m.rank < n → e'.Counts m

variable {e : Entry Sig} {m : VoteMessage Sig} {rankMap : EpochStakes} {slot n : ℕ}

/-- A skip vote. -/
theorem addVote_skip (h : e.Valid n) (hn : n ≤ rankMap.entries.length)
    (hm : m.vote = .skip slot) :
    ∃ res e', e.addVote rankMap m = some (res, e') ∧ AddSpec e e' n m := by
  cases hw : e.skip.wantsVote m.rank with
  | false =>
    obtain ⟨err, herr⟩ := PartialCert.addVote_of_not_wantsVote rankMap m.signature hw
    refine ⟨.error err, e, by simp [addVote, hm, herr], h, fun _ hc => hc,
      fun _ _ hc => .inl hc, fun hwant => ?_⟩
    simp [wantsVote, hm, hw] at hwant
  | true =>
    obtain ⟨p, hp, hset, hlt⟩ :=
      PartialCert.addVote_of_wantsVote m.signature (h.skip.trans_le hn) hw
    have hhas := PartialCert.has_of_set hset hlt
    refine ⟨.ok (), { e with skip := p }, by simp [addVote, hm, hp], ?_, ?_, ?_, ?_⟩
    · refine ⟨h.maxValidators, ?_, h.sorted, h.notar, h.voted⟩
      rw [hset, length_set]
      exact h.skip
    · intro m' hc
      unfold Counts at hc ⊢
      split at hc
      · exact (hhas m'.rank).mpr (.inl hc)
      · exact hc
      · exact hc
    · intro m' hslot hc
      unfold Counts at hc ⊢
      split at hc
      · rename_i s hs
        rw [hs, hm] at hslot
        refine ((hhas m'.rank).mp hc).imp_right fun hr => ⟨?_, hr⟩
        rw [hs, hm]
        exact congrArg Vote.skip hslot
      · exact .inl hc
      · exact hc.elim
    · intro _ _
      simp only [Counts, hm]
      exact (hhas m.rank).mpr (.inr rfl)

/-- The certificate of a block is replaced by one with at most one more vote. -/
theorem addSpec_upsert (h : e.Valid n) {blockId : Hash}
    (hm : m.vote = .notarize slot blockId) {q : PartialCert Sig} {v : Finset ℕ}
    (hlen : q.bitvec.length = n)
    (hmono : ∀ rank, (e.notar.partialOf blockId n).Has rank → q.Has rank)
    (hof : ∀ rank, q.Has rank → (e.notar.partialOf blockId n).Has rank ∨ rank = m.rank)
    (hsub : e.notar.voted ⊆ v) (hself : q.Has m.rank → m.rank ∈ v)
    (hadded : m.rank < n → q.Has m.rank) :
    AddSpec e { e with notar := ⟨v, KeyedList.upsert fst (blockId, q) e.notar.partials⟩ }
      n m := by
  -- what the old certificate of the block has, the entry has
  have hold : ∀ rank, (e.notar.partialOf blockId n).Has rank →
      (blockId, e.notar.partialOf blockId n) ∈ e.notar.partials := by
    intro rank hrank
    rcases partialOf_cases e.notar blockId n with hmem | ⟨-, hnew⟩
    · exact hmem
    · rw [hnew] at hrank
      exact absurd hrank (PartialCert.not_has_new n rank)
  refine ⟨⟨h.maxValidators, h.skip, sorted_upsert h.sorted, ?_, ?_⟩, ?_, ?_, ?_⟩
  · intro x hx
    rcases mem_upsert.mp hx with rfl | ⟨hx, -⟩
    · exact hlen
    · exact h.notar x hx
  · intro x hx rank hrank
    rcases mem_upsert.mp hx with rfl | ⟨hx, -⟩
    · rcases hof rank hrank with hrank' | rfl
      · exact hsub (h.voted _ (hold rank hrank') rank hrank')
      · exact hself hrank
    · exact hsub (h.voted x hx rank hrank)
  · intro m' hc
    unfold Counts at hc ⊢
    split at hc
    · exact hc
    · rename_i s b hs
      obtain ⟨x, hx, hhas⟩ := hc
      by_cases hb : b = blockId
      · subst hb
        refine ⟨q, mem_upsert.mpr (.inl rfl), hmono _ ?_⟩
        rcases partialOf_cases e.notar b n with hmem | ⟨hno, -⟩
        · obtain ⟨-, rfl⟩ := Prod.mk.inj (h.sorted.eq_of_key_eq hx hmem rfl)
          exact hhas
        · exact absurd rfl (hno _ hx)
      · exact ⟨x, mem_upsert.mpr (.inr ⟨hx, hb⟩), hhas⟩
    · exact hc
  · intro m' hslot hc
    unfold Counts at hc ⊢
    split at hc
    · exact .inl hc
    · rename_i s b hs
      obtain ⟨x, hx, hhas⟩ := hc
      rcases mem_upsert.mp hx with heq | ⟨hx, -⟩
      · cases heq
        rcases hof _ hhas with hhas | hr
        · exact .inl ⟨_, hold _ hhas, hhas⟩
        · refine .inr ⟨?_, hr⟩
          rw [hs, hm] at hslot ⊢
          rw [show s = slot from hslot]
      · exact .inl ⟨x, hx, hhas⟩
    · exact hc.elim
  · intro _ hrank
    simp only [Counts, hm]
    exact ⟨q, mem_upsert.mpr (.inl rfl), hadded hrank⟩

/-- A notarization vote. -/
theorem addVote_notarize (h : e.Valid n) (hn : n ≤ rankMap.entries.length) {blockId : Hash}
    (hm : m.vote = .notarize slot blockId) :
    ∃ res e', e.addVote rankMap m = some (res, e') ∧ AddSpec e e' n m := by
  by_cases hvoted : m.rank ∈ e.notar.voted
  · refine ⟨.error .duplicate, e, ?_, h, fun _ hc => hc, fun _ _ hc => .inl hc, fun hwant => ?_⟩
    · simp [addVote, hm, NotarEntry.addVote, hvoted]
    · simp [wantsVote, hm, NotarEntry.wantsVote, hvoted] at hwant
  · set p := e.notar.partialOf blockId n with hp
    have hplen : p.bitvec.length = n := by
      rcases partialOf_cases e.notar blockId n with hmem | ⟨-, hnew⟩
      · exact h.notar _ hmem
      · rw [hp, hnew]
        exact length_replicate
    have hpnot : ¬ p.Has m.rank := by
      intro hhas
      rcases partialOf_cases e.notar blockId n with hmem | ⟨-, hnew⟩
      · exact hvoted (h.voted _ hmem _ hhas)
      · rw [hp, hnew] at hhas
        exact PartialCert.not_has_new n m.rank hhas
    cases hw : p.wantsVote m.rank with
    | false =>
      -- the rank does not exist; `voted` is as before
      obtain ⟨err, herr⟩ := PartialCert.addVote_of_not_wantsVote rankMap m.signature hw
      refine ⟨.error err, _, ?_, addSpec_upsert h hm hplen (fun _ hr => hr)
        (fun _ hr => .inl hr) (v := (insert m.rank e.notar.voted).erase m.rank) ?_
        (fun hhas => absurd hhas hpnot) fun hlt => ?_⟩
      · simp only [addVote, hm, NotarEntry.addVote, if_neg hvoted, h.maxValidators, ← hp, herr,
          map_some]
      · rw [Finset.erase_insert hvoted]
      · have := PartialCert.wantsVote_of_not_has (by omega) hpnot
        rw [hw] at this
        exact absurd this (by decide)
    | true =>
      obtain ⟨p', hadd, hset, hlt⟩ :=
        PartialCert.addVote_of_wantsVote m.signature (hplen.trans_le hn) hw
      have hhas := PartialCert.has_of_set hset hlt
      refine ⟨.ok (), _, ?_, addSpec_upsert h hm ?_ (fun r hr => (hhas r).mpr (.inl hr))
        (fun r hr => (hhas r).mp hr) (Finset.subset_insert m.rank _)
        (fun _ => Finset.mem_insert_self _ _) fun _ => (hhas m.rank).mpr (.inr rfl)⟩
      · simp only [addVote, hm, NotarEntry.addVote, if_neg hvoted, h.maxValidators, ← hp, hadd,
          map_some]
      · rwa [hset, length_set]

/-- **One vote for an entry**: the entry stays valid, it counts what it counted, and the vote if it
was wanted. -/
theorem addVote_spec (h : e.Valid n) (hn : n ≤ rankMap.entries.length) (m : VoteMessage Sig) :
    ∃ res e', e.addVote rankMap m = some (res, e') ∧ AddSpec e e' n m := by
  have hnone : (∀ rankMap, e.addVote rankMap m = some (.ok (), e)) → e.wantsVote m = false →
      ∃ res e', e.addVote rankMap m = some (res, e') ∧ AddSpec e e' n m := by
    intro hadd hwant
    refine ⟨.ok (), e, hadd rankMap, h, fun _ hc => hc, fun _ _ hc => .inl hc, fun hw => ?_⟩
    rw [hwant] at hw
    exact absurd hw (by decide)
  cases hm : m.vote with
  | skip slot => exact addVote_skip h hn hm
  | notarize slot blockId => exact addVote_notarize h hn hm
  | finalize slot | notarizeFallback slot blockId | skipFallback slot | genesis slot blockId =>
    exact hnone (fun _ => by simp only [addVote, hm]) (by simp only [wantsVote, hm])

end Entry
end FlowraValidator.Votor
