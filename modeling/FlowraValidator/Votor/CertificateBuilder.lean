import FlowraValidator.Votor.VotePool

/-!
# Building certificates

`votor/src/consensus_pool/certificate_builder.rs`: votes are aggregated into one signature and a
bitmap of ranks, or two bitmaps where a certificate admits two types of votes.

A bitmap is the list of ranks whose bit is set, all below `maximumValidators`. Adding signatures is
assumed to succeed, so a signature is an element of a commutative monoid. The encoding of bitmaps
is an external crate: a `SignerStore` is any encoder that behaves as that crate documents. Outside
`Except`, `none` is a failed assertion.
-/

namespace FlowraValidator.Votor
open CertificateType VoteMessage List Option

/-- `MAXIMUM_VALIDATORS`. -/
def maximumValidators : ℕ := 4096

/-! ## The encoder -/

/-- `EncodeError`: the one that names a signer in both bitmaps, and the other ones. -/
inductive EncodeError where
  | invalidBitCombination
  | other

/-- The encoder of `solana_signer_store`: a base-2 encoding of one bitmap, and a base-3 encoding of
two bitmaps of the same length, where no bit may be set in both. -/
structure SignerStore where
  encodeBase2 : List Bool → Except EncodeError (List ℕ)
  encodeBase3 : List Bool → List Bool → Except EncodeError (List ℕ)
  base2_ok : ∀ bits, bits.length ≤ maximumValidators → ∃ bytes, encodeBase2 bits = .ok bytes
  base3_ok : ∀ bits₀ bits₁, bits₀.length ≤ maximumValidators → bits₀.length = bits₁.length →
    (∀ p ∈ bits₀.zip bits₁, p ≠ (true, true)) → ∃ bytes, encodeBase3 bits₀ bits₁ = .ok bytes

/-- The digits themselves, as an encoding: it accepts and refuses what the crate does. -/
def digitStore : SignerStore where
  encodeBase2 := fun bits =>
    if bits.length ≤ maximumValidators then .ok (bits.map Bool.toNat) else .error .other
  encodeBase3 := fun bits₀ bits₁ =>
    if bits₀.length ≤ maximumValidators ∧ bits₀.length = bits₁.length then
      if (true, true) ∈ bits₀.zip bits₁ then .error .invalidBitCombination
      else .ok ((bits₀.zip bits₁).map fun p => p.1.toNat + 2 * p.2.toNat)
    else .error .other
  base2_ok := fun _ h => ⟨_, if_pos h⟩
  base3_ok := by
    intro bits₀ bits₁ hle heq hboth
    have hno : (true, true) ∉ bits₀.zip bits₁ := fun h => hboth _ h rfl
    exact ⟨_, by rw [if_pos ⟨hle, heq⟩, if_neg hno]⟩

/-! ## Bitmaps -/

inductive AggregateError where
  | invalidRank (rank : ℕ)
  | validatorAlreadyIncluded

inductive BuildError where
  | encode (error : EncodeError)

def trySetBitmap (bitmap : List ℕ) (rank : ℕ) : Except AggregateError (List ℕ) :=
  if rank < maximumValidators then
    if rank ∈ bitmap then .error .validatorAlreadyIncluded else .ok (bitmap ++ [rank])
  else .error (.invalidRank rank)

/-- `last_one().map_or(0, |i| i.saturating_add(1))`: the length up to the last bit that is set. -/
def bitmapLength (bitmap : List ℕ) : ℕ := bitmap.foldr (fun rank n => max (rank + 1) n) 0

/-- The first `n` bits. -/
def bitmapBits (n : ℕ) (bitmap : List ℕ) : List Bool :=
  (List.range n).map fun i => decide (i ∈ bitmap)

section
variable {Sig : Type}

/-- The loop over votes of one type. -/
def setBitmap (ty : VoteType) :
    List ℕ → List (VoteMessage Sig) → Option (Except AggregateError (List ℕ))
  | bitmap, [] => some (.ok bitmap)
  | bitmap, m :: ms =>
    if m.vote.getType = ty then
      match trySetBitmap bitmap m.rank with
      | .ok bitmap => setBitmap ty bitmap ms
      | .error e => some (.error e)
    else none

/-- The loop over votes of two types; the second bitmap is created when it is needed. -/
def setBitmaps (ty₀ ty₁ : VoteType) : List ℕ → Option (List ℕ) → List (VoteMessage Sig) →
    Option (Except AggregateError (List ℕ × Option (List ℕ)))
  | bitmap₀, bitmap₁, [] => some (.ok (bitmap₀, bitmap₁))
  | bitmap₀, bitmap₁, m :: ms =>
    if m.vote.getType = ty₀ then
      match trySetBitmap bitmap₀ m.rank with
      | .ok bitmap₀ => setBitmaps ty₀ ty₁ bitmap₀ bitmap₁ ms
      | .error e => some (.error e)
    else if m.vote.getType = ty₁ then
      match trySetBitmap (bitmap₁.getD []) m.rank with
      | .ok bitmap => setBitmaps ty₀ ty₁ bitmap₀ (some bitmap) ms
      | .error e => some (.error e)
    else none

end

/-! ## The builder -/

inductive BuilderType (Sig : Type) where
  | singleVote (signature : Sig) (bitmap : List ℕ)
  | skip (signature₀ : Sig) (bitmap₀ : List ℕ) (sigAndBitmap₁ : Option (Sig × List ℕ))
  | notarFallback (signature : Sig) (bitmap₀ : List ℕ) (bitmap₁ : Option (List ℕ))

namespace BuilderType
variable {Sig : Type} [AddCommMonoid Sig]

def new : CertificateType → BuilderType Sig
  | .skip _ => .skip 0 [] none
  | .notarizeFallback _ _ => .notarFallback 0 [] none
  | _ => .singleVote 0 []

/-- The sum of the signatures of the votes of one type. -/
def sumOfType (ty : VoteType) (msgs : List (VoteMessage Sig)) : Sig :=
  ((msgs.filter fun m => m.vote.getType = ty).map signature).sum

def aggregate (b : BuilderType Sig) (certType : CertificateType) (msgs : List (VoteMessage Sig)) :
    Option (Except AggregateError (BuilderType Sig)) :=
  match b, certType.limitsAndVoteTypes.2 with
  | .skip signature₀ bitmap₀ sigAndBitmap₁, [ty₀, ty₁] =>
    (setBitmaps ty₀ ty₁ bitmap₀ (sigAndBitmap₁.map Prod.snd) msgs).map <|
      Except.map fun (bitmap₀, bitmap₁) =>
        .skip (signature₀ + sumOfType ty₀ msgs) bitmap₀
          (bitmap₁.map fun bitmap =>
            ((sigAndBitmap₁.map Prod.fst).getD 0 + sumOfType ty₁ msgs, bitmap))
  | .notarFallback signature bitmap₀ bitmap₁, [ty₀, ty₁] =>
    (setBitmaps ty₀ ty₁ bitmap₀ bitmap₁ msgs).map <|
      Except.map fun (bitmap₀, bitmap₁) =>
        .notarFallback (signature + (msgs.map VoteMessage.signature).sum) bitmap₀ bitmap₁
  | .singleVote signature bitmap, [ty] =>
    (setBitmap ty bitmap msgs).map <|
      Except.map fun bitmap => .singleVote (signature + (msgs.map VoteMessage.signature).sum) bitmap
  | _, _ => none

variable (store : SignerStore)

def buildCertFromBitmap (certType : CertificateType) (signature : Sig) (bitmap : List ℕ) :
    Except BuildError (Certificate Sig) :=
  match store.encodeBase2 (bitmapBits (bitmapLength bitmap) bitmap) with
  | .ok bytes => .ok ⟨certType, signature, bytes⟩
  | .error e => .error (.encode e)

def buildCertFromBitmaps (certType : CertificateType) (signature : Sig)
    (bitmap₀ bitmap₁ : List ℕ) : Except BuildError (Certificate Sig) :=
  let newLength := max (bitmapLength bitmap₀) (bitmapLength bitmap₁)
  match store.encodeBase3 (bitmapBits newLength bitmap₀) (bitmapBits newLength bitmap₁) with
  | .ok bytes => .ok ⟨certType, signature, bytes⟩
  | .error e => .error (.encode e)

def build (b : BuilderType Sig) (certType : CertificateType) :
    Except BuildError (Certificate Sig) :=
  match b with
  | .singleVote signature bitmap => buildCertFromBitmap store certType signature bitmap
  | .skip signature₀ bitmap₀ none => buildCertFromBitmap store certType signature₀ bitmap₀
  | .skip signature₀ bitmap₀ (some (signature₁, bitmap₁)) =>
    buildCertFromBitmaps store certType (signature₀ + signature₁) bitmap₀ bitmap₁
  | .notarFallback signature bitmap₀ none => buildCertFromBitmap store certType signature bitmap₀
  | .notarFallback signature bitmap₀ (some bitmap₁) =>
    buildCertFromBitmaps store certType signature bitmap₀ bitmap₁

/-- `aggregate` for one slice of votes after the other. -/
def aggregateAll (certType : CertificateType) : BuilderType Sig → List (List (VoteMessage Sig)) →
    Option (Except AggregateError (BuilderType Sig))
  | b, [] => some (.ok b)
  | b, msgs :: rest =>
    match b.aggregate certType msgs with
    | some (.ok b) => aggregateAll certType b rest
    | other => other

end BuilderType

/-! ## Distinct ranks fit into the bitmaps -/

section
variable {Sig : Type} {bitmap ranks : List ℕ}

theorem trySetBitmap_of_new {rank : ℕ} (hlt : rank < maximumValidators) (hnew : rank ∉ bitmap) :
    trySetBitmap bitmap rank = .ok (bitmap ++ [rank]) := by
  unfold trySetBitmap
  rw [if_pos hlt, if_neg hnew]

/-- The head of the remaining votes is new when all ranks differ. -/
theorem not_mem_of_nodup {m : VoteMessage Sig} {ms : List (VoteMessage Sig)}
    (h : (bitmap ++ (m :: ms).map rank).Nodup) : m.rank ∉ bitmap := by
  intro hmem
  exact disjoint_of_nodup_append h hmem mem_cons_self

theorem setBitmap_of_nodup {ty : VoteType} {msgs : List (VoteMessage Sig)}
    (hty : ∀ m ∈ msgs, m.vote.getType = ty) (hlt : ∀ m ∈ msgs, m.rank < maximumValidators)
    (hnodup : (bitmap ++ msgs.map rank).Nodup) :
    setBitmap ty bitmap msgs = some (.ok (bitmap ++ msgs.map rank)) := by
  induction msgs generalizing bitmap with
  | nil => simp [setBitmap]
  | cons m ms ih =>
    rw [forall_mem_cons] at hty hlt
    unfold setBitmap
    rw [if_pos hty.1, trySetBitmap_of_new hlt.1 (not_mem_of_nodup hnodup)]
    dsimp only
    rw [ih hty.2 hlt.2 (by simpa using hnodup)]
    simp

variable {ty₀ ty₁ : VoteType} {msgs : List (VoteMessage Sig)} {ranks' : List ℕ}

/-- Votes of the first type go to the first bitmap. -/
theorem setBitmaps_first {bitmap₀ : List ℕ} {bitmap₁ : Option (List ℕ)}
    (hty : ∀ m ∈ msgs, m.vote.getType = ty₀) (hlt : ∀ m ∈ msgs, m.rank < maximumValidators)
    (hnodup : (bitmap₀ ++ msgs.map rank).Nodup) :
    setBitmaps ty₀ ty₁ bitmap₀ bitmap₁ msgs = some (.ok (bitmap₀ ++ msgs.map rank, bitmap₁)) := by
  induction msgs generalizing bitmap₀ with
  | nil => simp [setBitmaps]
  | cons m ms ih =>
    rw [forall_mem_cons] at hty hlt
    unfold setBitmaps
    rw [if_pos hty.1, trySetBitmap_of_new hlt.1 (not_mem_of_nodup hnodup)]
    dsimp only
    rw [ih hty.2 hlt.2 (by simpa using hnodup)]
    simp

/-- Votes of the second type go to the second bitmap, which is created for the first of them. -/
theorem setBitmaps_second {bitmap₀ : List ℕ} {bitmap₁ : Option (List ℕ)} (hne : ty₁ ≠ ty₀)
    (hty : ∀ m ∈ msgs, m.vote.getType = ty₁) (hlt : ∀ m ∈ msgs, m.rank < maximumValidators)
    (hnodup : (bitmap₁.getD [] ++ msgs.map rank).Nodup) :
    setBitmaps ty₀ ty₁ bitmap₀ bitmap₁ msgs =
      some (.ok (bitmap₀, if msgs.isEmpty then bitmap₁
        else some (bitmap₁.getD [] ++ msgs.map rank))) := by
  induction msgs generalizing bitmap₁ with
  | nil => rfl
  | cons m ms ih =>
    rw [forall_mem_cons] at hty hlt
    unfold setBitmaps
    rw [if_neg (fun h => hne (hty.1.symm.trans h)), if_pos hty.1,
      trySetBitmap_of_new hlt.1 (not_mem_of_nodup hnodup)]
    dsimp only
    rw [ih hty.2 hlt.2 (by simpa using hnodup)]
    cases ms <;> simp

/-- A bitmap is at most as long as there are validators. -/
theorem bitmapLength_le {n : ℕ} (h : ∀ rank ∈ ranks, rank < n) : bitmapLength ranks ≤ n := by
  unfold bitmapLength
  induction ranks with
  | nil => exact Nat.zero_le _
  | cons rank ranks ih =>
    rw [foldr_cons]
    exact max_le (h rank mem_cons_self) (ih fun r hr => h r (mem_cons_of_mem _ hr))

theorem bitmapLength_perm (h : ranks.Perm ranks') : bitmapLength ranks = bitmapLength ranks' := by
  have : LeftCommutative fun rank n : ℕ => max (rank + 1) n :=
    ⟨fun a b c => Nat.max_left_comm (a + 1) (b + 1) c⟩
  exact h.foldr_eq 0

theorem bitmapBits_perm (n : ℕ) (h : ranks.Perm ranks') :
    bitmapBits n ranks = bitmapBits n ranks' := by
  refine map_congr_left fun i _ => ?_
  rw [decide_eq_decide]
  exact h.mem_iff

end

/-! ## The certificate for some votes -/

/-- The encoding of the ranks of two types of votes; the base-3 encoding is for when there are votes
of the second type. -/
def SignerStore.encode (store : SignerStore) (ranks₀ ranks₁ : List ℕ) :
    Except EncodeError (List ℕ) :=
  if ranks₁.isEmpty then store.encodeBase2 (bitmapBits (bitmapLength ranks₀) ranks₀)
  else
    let newLength := max (bitmapLength ranks₀) (bitmapLength ranks₁)
    store.encodeBase3 (bitmapBits newLength ranks₀) (bitmapBits newLength ranks₁)

theorem SignerStore.encode_perm (store : SignerStore) {ranks₀ ranks0' ranks₁ ranks1' : List ℕ}
    (h0 : ranks₀.Perm ranks0') (h1 : ranks₁.Perm ranks1') :
    store.encode ranks₀ ranks₁ = store.encode ranks0' ranks1' := by
  unfold SignerStore.encode
  rw [bitmapLength_perm h0, bitmapLength_perm h1]
  simp only [bitmapBits_perm _ h0, bitmapBits_perm _ h1]
  rw [h1.isEmpty_eq]

/-- No rank in both bitmaps, so the encoder accepts them. -/
theorem SignerStore.exists_encode (store : SignerStore) {ranks₀ ranks₁ : List ℕ}
    (h0 : ∀ rank ∈ ranks₀, rank < maximumValidators)
    (h1 : ∀ rank ∈ ranks₁, rank < maximumValidators) (hdisj : ranks₀.Disjoint ranks₁) :
    ∃ bytes, store.encode ranks₀ ranks₁ = .ok bytes := by
  unfold SignerStore.encode
  split_ifs with hempty
  · refine store.base2_ok _ ?_
    rw [bitmapBits, length_map, length_range]
    exact bitmapLength_le h0
  · refine store.base3_ok _ _ ?_ ?_ ?_
    · rw [bitmapBits, length_map, length_range]
      exact max_le (bitmapLength_le h0) (bitmapLength_le h1)
    · simp [bitmapBits]
    · rintro p hp rfl
      unfold bitmapBits at hp
      rw [List.zip_map', List.mem_map] at hp
      obtain ⟨rank, -, hrank⟩ := hp
      rw [Prod.mk.injEq, decide_eq_true_iff, decide_eq_true_iff] at hrank
      exact hdisj hrank.1 hrank.2

/-- The ranks of the votes that go to the first bitmap of a certificate. -/
def CertificateType.firstRanks {Sig : Type} (certType : CertificateType)
    (votes : List (VoteMessage Sig)) : List ℕ :=
  (votes.filter fun m => decide (certType.limitsAndVoteTypes.2.head? = some m.vote.getType)).map
    rank

/-- The ranks of the votes that go to the second one. -/
def CertificateType.secondRanks {Sig : Type} (certType : CertificateType)
    (votes : List (VoteMessage Sig)) : List ℕ :=
  (votes.filter fun m => !decide (certType.limitsAndVoteTypes.2.head? = some m.vote.getType)).map
    rank

/-- The certificate carries the sum of the signatures of the votes, and the encoding of their
ranks. -/
structure Certificate.Aggregates {Sig : Type} [AddCommMonoid Sig] (store : SignerStore)
    (cert : Certificate Sig) (votes : List (VoteMessage Sig)) : Prop where
  signature : cert.signature = (votes.map VoteMessage.signature).sum
  bitmap : store.encode (cert.certType.firstRanks votes) (cert.certType.secondRanks votes) =
    .ok cert.bitmap

/-! ## Building from distinct validators succeeds -/

namespace BuilderType
variable {Sig : Type} [AddCommMonoid Sig]

/-- The slices that have votes. -/
def slices (votes : VoteType → List (VoteMessage Sig)) (types : List VoteType) :
    List (List (VoteMessage Sig)) :=
  types.filterMap fun ty => if (votes ty).isEmpty then none else some (votes ty)

theorem sumOfType_of_forall {ty : VoteType} {msgs : List (VoteMessage Sig)}
    (h : ∀ m ∈ msgs, m.vote.getType = ty) :
    sumOfType ty msgs = (msgs.map signature).sum := by
  unfold sumOfType
  rw [filter_eq_self.mpr fun m hm => by simpa using h m hm]

theorem sumOfType_of_ne {ty ty' : VoteType} {msgs : List (VoteMessage Sig)} (hne : ty' ≠ ty)
    (h : ∀ m ∈ msgs, m.vote.getType = ty') : sumOfType ty msgs = 0 := by
  unfold sumOfType
  rw [filter_eq_nil_iff.mpr fun m hm => by simpa [h m hm] using hne]
  rfl

section Builds
variable {store : SignerStore} {certType : CertificateType} {bytes : List ℕ}

/-- The builder makes the certificate of `votes` out of `slices`. -/
def Builds (store : SignerStore) (certType : CertificateType)
    (slices : List (List (VoteMessage Sig))) (votes : List (VoteMessage Sig)) : Prop :=
  ∃ builder cert, aggregateAll certType (.new certType) slices = some (.ok builder) ∧
    builder.build store certType = .ok cert ∧ cert.certType = certType ∧
    cert.Aggregates store votes

omit [AddCommMonoid Sig] in
/-- Votes of the two types, one after the other, go to one bitmap each. -/
theorem ranks_append {ty₀ : VoteType} (hhead : certType.limitsAndVoteTypes.2.head? = some ty₀)
    {msgs0 msgs1 : List (VoteMessage Sig)} (hty0 : ∀ m ∈ msgs0, m.vote.getType = ty₀)
    (hty1 : ∀ m ∈ msgs1, m.vote.getType ≠ ty₀) :
    certType.firstRanks (msgs0 ++ msgs1) = msgs0.map rank ∧
      certType.secondRanks (msgs0 ++ msgs1) = msgs1.map rank := by
  unfold firstRanks secondRanks
  simp only [hhead, some_inj]
  have h0 : ∀ m ∈ msgs0, decide (ty₀ = m.vote.getType) = true := by
    intro m hm
    rw [decide_eq_true_iff, hty0 m hm]
  have h1 : ∀ m ∈ msgs1, decide (ty₀ = m.vote.getType) = false := by
    intro m hm
    rw [decide_eq_false_iff_not]
    exact fun h => hty1 m hm h.symm
  constructor
  · rw [filter_append, filter_eq_self.mpr h0,
      filter_eq_nil_iff.mpr fun m hm => by simp [h1 m hm], append_nil]
  · rw [filter_append, filter_eq_nil_iff.mpr fun m hm => by simp [h0 m hm],
      filter_eq_self.mpr fun m hm => by simp [h1 m hm], nil_append]

/-- The certificate of votes of two types; the second may be missing. -/
theorem exists_aggregates (store : SignerStore) {ty₀ : VoteType}
    (hhead : certType.limitsAndVoteTypes.2.head? = some ty₀) (msgs0 msgs1 : List (VoteMessage Sig))
    (hty0 : ∀ m ∈ msgs0, m.vote.getType = ty₀) (hty1 : ∀ m ∈ msgs1, m.vote.getType ≠ ty₀)
    (hlt0 : ∀ m ∈ msgs0, m.rank < maximumValidators)
    (hlt1 : ∀ m ∈ msgs1, m.rank < maximumValidators)
    (hnodup : ((msgs0 ++ msgs1).map rank).Nodup) :
    ∃ bytes, store.encode (msgs0.map rank) (msgs1.map rank) = .ok bytes ∧
      (⟨certType, (msgs0.map signature).sum + (msgs1.map signature).sum,
        bytes⟩ : Certificate Sig).Aggregates store (msgs0 ++ msgs1) := by
  rw [map_append] at hnodup
  obtain ⟨bytes, hbytes⟩ := store.exists_encode (forall_mem_map.mpr hlt0)
    (forall_mem_map.mpr hlt1) (disjoint_of_nodup_append hnodup)
  obtain ⟨hfirst, hsecond⟩ := ranks_append hhead hty0 hty1
  refine ⟨bytes, hbytes, ?_, ?_⟩
  · rw [map_append, sum_append]
  · rwa [hfirst, hsecond]

variable {votes : VoteType → List (VoteMessage Sig)}

attribute [local simp] aggregateAll aggregate Except.map

/-- A builder for one type of votes. -/
theorem builds_single {ty : VoteType} (htypes : certType.limitsAndVoteTypes.2 = [ty])
    (hnew : (new certType : BuilderType Sig) = .singleVote 0 [])
    (hty : ∀ m ∈ votes ty, m.vote.getType = ty)
    (hlt : ∀ m ∈ votes ty, m.rank < maximumValidators)
    (hnodup : ((votes ty).map rank).Nodup) :
    Builds store certType (slices votes [ty]) (votes ty) := by
  obtain ⟨bytes, hbytes, hagg⟩ := exists_aggregates store (by rw [htypes]; rfl) (votes ty) [] hty
    (nofun) hlt (nofun)
    (by simpa using hnodup)
  rw [append_nil, map_nil, sum_nil, add_zero] at hagg
  have hall : aggregateAll certType (.singleVote 0 []) (slices votes [ty]) =
      some (.ok (.singleVote ((votes ty).map signature).sum ((votes ty).map rank))) := by
    unfold slices
    rw [filterMap_cons]
    split_ifs with hempty
    · rw [isEmpty_iff.mp hempty]
      rfl
    · simp only [filterMap_nil, aggregateAll, aggregate, htypes]
      rw [setBitmap_of_nodup hty hlt (by simpa using hnodup)]
      simp [Except.map]
  refine ⟨_, _, hnew ▸ hall, ?_, rfl, hagg⟩
  have hencode : store.encodeBase2 _ = .ok bytes := hbytes
  simp [build, buildCertFromBitmap, hencode]

variable {ty₀ ty₁ : VoteType} (htypes : certType.limitsAndVoteTypes.2 = [ty₀, ty₁])
  (hne : ty₁ ≠ ty₀) (hty : ∀ ty, ∀ m ∈ votes ty, m.vote.getType = ty)
  (hlt : ∀ ty, ∀ m ∈ votes ty, m.rank < maximumValidators)
  (hnodup : ((votes ty₀ ++ votes ty₁).map rank).Nodup)
include htypes hne hty hlt hnodup
/-- A builder for votes to notarize, of both kinds. -/
theorem aggregateAll_notarFallback :
    aggregateAll certType (.notarFallback 0 [] none) (slices votes [ty₀, ty₁]) =
      some (.ok (.notarFallback
        (((votes ty₀).map signature).sum + ((votes ty₁).map signature).sum)
        ((votes ty₀).map rank)
        (if (votes ty₁).isEmpty then none else some ((votes ty₁).map rank)))) := by
  rw [map_append] at hnodup
  have hfirst : setBitmaps ty₀ ty₁ [] none (votes ty₀) = _ :=
    setBitmaps_first (hty ty₀) (hlt ty₀) (by simpa using hnodup.of_append_left)
  have hsecond : ∀ bitmap₀, setBitmaps ty₀ ty₁ bitmap₀ none (votes ty₁) = _ := fun bitmap₀ =>
    setBitmaps_second hne (hty ty₁) (hlt ty₁) (by simpa using hnodup.of_append_right)
  unfold slices
  rw [filterMap_cons, filterMap_cons, filterMap_nil]
  by_cases h0 : (votes ty₀).isEmpty = true <;> by_cases h1 : (votes ty₁).isEmpty = true
  · simp [isEmpty_iff.mp h0, isEmpty_iff.mp h1]
  · simp [h1, isEmpty_iff.mp h0, htypes, hsecond]
  · simp [h0, isEmpty_iff.mp h1, htypes, hfirst]
  · simp [h0, h1, htypes, hfirst, hsecond]

/-- A builder for votes to skip, of both kinds. -/
theorem aggregateAll_skip :
    aggregateAll certType (.skip 0 [] none) (slices votes [ty₀, ty₁]) =
      some (.ok (.skip ((votes ty₀).map signature).sum
        ((votes ty₀).map rank)
        (if (votes ty₁).isEmpty then none
        else some (((votes ty₁).map signature).sum,
          (votes ty₁).map rank)))) := by
  rw [map_append] at hnodup
  have hfirst : setBitmaps ty₀ ty₁ [] none (votes ty₀) = _ :=
    setBitmaps_first (hty ty₀) (hlt ty₀) (by simpa using hnodup.of_append_left)
  have hsecond : ∀ bitmap₀, setBitmaps ty₀ ty₁ bitmap₀ none (votes ty₁) = _ := fun bitmap₀ =>
    setBitmaps_second hne (hty ty₁) (hlt ty₁) (by simpa using hnodup.of_append_right)
  have hsum0 := sumOfType_of_forall (hty ty₀)
  have hsum1 := sumOfType_of_forall (hty ty₁)
  have hzero := sumOfType_of_ne hne (hty ty₁)
  unfold slices
  rw [filterMap_cons, filterMap_cons, filterMap_nil]
  by_cases h0 : (votes ty₀).isEmpty = true <;> by_cases h1 : (votes ty₁).isEmpty = true
  · simp [isEmpty_iff.mp h0, isEmpty_iff.mp h1]
  · simp [h1, isEmpty_iff.mp h0, htypes, hsecond, hsum1, hzero]
  · simp [h0, isEmpty_iff.mp h1, htypes, hfirst, hsum0]
  · simp [h0, h1, htypes, hfirst, hsecond, hsum0, hsum1, hzero]

theorem builds_notarFallback
    (hnew : (new certType : BuilderType Sig) = .notarFallback 0 [] none) :
    Builds store certType (slices votes [ty₀, ty₁]) (votes ty₀ ++ votes ty₁) := by
  obtain ⟨bytes, hbytes, hagg⟩ := exists_aggregates store (by rw [htypes]; rfl) _ _ (hty ty₀)
    (fun m hm => (hty ty₁ m hm).symm ▸ hne) (hlt ty₀) (hlt ty₁) hnodup
  refine ⟨_, _, hnew ▸ aggregateAll_notarFallback htypes hne hty hlt hnodup, ?_, rfl, hagg⟩
  rw [SignerStore.encode, isEmpty_map] at hbytes
  split_ifs at hbytes ⊢
  · simp [build, buildCertFromBitmap, hbytes]
  · simp [build, buildCertFromBitmaps, hbytes]

theorem builds_skip (hnew : (new certType : BuilderType Sig) = .skip 0 [] none) :
    Builds store certType (slices votes [ty₀, ty₁]) (votes ty₀ ++ votes ty₁) := by
  obtain ⟨bytes, hbytes, hagg⟩ := exists_aggregates store (by rw [htypes]; rfl) _ _ (hty ty₀)
    (fun m hm => (hty ty₁ m hm).symm ▸ hne) (hlt ty₀) (hlt ty₁) hnodup
  refine ⟨_, _, hnew ▸ aggregateAll_skip htypes hne hty hlt hnodup, ?_, rfl, hagg⟩
  rw [SignerStore.encode, isEmpty_map] at hbytes
  split_ifs at hbytes ⊢ with hempty
  · simp [build, buildCertFromBitmap, hbytes, isEmpty_iff.mp hempty]
  · simp [build, buildCertFromBitmaps, hbytes]

end Builds

/-- **From votes of distinct validators, the certificate of these votes is built.** -/
theorem builds_of_nodup (store : SignerStore) (certType : CertificateType)
    {votes : VoteType → List (VoteMessage Sig)}
    (hty : ∀ ty, ∀ m ∈ votes ty, m.vote.getType = ty)
    (hlt : ∀ ty, ∀ m ∈ votes ty, m.rank < maximumValidators)
    (hnodup : ((certType.limitsAndVoteTypes.2.flatMap votes).map rank).Nodup) :
    Builds store certType (slices votes certType.limitsAndVoteTypes.2)
      (certType.limitsAndVoteTypes.2.flatMap votes) := by
  cases certType with
  | skip s =>
    simp only [limitsAndVoteTypes, flatMap_cons, flatMap_nil, append_nil] at hnodup ⊢
    exact builds_skip rfl (by decide) hty hlt hnodup rfl
  | notarizeFallback s b =>
    simp only [limitsAndVoteTypes, flatMap_cons, flatMap_nil, append_nil] at hnodup ⊢
    exact builds_notarFallback rfl (by decide) hty hlt hnodup rfl
  | finalize s | finalizeFast s b | notarize s b | genesis s b =>
    simp only [limitsAndVoteTypes, flatMap_singleton] at hnodup ⊢
    exact builds_single rfl rfl (hty _) (hlt _) hnodup

end BuilderType
end FlowraValidator.Votor
