import FlowraValidator.TransactionView.RoundTrip

/-!
# The checks of `sanitize` and the bounds of the parser

`Transaction.Sanitized` says in terms of a transaction what the checks of `sanitize` ask of it;
`sanitize_iff` is that the checks, made on the view with its fixed-width counts, ask exactly
that. The bounds of the parser cut nothing off: a transaction that passes the checks and fits
into a packet is within them (`Transaction.Sanitized.within`).

* `transactionView_exact_codec`: an accepted view reports a transaction whose encoding is the
  accepted bytes, and the encoding of a sanitized transaction that fits into a packet is accepted.
-/

namespace FlowraValidator.Transactions
open List Option Wire Transactions TransactionView

/-! ## What the checks ask for -/

/-- The number of accounts, static ones and loaded ones. -/
def Transaction.totalAccounts (t : Transaction) : ℕ :=
  t.accountKeys.length + sumWritable t.addressTableLookups + sumReadonly t.addressTableLookups

/-- What is asked of an instruction: its program is a static account other than the fee payer,
its accounts exist, and they are not too many where that is limited. -/
structure SVMInstruction.Sanitized (instruction : SVMInstruction) (numKeys total : ℕ)
    (enableInstructionAccountsLimit : Bool) : Prop where
  program_pos : 0 < instruction.programIdIndex.toNat
  program_lt : instruction.programIdIndex.toNat < numKeys
  accounts_lt : ∀ index ∈ instruction.accounts, index.toNat < total
  accounts_le : enableInstructionAccountsLimit = true →
    instruction.accounts.length ≤ maxAccountsPerInstruction

structure Transaction.Sanitized (t : Transaction) (enableInstructionAccountsLimit : Bool) :
    Prop where
  signatures_eq : t.signatures.length = t.numRequiredSignatures.toNat
  signatures_le : t.signatures.length ≤ t.accountKeys.length
  readonlyUnsigned_le :
    t.numReadonlyUnsignedAccounts.toNat + t.numRequiredSignatures.toNat ≤ t.accountKeys.length
  readonlySigned_lt : t.numReadonlySignedAccounts.toNat < t.numRequiredSignatures.toNat
  total_le : t.totalAccounts ≤ 256
  instructions_le : t.instructions.length ≤ maxInstructionTraceLength
  instructions : ∀ instruction ∈ t.instructions,
    instruction.Sanitized t.accountKeys.length t.totalAccounts enableInstructionAccountsLimit
  lookups : ∀ lookup ∈ t.addressTableLookups,
    0 < lookup.writableIndexes.length + lookup.readonlyIndexes.length

/-! ## The checks on the view -/

theorem rejectIf_iff {condition : Prop} [Decidable condition] :
    rejectIf condition = .ok () ↔ ¬condition := by
  rw [rejectIf]
  split
  · rename_i h
    simp [h]
  · rename_i h
    simp [h]

theorem seq_eq_ok_iff {x y : Result Unit} :
    (x >>= fun _ => y) = .ok () ↔ x = .ok () ∧ y = .ok () := by
  rw [bind_eq_ok_iff]
  constructor
  · rintro ⟨⟨⟩, hx, hy⟩
    exact ⟨hx, hy⟩
  · rintro ⟨hx, hy⟩
    exact ⟨(), hx, hy⟩

theorem forM_eq_ok_iff {α : Type} {f : α → Result Unit} {xs : List α} :
    xs.forM f = .ok () ↔ ∀ x ∈ xs, f x = .ok () := by
  induction xs with
  | nil => simp [pure, Except.pure]
  | cons x xs ih =>
    rw [forall_mem_cons, ← ih]
    exact seq_eq_ok_iff

section Checks
variable {view : TransactionView false} {t : Transaction}

theorem sanitizeSignatures_iff (h : view.Reports t) :
    sanitizeSignatures view = .ok () ↔
      t.signatures.length = t.numRequiredSignatures.toNat ∧
        t.signatures.length ≤ t.accountKeys.length := by
  rw [sanitizeSignatures, seq_eq_ok_iff, rejectIf_iff, rejectIf_iff, not_not,
    UInt8.not_lt, ← UInt8.toNat_inj, UInt8.le_iff_toNat_le, h.numSignatures,
    h.numRequiredSignatures, h.numStaticAccountKeys]

theorem toNat_saturatingAdd (a b : UInt16) :
    (saturatingAdd a b).toNat = min (a.toNat + b.toNat) (2 ^ 16 - 1) := by
  rw [saturatingAdd]
  split
  · rename_i hlt
    rw [UInt16.toNat_add, Nat.mod_eq_of_lt hlt]
    omega
  · rename_i hge
    show 65535 = _
    omega

theorem toNat_totalNumberOfAccounts (h : view.Reports t) :
    (totalNumberOfAccounts view).toNat = min t.totalAccounts (2 ^ 16 - 1) := by
  rw [totalNumberOfAccounts, toNat_saturatingAdd, toNat_saturatingAdd, UInt8.toNat_toUInt16,
    h.numStaticAccountKeys, h.totalWritable, h.totalReadonly, Transaction.totalAccounts]
  omega

theorem sanitizeAccountAccess_iff (h : view.Reports t)
    (hkeys : t.numRequiredSignatures.toNat ≤ t.accountKeys.length) :
    sanitizeAccountAccess view = .ok () ↔
      t.numReadonlyUnsignedAccounts.toNat + t.numRequiredSignatures.toNat ≤ t.accountKeys.length ∧
        t.numReadonlySignedAccounts.toNat < t.numRequiredSignatures.toNat ∧
        t.totalAccounts ≤ 256 := by
  have hsub : (view.numStaticAccountKeys - view.numRequiredSignatures).toNat =
      t.accountKeys.length - t.numRequiredSignatures.toNat := by
    rw [UInt8.toNat_sub_of_le, h.numStaticAccountKeys, h.numRequiredSignatures]
    rwa [UInt8.le_iff_toNat_le, h.numStaticAccountKeys, h.numRequiredSignatures]
  have htotal : totalNumberOfAccounts view > 256 ↔ ¬t.totalAccounts ≤ 256 := by
    rw [gt_iff_lt, UInt16.lt_iff_toNat_lt, toNat_totalNumberOfAccounts h]
    show 256 < _ ↔ _
    omega
  rw [sanitizeAccountAccess, seq_eq_ok_iff, seq_eq_ok_iff, rejectIf_iff, rejectIf_iff, rejectIf_iff,
    htotal, not_not, gt_iff_lt, UInt8.not_lt, UInt8.le_iff_toNat_le, hsub, ge_iff_le, UInt8.not_le,
    UInt8.lt_iff_toNat_lt, h.numReadonlyUnsigned, h.numReadonlySigned, h.numRequiredSignatures]
  omega

theorem sanitizeInstruction_iff {maxProgramIdIndex maxAccountIndex : UInt8} {limit : Bool}
    {instruction : SVMInstruction} {numKeys total : ℕ}
    (hkeys : maxProgramIdIndex.toNat + 1 = numKeys) (htotal : maxAccountIndex.toNat + 1 = total) :
    sanitizeInstruction maxProgramIdIndex maxAccountIndex limit instruction = .ok () ↔
      instruction.Sanitized numKeys total limit := by
  have haccounts :
      (instruction.accounts.forM fun index => rejectIf (index > maxAccountIndex)) = .ok () ↔
        ∀ index ∈ instruction.accounts, index.toNat < total := by
    rw [forM_eq_ok_iff]
    refine forall₂_congr fun index _ => ?_
    rw [rejectIf_iff, gt_iff_lt, UInt8.not_lt, UInt8.le_iff_toNat_le]
    omega
  have hzero : ¬instruction.programIdIndex = 0 ↔ 0 < instruction.programIdIndex.toNat := by
    rw [← UInt8.toNat_inj, Nat.pos_iff_ne_zero]
    rfl
  rw [sanitizeInstruction, seq_eq_ok_iff, seq_eq_ok_iff, seq_eq_ok_iff, haccounts, rejectIf_iff,
    rejectIf_iff, rejectIf_iff, gt_iff_lt, UInt8.not_lt, UInt8.le_iff_toNat_le, hzero, not_and,
    not_lt]
  constructor
  · rintro ⟨hprogram, hpos, hindexes, hlimit⟩
    exact ⟨hpos, by omega, hindexes, hlimit⟩
  · rintro ⟨hpos, hprogram, hindexes, hlimit⟩
    exact ⟨by omega, hpos, hindexes, hlimit⟩

theorem sanitizeInstructions_iff (h : view.Reports t) (limit : Bool) :
    ∃ checked, sanitizeInstructions view limit = some checked ∧
      (0 < t.accountKeys.length → t.totalAccounts ≤ 256 →
        (checked = .ok () ↔ t.instructions.length ≤ maxInstructionTraceLength ∧
          ∀ instruction ∈ t.instructions,
            instruction.Sanitized t.accountKeys.length t.totalAccounts limit)) := by
  refine ⟨_, by rw [sanitizeInstructions, h.instructions]; rfl, fun hkeys htotal => ?_⟩
  have hle : t.accountKeys.length ≤ t.totalAccounts := by
    rw [Transaction.totalAccounts]
    omega
  have hprogram : (view.numStaticAccountKeys - 1).toNat + 1 = t.accountKeys.length := by
    have hone : (1 : UInt8) ≤ view.numStaticAccountKeys := by
      rwa [UInt8.le_iff_toNat_le, h.numStaticAccountKeys]
    rw [UInt8.toNat_sub_of_le _ _ hone, h.numStaticAccountKeys]
    show t.accountKeys.length - 1 + 1 = _
    omega
  have haccount : (totalNumberOfAccounts view - 1).toUInt8.toNat + 1 = t.totalAccounts := by
    have hnat := toNat_totalNumberOfAccounts h
    have hone : (1 : UInt16) ≤ totalNumberOfAccounts view := by
      rw [UInt16.le_iff_toNat_le, hnat]
      show 1 ≤ _
      omega
    rw [UInt16.toNat_toUInt8, UInt16.toNat_sub_of_le _ _ hone, hnat]
    show (min t.totalAccounts (2 ^ 16 - 1) - 1) % 2 ^ 8 + 1 = _
    omega
  rw [seq_eq_ok_iff, rejectIf_iff, forM_eq_ok_iff, h.numInstructions, gt_iff_lt, not_lt]
  refine and_congr_right fun _ => forall₂_congr fun instruction _ => ?_
  exact sanitizeInstruction_iff hprogram haccount

theorem sanitizeAddressTableLookups_iff (h : view.Reports t) :
    ∃ checked, sanitizeAddressTableLookups view = some checked ∧
      (checked = .ok () ↔ ∀ lookup ∈ t.addressTableLookups,
        0 < lookup.writableIndexes.length + lookup.readonlyIndexes.length) := by
  refine ⟨_, by rw [sanitizeAddressTableLookups, h.lookups]; rfl, ?_⟩
  rw [forM_eq_ok_iff]
  refine forall₂_congr fun lookup _ => ?_
  rw [rejectIf_iff, ← length_eq_zero_iff, ← length_eq_zero_iff]
  omega

/-- **The checks on the view ask exactly what `Transaction.Sanitized` says.** -/
theorem sanitize_iff (h : view.Reports t) (limit : Bool) :
    sanitize view limit = some (.ok ()) ↔ t.Sanitized limit := by
  obtain ⟨checked, hchecked, hinstructions⟩ := sanitizeInstructions_iff h limit
  obtain ⟨checked', hchecked', hlookups⟩ := sanitizeAddressTableLookups_iff h
  have hsplit : sanitize view limit = some (sanitizeSignatures view >>= fun _ =>
      sanitizeAccountAccess view >>= fun _ => checked >>= fun _ => checked') := by
    rw [sanitize, hchecked, hchecked']
    rfl
  rw [hsplit, some_inj, seq_eq_ok_iff, seq_eq_ok_iff, seq_eq_ok_iff,
    sanitizeSignatures_iff h, hlookups]
  constructor
  · rintro ⟨⟨heq, hle⟩, haccess, hixs, hls⟩
    obtain ⟨hunsigned, hsigned, htotal⟩ :=
      (sanitizeAccountAccess_iff h (heq.symm.trans_le hle)).mp haccess
    obtain ⟨hnum, hall⟩ := (hinstructions (by omega) htotal).mp hixs
    exact ⟨heq, hle, hunsigned, hsigned, htotal, hnum, hall, hls⟩
  · intro hs
    have hle := hs.signatures_eq.symm.trans_le hs.signatures_le
    have hpos := hs.readonlySigned_lt
    refine ⟨⟨hs.signatures_eq, hs.signatures_le⟩, ?_, ?_, hs.lookups⟩
    · exact (sanitizeAccountAccess_iff h hle).mpr
        ⟨hs.readonlyUnsigned_le, hs.readonlySigned_lt, hs.total_le⟩
    · exact (hinstructions (by omega) hs.total_le).mpr ⟨hs.instructions_le, hs.instructions⟩

end Checks

/-! ## Sanitized transactions that fit into a packet -/

theorem Transaction.three_le_length_header (t : Transaction) : 3 ≤ t.header.length := by
  show 3 ≤ (encodeHeader t.version _ _ _).length
  cases t.version <;> simp [encodeHeader]

/-- The size of an encoding in terms of the numbers of its parts. -/
theorem Transaction.length_encode_ge (t : Transaction) :
    (1 + 64 * t.signatures.length) + t.header.length + (1 + 32 * t.accountKeys.length) + 32 +
      (1 + (t.instructions.flatMap SVMInstruction.encode).length) +
      (encodeLookups t.version t.addressTableLookups).length ≤ t.encode.length := by
  have h1 := length_compactU16_pos t.signatures.length
  have h2 := length_compactU16_pos t.accountKeys.length
  have h3 := length_compactU16_pos t.instructions.length
  rw [length_encode, lookupsOffset, instructionsOffset, blockhashOffset, accountKeysOffset,
    headerOffset, length_shortVec, length_shortVec, length_shortVec, flatMap_val_eq_join,
    flatMap_val_eq_join, Block.length_join, Block.length_join]
  omega

theorem SVMMessageAddressTableLookup.minSized_le {lookup : SVMMessageAddressTableLookup}
    (h : 0 < lookup.writableIndexes.length + lookup.readonlyIndexes.length) :
    minSizedAtl ≤ lookup.encode.length := by
  have h1 := length_compactU16_pos lookup.writableIndexes.length
  have h2 := length_compactU16_pos lookup.readonlyIndexes.length
  rw [length_encode, length_shortBytes, length_shortBytes, minSizedAtl]
  omega

/-- **The bounds of the parser hold for what passes the checks and fits into a packet.** -/
theorem Transaction.Sanitized.within {t : Transaction} {limit : Bool} (h : t.Sanitized limit)
    (hlength : t.encode.length ≤ packetDataSize) : t.Within := by
  have hsize := t.length_encode_ge
  have hheader := t.three_le_length_header
  have heq := h.signatures_eq
  have hle := h.signatures_le
  have hpos := h.readonlySigned_lt
  have htotal := h.total_le
  rw [packetDataSize] at hlength
  rw [totalAccounts] at htotal
  have hroom : t.version = .v0 → minSizedAtl * t.addressTableLookups.length ≤
      (t.addressTableLookups.flatMap SVMMessageAddressTableLookup.encode).length :=
    fun _ => mul_length_le_length_flatMap fun lookup hmem =>
      SVMMessageAddressTableLookup.minSized_le (h.lookups lookup hmem)
  refine
    { signatures_pos := by omega
      signatures_le := ?_
      header := fun _ => by omega
      accountKeys_pos := by omega
      accountKeys_le := ?_
      instructions_lt := lt_of_le_of_lt h.instructions_le (by decide)
      instructions_short := ?_
      lookups := ⟨?_, ?_, by omega, by omega⟩
      lookups_room := hroom }
  · show t.signatures.length ≤ 12
    omega
  · show t.accountKeys.length ≤ 38
    omega
  · intro instruction hmem
    have hencode : instruction.encode.length ≤
        (t.instructions.flatMap SVMInstruction.encode).length := by
      rw [length_flatMap]
      exact le_sum_of_mem (mem_map_of_mem hmem)
    rw [SVMInstruction.length_encode, length_shortBytes, length_shortBytes] at hencode
    exact ⟨by omega, by omega⟩
  · show t.addressTableLookups.length ≤ 31
    cases hversion : t.version with
    | legacy =>
      rw [t.lookups_legacy hversion]
      exact Nat.zero_le _
    | v0 =>
      have hroom := hroom hversion
      have hcompact := length_compactU16_pos t.addressTableLookups.length
      have hfour : t.header.length = 4 := by
        rw [Transaction.header, hversion]
        rfl
      rw [hversion, encodeLookups, length_shortVec] at hsize
      rw [minSizedAtl] at hroom
      omega
  · intro lookup hmem
    have hwritable : lookup.writableIndexes.length ≤ sumWritable t.addressTableLookups :=
      le_sum_of_mem (mem_map_of_mem hmem)
    have hreadonly : lookup.readonlyIndexes.length ≤ sumReadonly t.addressTableLookups :=
      le_sum_of_mem (mem_map_of_mem hmem)
    exact ⟨by omega, by omega⟩

/-! ## Both directions -/

/-- **A view is an exact codec of the wire format.**  Bytes that are accepted are the encoding
of the transaction that the accessors report, without any read outside the buffer and with the
right counts and totals. The encoding of a transaction that passes the checks and fits into a
packet is accepted, reported and passes the checks of the view. -/
theorem transactionView_exact_codec :
    (∀ data : List UInt8, data.length ≤ 65535 → ∀ view : TransactionView false,
      tryNewUnsanitized data = .ok view →
        ∃ t : Transaction, view.Reports t ∧ t.encode = data) ∧
    ∀ (t : Transaction) (enableInstructionAccountsLimit : Bool),
      t.Sanitized enableInstructionAccountsLimit → t.encode.length ≤ packetDataSize →
        ∃ view : TransactionView false, tryNewUnsanitized t.encode = .ok view ∧
          view.Reports t ∧
          sanitize view enableInstructionAccountsLimit = some (.ok ()) := by
  constructor
  · intro data hlength view hview
    have hlt : data.length < 2 ^ 16 := by omega
    obtain ⟨t, hwithin, hdata, rfl⟩ := (tryNewUnsanitized_iff hlt).mp hview
    exact ⟨t, reports_of_within hlt hwithin (t.standsIn_iff.mpr hdata), hdata.symm⟩
  · intro t limit hsanitized hlength
    have hwithin := hsanitized.within hlength
    have hlt : t.encode.length < 2 ^ 16 := lt_of_le_of_lt hlength (by decide)
    have hreports : (⟨t.encode, t.frame⟩ : TransactionView false).Reports t :=
      reports_of_within hlt hwithin (t.standsIn_iff.mpr rfl)
    refine ⟨⟨t.encode, t.frame⟩, ?_, hreports, (sanitize_iff hreports limit).mpr hsanitized⟩
    exact (tryNewUnsanitized_iff hlt).mpr ⟨t, hwithin, rfl, rfl⟩

/-- A transaction with one instruction whose data has a length of two bytes, and one lookup. -/
def exampleTransaction : Transaction where
  version := .v0
  numRequiredSignatures := 1
  numReadonlySignedAccounts := 0
  numReadonlyUnsignedAccounts := 1
  signatures := [⟨List.replicate 64 7, rfl⟩]
  accountKeys := [⟨List.replicate 32 1, rfl⟩, ⟨List.replicate 32 2, rfl⟩]
  recentBlockhash := ⟨List.replicate 32 9, rfl⟩
  instructions := [⟨1, [0, 2], List.replicate 200 5⟩]
  addressTableLookups := [⟨⟨List.replicate 32 3, rfl⟩, [4], []⟩]
  lookups_legacy := by simp

theorem transactionView_exact_codec_exampleTransaction :
    ∃ view : TransactionView false,
      tryNewUnsanitized exampleTransaction.encode = .ok view ∧
        view.Reports exampleTransaction ∧
        ∃ t : Transaction, view.Reports t ∧ t.encode = exampleTransaction.encode := by
  have hsanitized : exampleTransaction.Sanitized true :=
    { signatures_eq := rfl
      signatures_le := by decide
      readonlyUnsigned_le := by decide
      readonlySigned_lt := by decide
      total_le := by decide
      instructions_le := by decide
      instructions := by
        intro instruction hmem
        obtain rfl := mem_singleton.mp hmem
        exact ⟨by decide, by decide, by decide +kernel, by decide⟩
      lookups := by decide }
  obtain ⟨view, hview, hreports, -⟩ :=
    transactionView_exact_codec.2 exampleTransaction true hsanitized (by decide +kernel)
  exact ⟨view, hview, hreports, transactionView_exact_codec.1 _ (by decide +kernel) view hview⟩

end FlowraValidator.Transactions
