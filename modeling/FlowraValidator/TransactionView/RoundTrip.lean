import FlowraValidator.TransactionView.Codec

/-!
# A view is an exact codec of the wire format

`TransactionFrame.tryNew_iff` puts the sections together: the pass over the bytes accepts
exactly the encodings of the transactions within its bounds (`Transaction.Within`), and its frame
is that of the transaction. What the accessors of such a view report is the transaction
(`TransactionView.Reports`): the unchecked reads stay inside the buffer and the two iterators
yield every instruction and every lookup.

* `TransactionFrame.tryNew_iff`, `tryNewUnsanitized_iff`: which bytes are accepted.
* `InstructionsIterator.IsAt.collect_eq`, `AddressTableLookupIterator.IsAt.collect_eq`: what the
  iterators yield.
* `reports_of_within`: what the accessors of an accepted view report.
-/

namespace FlowraValidator.Transactions
open TransactionFrame SVMMessageAddressTableLookup List Option Wire Subtype Nat TransactionView

/-- The frame of the lookups by the version; a legacy transaction has an empty one. -/
def lookupFrameOf (version : TransactionVersion) (offset : ℕ)
    (lookups : List SVMMessageAddressTableLookup) : AddressTableLookupFrame :=
  match version with
  | .legacy => ⟨0, 0, 0, 0⟩
  | .v0 => lookupFrameAt offset lookups

/-! ## Where the sections are -/

namespace Transaction
variable (t : Transaction)

def headerOffset : ℕ := (shortVec val t.signatures).length

def accountKeysOffset : ℕ := t.headerOffset + t.header.length

def blockhashOffset : ℕ := t.accountKeysOffset + (shortVec val t.accountKeys).length

def instructionsOffset : ℕ := t.blockhashOffset + 32

def lookupsOffset : ℕ :=
  t.instructionsOffset + (shortVec SVMInstruction.encode t.instructions).length

/-- Every section of the transaction stands at its place and the last one ends the bytes. -/
structure StandsIn (bytes : List UInt8) : Prop where
  signatures : StandsAt bytes 0 (shortVec val t.signatures)
  header : StandsAt bytes t.headerOffset t.header
  accountKeys : StandsAt bytes t.accountKeysOffset (shortVec val t.accountKeys)
  blockhash : StandsAt bytes t.blockhashOffset t.recentBlockhash.val
  instructions :
    StandsAt bytes t.instructionsOffset (shortVec SVMInstruction.encode t.instructions)
  lookups : StandsAt bytes t.lookupsOffset (encodeLookups t.version t.addressTableLookups)
  end_eq : t.lookupsOffset + (encodeLookups t.version t.addressTableLookups).length = bytes.length

theorem length_encode :
    t.encode.length = t.lookupsOffset + (encodeLookups t.version t.addressTableLookups).length := by
  simp only [encode, lookupsOffset, instructionsOffset, blockhashOffset, accountKeysOffset,
    headerOffset, length_append, t.recentBlockhash.property]
  omega

theorem standsIn_iff {bytes : List UInt8} : t.StandsIn bytes ↔ bytes = t.encode := by
  have hsections : StandsAt bytes 0 t.encode ↔
      StandsAt bytes 0 (shortVec val t.signatures) ∧
        StandsAt bytes t.headerOffset t.header ∧
        StandsAt bytes t.accountKeysOffset (shortVec val t.accountKeys) ∧
        StandsAt bytes t.blockhashOffset t.recentBlockhash.val ∧
        StandsAt bytes t.instructionsOffset (shortVec SVMInstruction.encode t.instructions) ∧
        StandsAt bytes t.lookupsOffset (encodeLookups t.version t.addressTableLookups) := by
    rw [encode, standsAt_append, standsAt_append, standsAt_append, standsAt_append,
      standsAt_append, zero_add, t.recentBlockhash.property]
    rfl
  rw [← standsAt_zero_iff, hsections, length_encode]
  constructor
  · rintro ⟨h1, h2, h3, h4, h5, h6, hend⟩
    exact ⟨⟨h1, h2, h3, h4, h5, h6⟩, hend⟩
  · rintro ⟨⟨h1, h2, h3, h4, h5, h6⟩, hend⟩
    exact ⟨h1, h2, h3, h4, h5, h6, hend⟩

/-- The sections begin within the bytes. -/
theorem StandsIn.offsets_le {t : Transaction} {bytes : List UInt8} (h : t.StandsIn bytes) :
    t.headerOffset ≤ bytes.length ∧ t.accountKeysOffset ≤ bytes.length ∧
      t.blockhashOffset ≤ bytes.length ∧ t.instructionsOffset ≤ bytes.length ∧
      t.lookupsOffset ≤ bytes.length := by
  have hend := h.end_eq
  simp only [lookupsOffset, instructionsOffset, blockhashOffset, accountKeysOffset] at hend ⊢
  omega

/-! ## The bounds of the parser -/

/-- The transactions that the parser accepts: the numbers of signatures, keys and lookups fit
into a packet, the counts of the header are not mistaken for a version, the rows of bytes have
lengths of at most two bytes, and the lookups take the room that non-empty ones would take. -/
structure Within : Prop where
  signatures_pos : 0 < t.signatures.length
  signatures_le : t.signatures.length ≤ maxSignaturesPerPacket.toNat
  header : t.version = .legacy → t.numRequiredSignatures.toNat < 2 ^ 7
  accountKeys_pos : 0 < t.accountKeys.length
  accountKeys_le : t.accountKeys.length ≤ maxStaticAccountsPerPacket.toNat
  instructions_lt : t.instructions.length < 2 ^ 14
  instructions_short : ∀ instruction ∈ t.instructions, instruction.Short
  lookups : LookupsWithin t.addressTableLookups
  lookups_room : t.version = .v0 → minSizedAtl * t.addressTableLookups.length ≤
    (t.addressTableLookups.flatMap SVMMessageAddressTableLookup.encode).length

/-- The frame of a transaction. -/
def frame : TransactionFrame where
  signature := ⟨t.signatures.length.toUInt8, (0 + 1).toUInt16⟩
  messageHeader := ⟨t.headerOffset.toUInt16, t.version, t.numRequiredSignatures,
    t.numReadonlySignedAccounts, t.numReadonlyUnsignedAccounts⟩
  staticAccountKeys := ⟨t.accountKeys.length.toUInt8, (t.accountKeysOffset + 1).toUInt16⟩
  recentBlockhashOffset := t.blockhashOffset.toUInt16
  instructions := instructionsFrameAt t.instructionsOffset t.instructions
  addressTableLookup := lookupFrameOf t.version t.lookupsOffset t.addressTableLookups

end Transaction

/-! ## The pass over the bytes -/

section
variable {bytes : List UInt8} {offset offset' : ℕ}

/-- A section that is a count of one byte and that many elements. -/
theorem countedFrame_iff {F : Type} {mk : UInt8 → UInt16 → F} {frame : F} {size : ℕ} {max : UInt8}
    (hsize : size ≤ 64) (hmax : max.toNat < 2 ^ 7) (hlength : bytes.length < 2 ^ 16)
    (hoffset : offset ≤ bytes.length) :
    (countedArray size max bytes offset >>= fun r => .ok (mk r.1.1 r.1.2, r.2)) =
        .ok (frame, offset') ↔
      ∃ xs : List (Block UInt8 size), 0 < xs.length ∧ xs.length ≤ max.toNat ∧
        StandsAt bytes offset (shortVec val xs) ∧
        frame = mk xs.length.toUInt8 (offset + 1).toUInt16 ∧
        offset' = offset + (shortVec val xs).length := by
  rw [bind_eq_ok_iff]
  constructor
  · rintro ⟨⟨r, last⟩, hread, h⟩
    obtain ⟨xs, hpos, hle, hstands, rfl, rfl⟩ :=
      (countedArray_iff hsize hmax hlength hoffset).mp hread
    cases h
    exact ⟨xs, hpos, hle, hstands, rfl, rfl⟩
  · rintro ⟨xs, hpos, hle, hstands, rfl, rfl⟩
    exact ⟨_, (countedArray_iff hsize hmax hlength hoffset).mpr
      ⟨xs, hpos, hle, hstands, rfl, rfl⟩, rfl⟩

variable (hlength : bytes.length < 2 ^ 16) (hoffset : offset ≤ bytes.length)
include hlength hoffset in
theorem SignatureFrame.tryNew_iff {frame : SignatureFrame} :
    SignatureFrame.tryNew bytes offset = .ok (frame, offset') ↔
      ∃ signatures : List Signature, 0 < signatures.length ∧
        signatures.length ≤ maxSignaturesPerPacket.toNat ∧
        StandsAt bytes offset (shortVec val signatures) ∧
        frame = ⟨signatures.length.toUInt8, (offset + 1).toUInt16⟩ ∧
        offset' = offset + (shortVec val signatures).length :=
  countedFrame_iff (by omega) (by decide) hlength hoffset

include hlength hoffset in
theorem StaticAccountKeysFrame.tryNew_iff {frame : StaticAccountKeysFrame} :
    StaticAccountKeysFrame.tryNew bytes offset = .ok (frame, offset') ↔
      ∃ keys : List Pubkey, 0 < keys.length ∧ keys.length ≤ maxStaticAccountsPerPacket.toNat ∧
        StandsAt bytes offset (shortVec val keys) ∧
        frame = ⟨keys.length.toUInt8, (offset + 1).toUInt16⟩ ∧
        offset' = offset + (shortVec val keys).length :=
  countedFrame_iff (by omega) (by decide) hlength hoffset

include hlength hoffset in
/-- The section of the lookups of a transaction of either version. -/
theorem readLookups_iff {version : TransactionVersion} {frame : AddressTableLookupFrame} :
    readLookups version bytes offset = .ok (frame, offset') ↔
      ∃ lookups : List SVMMessageAddressTableLookup, (version = .legacy → lookups = []) ∧
        LookupsWithin lookups ∧
        (version = .v0 → offset + 1 + minSizedAtl * lookups.length ≤ bytes.length) ∧
        StandsAt bytes offset (encodeLookups version lookups) ∧
        frame = lookupFrameOf version offset lookups ∧
        offset' = offset + (encodeLookups version lookups).length := by
  cases version with
  | legacy =>
    constructor
    · intro h
      cases h
      refine ⟨[], fun _ => rfl, ⟨by decide, by simp, by decide, by decide⟩, by simp, ?_, rfl, rfl⟩
      exact standsAt_nil
    · rintro ⟨lookups, -, -, -, -, rfl, rfl⟩
      rfl
  | v0 =>
    rw [readLookups, AddressTableLookupFrame.tryNew_iff hlength hoffset]
    constructor
    · rintro ⟨lookups, hwithin, hroom, hstands, rfl, rfl⟩
      exact ⟨lookups, by simp, hwithin, fun _ => hroom, hstands, rfl, rfl⟩
    · rintro ⟨lookups, -, hwithin, hroom, hstands, rfl, rfl⟩
      exact ⟨lookups, hwithin, hroom rfl, hstands, rfl, rfl⟩

include hlength in
/-- **The pass accepts exactly the encodings of the transactions within its bounds.** -/
theorem TransactionFrame.tryNew_iff {frame : TransactionFrame} :
    tryNew bytes = .ok frame ↔
      ∃ t : Transaction, t.Within ∧ bytes = t.encode ∧ frame = t.frame := by
  rw [tryNew]
  simp only [bind_eq_ok_iff]
  constructor
  · rintro ⟨⟨signature, o1⟩, h1, ⟨header, o2⟩, h2, ⟨keys, o3⟩, h3, o4, h4, ⟨instructions, o5⟩, h5,
      ⟨lookups, o6⟩, h6, h⟩
    obtain ⟨sigs, hsigs, hsigs', hs1, rfl, rfl⟩ :=
      (SignatureFrame.tryNew_iff hlength (zero_le _)).mp h1
    have hle1 := hs1.end_le (zero_le _)
    obtain ⟨hoff, hheader, hs2, rfl⟩ := (MessageHeaderFrame.tryNew_iff hlength).mp h2
    have hle2 := hs2.end_le hle1
    obtain ⟨ks, hks, hks', hs3, rfl, rfl⟩ := (StaticAccountKeysFrame.tryNew_iff hlength hle2).mp h3
    have hle3 := hs3.end_le hle2
    obtain ⟨hle4, rfl⟩ := (advanceOffsetForType_iff hlength hle3).mp h4
    obtain ⟨blockhash, hs4, hblockhash⟩ := exists_standsAt hle4
    obtain ⟨ixs, hixs, hshort, hs5, rfl, rfl⟩ := (InstructionsFrame.tryNew_iff hlength hle4).mp h5
    have hle5 := hs5.end_le hle4
    obtain ⟨ls, hlegacy, hwithin, hroom, hs6, rfl, rfl⟩ := (readLookups_iff hlength hle5).mp h6
    dsimp only at h hle1 hle2 hle3 hle4 hle5 hs2 hs3 hs4 hs5 hs6 hroom
    split at h
    · cases h
    rename_i hend
    rw [ne_eq, not_not] at hend
    obtain rfl := Except.ok.inj h
    obtain ⟨headerOffset, version, required, signed, unsigned⟩ := header
    dsimp only at hoff hheader hs2 hs3 hs4 hs5 hs6 hend hlegacy hroom
    subst hoff
    rw [zero_add] at hs2 hs3 hs4 hs5 hs6 hend hroom
    refine ⟨⟨version, required, signed, unsigned, sigs, ks, ⟨blockhash, hblockhash⟩, ixs, ls,
      hlegacy⟩, ⟨hsigs, hsigs', hheader, hks, hks', hixs, hshort, hwithin, ?_⟩, ?_, ?_⟩
    · rintro rfl
      have hroom := hroom rfl
      have hlookups := hwithin.length_le
      have hmax : maxAtlsPerPacket.toNat = 31 := by decide
      have hsection : (encodeLookups .v0 ls).length = 1 + (ls.flatMap encode).length := by
        rw [encodeLookups, length_shortVec, compactU16_of_lt (by omega), length_singleton]
      dsimp only
      omega
    · exact (Transaction.standsIn_iff _).mp ⟨hs1, hs2, hs3, hs4, hs5, hs6, hend⟩
    · simp only [zero_add]
      rfl
  · rintro ⟨t, hwithin, hbytes, rfl⟩
    have hstands := t.standsIn_iff.mpr hbytes
    obtain ⟨hle1, hle2, hle3, hle4, hle5⟩ := hstands.offsets_le
    have hroom : t.version = .v0 →
        t.lookupsOffset + 1 + minSizedAtl * t.addressTableLookups.length ≤ bytes.length := by
      intro hv0
      have hroom := hwithin.lookups_room hv0
      have hend := hstands.end_eq
      have hpos := length_compactU16_pos t.addressTableLookups.length
      rw [hv0, encodeLookups, length_shortVec] at hend
      omega
    refine ⟨(_, t.headerOffset), (SignatureFrame.tryNew_iff hlength (zero_le _)).mpr
        ⟨t.signatures, hwithin.signatures_pos, hwithin.signatures_le, hstands.signatures, rfl,
          (zero_add _).symm⟩,
      (⟨t.headerOffset.toUInt16, t.version, t.numRequiredSignatures, t.numReadonlySignedAccounts,
        t.numReadonlyUnsignedAccounts⟩, t.accountKeysOffset),
      (MessageHeaderFrame.tryNew_iff hlength).mpr ⟨rfl, hwithin.header, hstands.header, rfl⟩,
      (_, t.blockhashOffset), (StaticAccountKeysFrame.tryNew_iff hlength hle2).mpr
        ⟨t.accountKeys, hwithin.accountKeys_pos, hwithin.accountKeys_le, hstands.accountKeys, rfl,
          rfl⟩,
      t.instructionsOffset, (advanceOffsetForType_iff hlength hle3).mpr ⟨hle4, rfl⟩,
      (_, t.lookupsOffset), (InstructionsFrame.tryNew_iff hlength hle4).mpr
        ⟨t.instructions, hwithin.instructions_lt, hwithin.instructions_short,
          hstands.instructions, rfl, rfl⟩,
      (_, t.lookupsOffset + (encodeLookups t.version t.addressTableLookups).length),
      (readLookups_iff hlength hle5).mpr
        ⟨t.addressTableLookups, t.lookups_legacy, hwithin.lookups, hroom, hstands.lookups, rfl,
          rfl⟩, ?_⟩
    rw [if_neg (not_not_intro hstands.end_eq)]
    rfl

end

/-! ## The iterators -/

section

/-- What an iterator yields, one item after the other. -/
theorem collectWithin_of_next {σ α : Type} {next : σ → Option (Option α × σ)} {it it' : σ} {x : α}
    {xs : List α} {calls : ℕ} (hnext : next it = some (some x, it'))
    (hrest : collectWithin next calls it' = some xs) :
    collectWithin next (calls + 1) it = some (x :: xs) := by
  rw [collectWithin, hnext]
  show (collectWithin next calls it').bind _ = _
  rw [hrest]
  rfl

theorem collectWithin_of_end {σ α : Type} {next : σ → Option (Option α × σ)} {it it' : σ}
    {calls : ℕ} (hnext : next it = some (none, it')) :
    collectWithin next (calls + 1) it = some [] := by
  rw [collectWithin, hnext]
  rfl

section Short
variable {bytes l : List UInt8} {offset : ℕ} (hlength : bytes.length < 2 ^ 16)
  (hoffset : offset ≤ bytes.length) (hl : l.length < 2 ^ 14)
  (h : StandsAt bytes offset (shortBytes l))
include hlength hoffset hl h
/-- Bytes behind their length are read back, without checks. -/
theorem uncheckedReadSliceData_of_shortBytes :
    uncheckedReadSliceData bytes
        (wrappingAdd offset (compactU16 l.length).length.toUInt8.toNat) l.length.toUInt16 =
      some (l, offset + (shortBytes l).length) := by
  obtain ⟨hcompact, hbody⟩ := shortBytes_standsAt_iff.mp h
  have hmid := hcompact.end_le hoffset
  have hle := length_compactU16_le hl
  rw [toNat_toUInt8 (by omega), wrappingAdd_eq (by omega), uncheckedReadSliceData_of_standsAt
    hlength hmid (toNat_toUInt16 (by omega)).symm hbody, length_shortBytes, add_assoc]

/-- Bytes behind their length are read back. -/
theorem readSliceData_of_shortBytes :
    ∃ mid, optimizedReadCompressedU16 bytes offset = .ok (l.length.toUInt16, mid) ∧
      readSliceData bytes mid l.length.toUInt16 = .ok (l, offset + (shortBytes l).length) := by
  obtain ⟨hcompact, hbody⟩ := shortBytes_standsAt_iff.mp h
  have hmid := hcompact.end_le hoffset
  have hnat : l.length.toUInt16.toNat = l.length := toNat_toUInt16 (by omega)
  refine ⟨offset + (compactU16 l.length).length, ?_, ?_⟩
  · rw [optimizedReadCompressedU16_iff hlength, hnat]
    exact ⟨hl, hcompact, rfl⟩
  · rw [readSliceData_of_standsAt hlength hmid hnat.symm hbody, length_shortBytes, add_assoc]

end Short

/-- The iterator over the instructions has yielded `done`, and `rest` stands in front of it. -/
structure InstructionsIterator.IsAt (it : InstructionsIterator) (done rest : List SVMInstruction) :
    Prop where
  length_lt : it.bytes.length < 2 ^ 16
  offset_le : it.offset ≤ it.bytes.length
  num_eq : it.numInstructions.toNat = done.length + rest.length
  index_eq : it.index.toNat = done.length
  frames_eq : it.frames = (done ++ rest).map SVMInstruction.frame
  short : ∀ instruction ∈ rest, instruction.Short
  stands : StandsAt it.bytes it.offset (rest.flatMap SVMInstruction.encode)

variable {it : InstructionsIterator} {rest done : List SVMInstruction}
  {lookup : SVMMessageAddressTableLookup}

/-- One call yields the next instruction, read without checks inside the buffer. -/
theorem InstructionsIterator.IsAt.next {instruction : SVMInstruction}
    (h : it.IsAt done (instruction :: rest)) :
    ∃ it', it.next = some (some instruction, it') ∧ it'.IsAt (done ++ [instruction]) rest := by
  have hlength := h.length_lt
  have hnum := h.num_eq
  have hindex := h.index_eq
  have hnumLt := it.numInstructions.toNat_lt
  rw [length_cons] at hnum
  have hlt : it.index < it.numInstructions := by
    rw [UInt16.lt_iff_toNat_lt]
    omega
  have hframe : it.frames[it.index.toNat]? = some instruction.frame := by
    rw [h.frames_eq, hindex, getElem?_map, getElem?_append_right (le_refl _), Nat.sub_self]
    rfl
  have hstands := h.stands
  rw [flatMap_cons, standsAt_append, SVMInstruction.encode_standsAt_iff] at hstands
  obtain ⟨⟨hs1, hs2, hs3⟩, hs4⟩ := hstands
  obtain ⟨haccounts, hdata⟩ := h.short _ mem_cons_self
  have hle1 : it.offset + 1 ≤ it.bytes.length := hs1.end_le h.offset_le
  have hle2 := hs2.end_le hle1
  have hle3 := hs3.end_le hle2
  have hread2 : uncheckedReadSliceData it.bytes
      (wrappingAdd (it.offset + 1) instruction.frame.numAccountsLen.toNat)
      instruction.frame.numAccounts = _ :=
    uncheckedReadSliceData_of_shortBytes hlength hle1 haccounts hs2
  have hread3 : uncheckedReadSliceData it.bytes
      (wrappingAdd _ instruction.frame.dataLenLen.toNat) instruction.frame.dataLen = _ :=
    uncheckedReadSliceData_of_shortBytes hlength hle2 hdata hs3
  refine ⟨{ it with
    index := it.index + 1
    offset := it.offset + instruction.encode.length }, ?_, ?_⟩
  · have hend : it.offset + 1 + (shortBytes instruction.accounts).length +
        (shortBytes instruction.data).length = it.offset + instruction.encode.length := by
      rw [SVMInstruction.length_encode]
      omega
    rw [InstructionsIterator.next, if_pos hlt, hframe]
    simp only [Option.bind_eq_bind, bind_some, uncheckedReadByte_eq hlength hs1, hread2, hread3,
      hend]
    rfl
  · constructor
    · exact hlength
    · show it.offset + instruction.encode.length ≤ it.bytes.length
      rw [SVMInstruction.length_encode]
      omega
    · show it.numInstructions.toNat = _
      rw [length_append, length_singleton]
      omega
    · rw [UInt16.toNat_add, length_append, length_singleton, hindex]
      show (done.length + 1) % 2 ^ 16 = _
      omega
    · rw [h.frames_eq, append_assoc, singleton_append]
    · exact fun other hmem => h.short _ (mem_cons_of_mem _ hmem)
    · exact hs4

theorem InstructionsIterator.IsAt.collectWithin_eq (h : it.IsAt done rest) :
    collectWithin InstructionsIterator.next (rest.length + 1) it = some rest := by
  induction rest generalizing it done with
  | nil =>
    have hge : ¬it.index < it.numInstructions := by
      rw [UInt16.lt_iff_toNat_lt, h.num_eq, h.index_eq, length_nil]
      omega
    exact collectWithin_of_end (show it.next = some (none, it) from if_neg hge)
  | cons instruction rest ih =>
    obtain ⟨it', hnext, h'⟩ := h.next
    exact collectWithin_of_next hnext (ih h')

/-- **All instructions are yielded.** -/
theorem InstructionsIterator.IsAt.collect_eq (h : it.IsAt [] rest) (hindex : it.index = 0) :
    it.collect = some rest := by
  have hlen : it.len = rest.length := by
    rw [len, hindex, UInt16.sub_zero, h.num_eq, length_nil, zero_add]
  rw [collect, hlen]
  exact h.collectWithin_eq

/-- The iterator over the lookups, with `rest` in front of it. -/
structure AddressTableLookupIterator.IsAt (it : AddressTableLookupIterator)
    (rest : List SVMMessageAddressTableLookup) : Prop where
  length_lt : it.bytes.length < 2 ^ 16
  offset_le : it.offset ≤ it.bytes.length
  num_eq : it.numAddressTableLookups.toNat = it.index.toNat + rest.length
  short : ∀ lookup ∈ rest, lookup.Short
  stands : StandsAt it.bytes it.offset (rest.flatMap encode)

/-- A lookup is read back with its parts. -/
theorem AddressTableLookupIterator.read_of_standsAt {bytes : List UInt8} {offset : ℕ}
    (hlength : bytes.length < 2 ^ 16) (hoffset : offset ≤ bytes.length) (hshort : lookup.Short)
    (h : StandsAt bytes offset lookup.encode) :
    AddressTableLookupIterator.read bytes offset = .ok (lookup, offset + lookup.encode.length) := by
  obtain ⟨hs1, hs2, hs3⟩ := encode_standsAt_iff.mp h
  obtain ⟨hwritable, hreadonly⟩ := hshort
  have hle1 := hs1.end_le hoffset
  rw [lookup.accountKey.property] at hle1
  have hle2 := hs2.end_le hle1
  obtain ⟨mid2, hread2, hslice2⟩ := readSliceData_of_shortBytes hlength hle1 hwritable hs2
  obtain ⟨mid3, hread3, hslice3⟩ := readSliceData_of_shortBytes hlength hle2 hreadonly hs3
  rw [AddressTableLookupIterator.read]
  simp only [bind_eq_ok_iff]
  refine ⟨_, readPubkey_of_standsAt hlength hoffset hs1, _, hread2, _, hslice2, _, hread3, _,
    hslice3, ?_⟩
  refine congrArg Except.ok (Prod.ext rfl ?_)
  rw [length_encode]
  omega

/-- One call yields the next lookup. -/
theorem AddressTableLookupIterator.IsAt.next {it : AddressTableLookupIterator}
    {rest : List SVMMessageAddressTableLookup} (h : it.IsAt (lookup :: rest)) :
    ∃ it', it.next = (some lookup, it') ∧ it'.IsAt rest := by
  have hnum := h.num_eq
  have hnumLt := it.numAddressTableLookups.toNat_lt
  rw [length_cons] at hnum
  have hlt : it.index < it.numAddressTableLookups := by
    rw [UInt8.lt_iff_toNat_lt]
    omega
  have hstands := h.stands
  rw [flatMap_cons, standsAt_append] at hstands
  obtain ⟨hs1, hs2⟩ := hstands
  refine ⟨{ it with
    index := it.index + 1
    offset := it.offset + lookup.encode.length }, ?_, ?_⟩
  · rw [AddressTableLookupIterator.next, if_pos hlt,
      read_of_standsAt h.length_lt h.offset_le (h.short _ mem_cons_self) hs1]
  · constructor
    · exact h.length_lt
    · exact hs1.end_le h.offset_le
    · show it.numAddressTableLookups.toNat = (it.index + 1).toNat + rest.length
      rw [UInt8.toNat_add]
      show _ = (it.index.toNat + 1) % 2 ^ 8 + rest.length
      omega
    · exact fun other hmem => h.short _ (mem_cons_of_mem _ hmem)
    · exact hs2

/-- **All lookups are yielded.** -/
theorem AddressTableLookupIterator.IsAt.collect_eq {it : AddressTableLookupIterator}
    {rest : List SVMMessageAddressTableLookup} (h : it.IsAt rest) (hindex : it.index = 0) :
    it.collect = some rest := by
  have hlen : it.len = rest.length := by
    rw [len, hindex, UInt8.sub_zero, h.num_eq, hindex]
    exact zero_add _
  rw [collect, hlen]
  clear hindex hlen
  induction rest generalizing it with
  | nil =>
    have hge : ¬it.index < it.numAddressTableLookups := by
      rw [UInt8.lt_iff_toNat_lt, h.num_eq, length_nil]
      omega
    exact collectWithin_of_end (congrArg some (show it.next = (none, it) from if_neg hge))
  | cons lookup rest ih =>
    obtain ⟨it', hnext, h'⟩ := h.next
    exact collectWithin_of_next (congrArg some hnext) (ih h')

end

/-! ## What the accessors report -/

/-- The accessors of the view report the parts of the transaction. The signatures, the keys,
the blockhash and the instructions are read without a check, so that a result says that nothing
outside the buffer was read. -/
structure TransactionView.Reports {sanitized : Bool} (view : TransactionView sanitized)
    (t : Transaction) : Prop where
  version : view.version = t.version
  numRequiredSignatures : view.numRequiredSignatures = t.numRequiredSignatures
  numReadonlySigned : view.numReadonlySignedStaticAccounts = t.numReadonlySignedAccounts
  numReadonlyUnsigned : view.numReadonlyUnsignedStaticAccounts = t.numReadonlyUnsignedAccounts
  signatures : view.signatures = some t.signatures
  staticAccountKeys : view.staticAccountKeys = some t.accountKeys
  recentBlockhash : view.recentBlockhash = some t.recentBlockhash
  instructions : view.instructionsIter.collect = some t.instructions
  lookups : view.addressTableLookupIter.collect = some t.addressTableLookups
  numSignatures : view.numSignatures.toNat = t.signatures.length
  numStaticAccountKeys : view.numStaticAccountKeys.toNat = t.accountKeys.length
  numInstructions : view.numInstructions.toNat = t.instructions.length
  numAddressTableLookups : view.numAddressTableLookups.toNat = t.addressTableLookups.length
  totalWritable :
    view.totalWritableLookupAccounts.toNat = sumWritable t.addressTableLookups
  totalReadonly :
    view.totalReadonlyLookupAccounts.toNat = sumReadonly t.addressTableLookups

section Accessors
variable {bytes : List UInt8} {t : Transaction}

variable (hlength : bytes.length < 2 ^ 16) (hwithin : t.Within) (h : t.StandsIn bytes)
include hlength in
/-- Elements behind a count of one byte are read back. -/
theorem blocks_of_shortVec {size offset : ℕ} {xs : List (Block UInt8 size)}
    (hoffset : offset ≤ bytes.length) (hxs : xs.length < 2 ^ 7)
    (h : StandsAt bytes offset (shortVec val xs)) :
    blocks bytes size (offset + 1).toUInt16.toNat xs.length.toUInt8.toNat = some xs := by
  obtain ⟨hcompact, hbody⟩ := shortVec_standsAt_iff.mp h
  rw [compactU16_of_lt hxs] at hcompact hbody
  have hmid : offset + 1 ≤ bytes.length := hcompact.end_le hoffset
  rw [toNat_toUInt16 (by omega), toNat_toUInt8 (by omega)]
  exact blocks_of_standsAt hbody hmid

variable {sanitized : Bool}
include hlength hwithin h in
theorem instructionsIter_isAt :
    (instructionsIter (⟨bytes, t.frame⟩ : TransactionView sanitized)).IsAt []
      t.instructions := by
  obtain ⟨-, -, -, hle, -⟩ := h.offsets_le
  obtain ⟨hcompact, hbody⟩ := shortVec_standsAt_iff.mp h.instructions
  have hmid := hcompact.end_le hle
  have hlt := hwithin.instructions_lt
  have hoffset : (t.instructionsOffset + (compactU16 t.instructions.length).length).toUInt16.toNat =
      t.instructionsOffset + (compactU16 t.instructions.length).length :=
    toNat_toUInt16 (by omega)
  constructor
  · exact hlength
  · exact hoffset.trans_le hmid
  · show t.instructions.length.toUInt16.toNat = _
    rw [toNat_toUInt16 (by omega), length_nil, zero_add]
  · rfl
  · rfl
  · exact hwithin.instructions_short
  · show StandsAt bytes
      (t.instructionsOffset + (compactU16 t.instructions.length).length).toUInt16.toNat _
    rwa [hoffset]

include hlength hwithin h in
theorem addressTableLookupIter_isAt :
    (addressTableLookupIter (⟨bytes, t.frame⟩ : TransactionView sanitized)).IsAt
      t.addressTableLookups := by
  have hmax : maxAtlsPerPacket.toNat = 31 := by decide
  have hcount := hwithin.lookups.length_le
  cases hversion : t.version with
  | legacy =>
    have hempty := t.lookups_legacy hversion
    have hframe : t.frame.addressTableLookup = ⟨0, 0, 0, 0⟩ := by
      show lookupFrameOf t.version t.lookupsOffset t.addressTableLookups = _
      rw [hversion]
      rfl
    constructor
    · exact hlength
    · show t.frame.addressTableLookup.offset.toNat ≤ _
      rw [hframe]
      exact zero_le _
    · show t.frame.addressTableLookup.numAddressTableLookups.toNat = _
      rw [hframe, hempty]
      rfl
    · exact hwithin.lookups.short
    · rw [hempty]
      exact standsAt_nil
  | v0 =>
    have hframe : t.frame.addressTableLookup =
        lookupFrameAt t.lookupsOffset t.addressTableLookups := by
      show lookupFrameOf t.version t.lookupsOffset t.addressTableLookups = _
      rw [hversion]
      rfl
    obtain ⟨-, -, -, -, hle⟩ := h.offsets_le
    have hlookups := h.lookups
    rw [hversion, encodeLookups, shortVec_standsAt_iff, compactU16_of_lt (by omega)] at hlookups
    obtain ⟨hcompact, hbody⟩ := hlookups
    have hmid : t.lookupsOffset + 1 ≤ bytes.length := hcompact.end_le hle
    have hoffset : (t.lookupsOffset + 1).toUInt16.toNat = t.lookupsOffset + 1 :=
      toNat_toUInt16 (by omega)
    constructor
    · exact hlength
    · show t.frame.addressTableLookup.offset.toNat ≤ _
      rw [hframe]
      exact hoffset.trans_le hmid
    · show t.frame.addressTableLookup.numAddressTableLookups.toNat = _
      rw [hframe]
      show t.addressTableLookups.length.toUInt8.toNat = 0 + _
      rw [toNat_toUInt8 (by omega), zero_add]
    · exact hwithin.lookups.short
    · show StandsAt bytes t.frame.addressTableLookup.offset.toNat _
      rw [hframe]
      show StandsAt bytes (t.lookupsOffset + 1).toUInt16.toNat _
      rwa [hoffset]

theorem lookupFrame_counts (hwithin : t.Within) :
    t.frame.addressTableLookup.numAddressTableLookups.toNat = t.addressTableLookups.length ∧
      t.frame.addressTableLookup.totalWritableLookupAccounts.toNat =
        sumWritable t.addressTableLookups ∧
      t.frame.addressTableLookup.totalReadonlyLookupAccounts.toNat =
        sumReadonly t.addressTableLookups := by
  have hmax : maxAtlsPerPacket.toNat = 31 := by decide
  have hcount := hwithin.lookups.length_le
  have hframe : t.frame.addressTableLookup =
    lookupFrameOf t.version t.lookupsOffset t.addressTableLookups := rfl
  rw [hframe]
  cases hversion : t.version with
  | legacy =>
    rw [t.lookups_legacy hversion]
    exact ⟨rfl, rfl, rfl⟩
  | v0 =>
    exact ⟨toNat_toUInt8 (by omega), toNat_toUInt16 hwithin.lookups.writable_lt,
      toNat_toUInt16 hwithin.lookups.readonly_lt⟩

include hlength hwithin h in
/-- **The view of an encoding reports the transaction.** -/
theorem reports_of_within : (⟨bytes, t.frame⟩ : TransactionView sanitized).Reports t := by
  obtain ⟨-, hle2, hle3, -, -⟩ := h.offsets_le
  have hblockhash := h.blockhash.end_le hle3
  rw [t.recentBlockhash.property] at hblockhash
  have hsignatures : t.signatures.length < 2 ^ 7 := hwithin.signatures_le.trans_lt (by decide)
  have hkeys : t.accountKeys.length < 2 ^ 7 := hwithin.accountKeys_le.trans_lt (by decide)
  have hinstructions := hwithin.instructions_lt
  obtain ⟨hcount, hwritable, hreadonly⟩ := lookupFrame_counts hwithin
  exact
    { version := rfl
      numRequiredSignatures := rfl
      numReadonlySigned := rfl
      numReadonlyUnsigned := rfl
      signatures := blocks_of_shortVec hlength (zero_le _) hsignatures h.signatures
      staticAccountKeys := blocks_of_shortVec hlength hle2 hkeys h.accountKeys
      recentBlockhash := by
        show block bytes t.blockhashOffset.toUInt16.toNat 32 = _
        rw [toNat_toUInt16 (by omega), block_eq_some_iff]
        exact ⟨h.blockhash, hblockhash⟩
      instructions := (instructionsIter_isAt hlength hwithin h).collect_eq rfl
      lookups := (addressTableLookupIter_isAt hlength hwithin h).collect_eq rfl
      numSignatures := toNat_toUInt8 (by omega)
      numStaticAccountKeys := toNat_toUInt8 (by omega)
      numInstructions := toNat_toUInt16 (by omega)
      numAddressTableLookups := hcount
      totalWritable := hwritable
      totalReadonly := hreadonly }

include hlength in
/-- A view is accepted exactly for the encoding of a transaction within the bounds. -/
theorem tryNewUnsanitized_iff {view : TransactionView false} :
    tryNewUnsanitized bytes = .ok view ↔
      ∃ t : Transaction, t.Within ∧ bytes = t.encode ∧ view = ⟨bytes, t.frame⟩ := by
  rw [tryNewUnsanitized, bind_eq_ok_iff]
  constructor
  · rintro ⟨frame, hframe, h⟩
    obtain ⟨t, hwithin, hbytes, rfl⟩ := (tryNew_iff hlength).mp hframe
    exact ⟨t, hwithin, hbytes, (Except.ok.inj h).symm⟩
  · rintro ⟨t, hwithin, hbytes, rfl⟩
    exact ⟨t.frame, (tryNew_iff hlength).mpr ⟨t, hwithin, hbytes, rfl⟩, rfl⟩

end Accessors
end FlowraValidator.Transactions
