import FlowraValidator.TransactionView.Frame

/-!
# The wire format of transactions

A transaction in its own terms: its version, the three counts of its header, its signatures,
keys, blockhash, instructions and address table lookups. `Transaction.encode` writes it in the
wire format. Every reader of the view is specified by the encodings that it accepts and by the
frame that it makes of them.

* `InstructionsFrame.tryNew_iff`, `AddressTableLookupFrame.tryNew_iff`: the two sections of
  variable size, by induction over their loops.
* `TransactionFrame.tryNew_iff`: **the pass over the bytes accepts exactly the encodings of the
  transactions within its bounds**, and its frame is that of the transaction.
-/

namespace FlowraValidator.Transactions
open SVMMessageAddressTableLookup List Wire Nat AddressTableLookupFrame Subtype

/-! ## Transactions and their encodings -/

/-- A row of values behind its length. -/
def shortVec {α : Type} (encode : α → List UInt8) (xs : List α) : List UInt8 :=
  compactU16 xs.length ++ xs.flatMap encode

/-- A row of bytes behind its length. -/
def shortBytes (bytes : List UInt8) : List UInt8 := compactU16 bytes.length ++ bytes

def SVMInstruction.encode (instruction : SVMInstruction) : List UInt8 :=
  instruction.programIdIndex :: (shortBytes instruction.accounts ++ shortBytes instruction.data)

def SVMMessageAddressTableLookup.encode (lookup : SVMMessageAddressTableLookup) : List UInt8 :=
  lookup.accountKey.val ++ (shortBytes lookup.writableIndexes ++ shortBytes lookup.readonlyIndexes)

/-- A legacy or a V0 transaction; a legacy one has no lookups. -/
structure Transaction where
  version : TransactionVersion
  numRequiredSignatures : UInt8
  numReadonlySignedAccounts : UInt8
  numReadonlyUnsignedAccounts : UInt8
  signatures : List Signature
  accountKeys : List Pubkey
  recentBlockhash : Hash
  instructions : List SVMInstruction
  addressTableLookups : List SVMMessageAddressTableLookup
  lookups_legacy : version = .legacy → addressTableLookups = []

/-- The header, with the byte of the version in front where there is one. -/
def encodeHeader (version : TransactionVersion) (numRequiredSignatures numReadonlySignedAccounts
    numReadonlyUnsignedAccounts : UInt8) : List UInt8 :=
  match version with
  | .legacy => [numRequiredSignatures, numReadonlySignedAccounts, numReadonlyUnsignedAccounts]
  | .v0 => [0x80, numRequiredSignatures, numReadonlySignedAccounts, numReadonlyUnsignedAccounts]

/-- The lookups, a section that only a V0 transaction has. -/
def encodeLookups (version : TransactionVersion) (lookups : List SVMMessageAddressTableLookup) :
    List UInt8 :=
  match version with
  | .legacy => []
  | .v0 => shortVec encode lookups

namespace Transaction
variable (t : Transaction)

def header : List UInt8 :=
  encodeHeader t.version t.numRequiredSignatures t.numReadonlySignedAccounts
    t.numReadonlyUnsignedAccounts

/-- The wire format. -/
def encode : List UInt8 :=
  shortVec val t.signatures ++ (t.header ++ (shortVec val t.accountKeys ++
    (t.recentBlockhash.val ++ (shortVec SVMInstruction.encode t.instructions ++
      encodeLookups t.version t.addressTableLookups))))

end Transaction

/-! ## Fixed-width numbers -/

theorem toNat_toUInt8 {n : ℕ} (h : n < 2 ^ 8) : n.toUInt8.toNat = n := by
  rw [toUInt8_eq, UInt8.toNat_ofNat', mod_eq_of_lt h]

theorem toNat_toUInt16 {n : ℕ} (h : n < 2 ^ 16) : n.toUInt16.toNat = n := by
  rw [toUInt16_eq, UInt16.toNat_ofNat', mod_eq_of_lt h]

theorem toUInt8_toNat (x : UInt8) : x.toNat.toUInt8 = x := by
  rw [toUInt8_eq, UInt8.ofNat_toNat]

theorem toUInt16_toNat (x : UInt16) : x.toNat.toUInt16 = x := by
  rw [toUInt16_eq, UInt16.ofNat_toNat]

/-! ## Rows behind their length -/

section
variable {bytes : List UInt8} {offset offset' : ℕ} {size : ℕ}

theorem length_shortBytes (l : List UInt8) :
    (shortBytes l).length = (compactU16 l.length).length + l.length :=
  length_append

theorem shortBytes_standsAt_iff {l : List UInt8} :
    StandsAt bytes offset (shortBytes l) ↔ StandsAt bytes offset (compactU16 l.length) ∧
      StandsAt bytes (offset + (compactU16 l.length).length) l :=
  standsAt_append

variable (hlength : bytes.length < 2 ^ 16) (hoffset : offset ≤ bytes.length)
include hlength hoffset in
/-- A length and the bytes that are passed over behind it. -/
theorem readShort_iff {n : UInt16} {mid : ℕ} :
    optimizedReadCompressedU16 bytes offset = .ok (n, mid) ∧
        advanceOffsetForArray 1 bytes mid n = .ok offset' ↔
      ∃ l : List UInt8, l.length < 2 ^ 14 ∧ StandsAt bytes offset (shortBytes l) ∧
        n = l.length.toUInt16 ∧ mid = offset + (compactU16 l.length).length ∧
        offset' = offset + (shortBytes l).length := by
  rw [optimizedReadCompressedU16_iff hlength]
  constructor
  · rintro ⟨⟨hn, hstands, rfl⟩, hadvance⟩
    have hmid := hstands.end_le hoffset
    obtain ⟨hle, rfl⟩ := (advanceOffsetForArray_iff (by omega) hlength hmid).mp hadvance
    rw [one_mul] at hle ⊢
    obtain ⟨l, hl, hlen⟩ := exists_standsAt hle
    refine ⟨l, by omega, ?_, ?_, ?_, ?_⟩
    · rw [shortBytes_standsAt_iff, hlen]
      exact ⟨hstands, hl⟩
    · rw [hlen, toUInt16_toNat]
    · rw [hlen]
    · rw [length_shortBytes, hlen, add_assoc]
  · rintro ⟨l, hl, hstands, rfl, rfl, rfl⟩
    obtain ⟨hcompact, hbody⟩ := shortBytes_standsAt_iff.mp hstands
    have hmid := hcompact.end_le hoffset
    have hend := hbody.end_le hmid
    rw [toNat_toUInt16 (by omega), advanceOffsetForArray_iff (by omega) hlength hmid,
      toNat_toUInt16 (by omega), length_shortBytes]
    exact ⟨⟨hl, hcompact, rfl⟩, by omega, by omega⟩

theorem flatMap_val_eq_join (xs : List (Block UInt8 size)) :
    xs.flatMap val = Block.join xs :=
  rfl

variable {α : Type} {n : ℕ} (instruction : SVMInstruction) (lookup : SVMMessageAddressTableLookup)
  (lookups : List SVMMessageAddressTableLookup) {enc : α → List UInt8} {xs : List α} {k : ℕ}

theorem shortVec_standsAt_iff :
    StandsAt bytes offset (shortVec enc xs) ↔ StandsAt bytes offset (compactU16 xs.length) ∧
      StandsAt bytes (offset + (compactU16 xs.length).length) (xs.flatMap enc) :=
  standsAt_append

theorem length_shortVec (enc : α → List UInt8) (xs : List α) :
    (shortVec enc xs).length = (compactU16 xs.length).length + (xs.flatMap enc).length :=
  length_append

/-- A count of one byte and that many elements. -/
theorem countedArray_iff {max : UInt8} {r : UInt8 × UInt16} (hsize : size ≤ 64)
    (hmax : max.toNat < 2 ^ 7) (hlength : bytes.length < 2 ^ 16) (hoffset : offset ≤ bytes.length) :
    countedArray size max bytes offset = .ok (r, offset') ↔
      ∃ xs : List (Block UInt8 size), 0 < xs.length ∧ xs.length ≤ max.toNat ∧
        StandsAt bytes offset (shortVec val xs) ∧
        r = (xs.length.toUInt8, (offset + 1).toUInt16) ∧
        offset' = offset + (shortVec val xs).length := by
  rw [countedArray, bind_eq_ok_iff]
  constructor
  · rintro ⟨⟨num, mid⟩, hread, h⟩
    obtain ⟨hstands, rfl⟩ := (readByte_iff hlength).mp hread
    have hmid : offset + 1 ≤ bytes.length := hstands.end_le hoffset
    dsimp only at h
    split at h
    · cases h
    rename_i hnum
    push Not at hnum
    rw [gt_iff_lt, UInt8.lt_iff_toNat_lt] at hnum
    have hpos : 0 < num.toNat := by
      refine pos_of_ne_zero fun hzero => hnum.1 ?_
      exact UInt8.toNat_inj.mp hzero
    rw [bind_eq_ok_iff] at h
    obtain ⟨last, hadvance, h⟩ := h
    obtain ⟨hle, rfl⟩ := (advanceOffsetForArray_iff hsize hlength hmid).mp hadvance
    cases h
    rw [UInt8.toNat_toUInt16] at hle ⊢
    obtain ⟨xs, hxs, hlen⟩ := exists_blocks_standsAt hle
    have hcompact : compactU16 xs.length = [num] := by
      rw [hlen, compactU16_of_lt (by omega), toUInt8_toNat]
    refine ⟨xs, by omega, by omega, ?_, ?_, ?_⟩
    · rw [shortVec_standsAt_iff, hcompact]
      exact ⟨hstands, hxs⟩
    · rw [hlen, toUInt8_toNat]
    · rw [length_shortVec, hcompact, flatMap_val_eq_join, Block.length_join, hlen, length_singleton]
      omega
  · rintro ⟨xs, hpos, hle, hstands, rfl, rfl⟩
    obtain ⟨hcompact, hbody⟩ := shortVec_standsAt_iff.mp hstands
    have hnat : xs.length.toUInt8.toNat = xs.length := toNat_toUInt8 (by omega)
    rw [length_shortVec]
    rw [compactU16_of_lt (by omega)] at hcompact hbody ⊢
    rw [length_singleton] at hbody ⊢
    have hmid : offset + 1 ≤ bytes.length := hcompact.end_le hoffset
    have hend := hbody.end_le hmid
    rw [flatMap_val_eq_join, Block.length_join] at hend ⊢
    refine ⟨(xs.length.toUInt8, offset + 1), (readByte_iff hlength).mpr ⟨hcompact, rfl⟩, ?_⟩
    have hnum : ¬(xs.length.toUInt8 = 0 ∨ xs.length.toUInt8 > max) := by
      rintro (hzero | hgt)
      · rw [hzero] at hnat
        exact absurd hnat (by simpa using hpos.ne)
      · rw [gt_iff_lt, UInt8.lt_iff_toNat_lt, hnat] at hgt
        omega
    dsimp only
    rw [if_neg hnum, bind_eq_ok_iff]
    refine ⟨offset + (1 + size * xs.length), ?_, rfl⟩
    rw [advanceOffsetForArray_iff hsize hlength hmid, UInt8.toNat_toUInt16, hnat]
    omega

/-! ## The header -/

theorem and_version_eq_zero_iff (b : UInt8) :
    b &&& ~~~messageVersionPrefix = 0 ↔ b = 0 ∨ b = messageVersionPrefix := by
  have hall : ∀ i : Fin 256, i.val &&& 127 = 0 ↔ i.val = 0 ∨ i.val = 128 := by decide +kernel
  have hb := hall ⟨b.toNat, b.toNat_lt⟩
  rwa [← UInt8.toNat_inj, ← UInt8.toNat_inj, ← UInt8.toNat_inj, UInt8.toNat_and]

include hlength in
theorem readVersion_iff {messagePrefix : UInt8} {version : TransactionVersion} {n : UInt8} :
    readVersion bytes messagePrefix offset = .ok ((version, n), offset') ↔
      version = .legacy ∧ n = messagePrefix ∧ n.toNat < 2 ^ 7 ∧ offset' = offset ∨
        version = .v0 ∧ messagePrefix = 0x80 ∧ StandsAt bytes offset [n] ∧
          offset' = offset + 1 := by
  rw [readVersion]
  by_cases hlegacy : messagePrefix &&& messageVersionPrefix = 0
  · have hsmall := (and_high_eq_zero_iff messagePrefix).mp hlegacy
    rw [if_neg (not_not_intro hlegacy)]
    constructor
    · intro h
      cases h
      exact .inl ⟨rfl, rfl, hsmall, rfl⟩
    · rintro (⟨rfl, rfl, -, rfl⟩ | ⟨-, rfl, -, -⟩)
      · rfl
      · exact absurd hlegacy (by decide)
  · rw [if_pos hlegacy]
    constructor
    · intro h
      split_ifs at h with hzero
      have hversion : messagePrefix = messageVersionPrefix := by
        refine ((and_version_eq_zero_iff _).mp hzero).resolve_left ?_
        rintro rfl
        exact hlegacy (by decide)
      rw [bind_eq_ok_iff] at h
      obtain ⟨⟨m, mid⟩, hread, h⟩ := h
      cases h
      obtain ⟨hstands, rfl⟩ := (readByte_iff hlength).mp hread
      exact .inr ⟨rfl, hversion, hstands, rfl⟩
    · rintro (⟨-, rfl, hsmall, -⟩ | ⟨rfl, rfl, hstands, rfl⟩)
      · exact absurd ((and_high_eq_zero_iff _).mpr hsmall) hlegacy
      · rw [if_pos (by decide), bind_eq_ok_iff]
        exact ⟨(n, offset + 1), (readByte_iff hlength).mpr ⟨hstands, rfl⟩, rfl⟩

include hlength in
/-- A byte is read, and what comes behind it. -/
theorem readByte_bind_iff {β : Type} {f : UInt8 × ℕ → Except TransactionViewError β} {y : β} :
    readByte bytes offset >>= f = .ok y ↔
      ∃ x, StandsAt bytes offset [x] ∧ f (x, offset + 1) = .ok y := by
  simp only [bind_eq_ok_iff, Prod.exists, readByte_iff hlength, and_assoc, exists_and_left,
    exists_eq_left]

include hlength in
theorem MessageHeaderFrame.tryNew_iff {frame : MessageHeaderFrame} :
    MessageHeaderFrame.tryNew bytes offset = .ok (frame, offset') ↔
      frame.offset = offset.toUInt16 ∧
        (frame.version = .legacy → frame.numRequiredSignatures.toNat < 2 ^ 7) ∧
        StandsAt bytes offset (encodeHeader frame.version frame.numRequiredSignatures
          frame.numReadonlySignedAccounts frame.numReadonlyUnsignedAccounts) ∧
        offset' = offset + (encodeHeader frame.version frame.numRequiredSignatures
          frame.numReadonlySignedAccounts frame.numReadonlyUnsignedAccounts).length := by
  obtain ⟨frameOffset, version, required, signed, unsigned⟩ := frame
  rw [tryNew, readByte_bind_iff hlength]
  simp only [bind_eq_ok_iff (x := readVersion _ _ _), readByte_bind_iff hlength]
  constructor
  · rintro ⟨messagePrefix, hs1, ⟨⟨v, n⟩, o⟩, hversion, s, hs3, u, hs4, h⟩
    obtain ⟨hframe, rfl⟩ := Prod.mk.inj (Except.ok.inj h)
    obtain ⟨rfl, rfl, rfl, rfl, rfl⟩ := MessageHeaderFrame.mk.inj hframe
    refine ⟨rfl, ?_⟩
    rcases (readVersion_iff hlength).mp hversion with
      ⟨rfl, rfl, hsmall, rfl⟩ | ⟨rfl, rfl, hs2, rfl⟩
    · refine ⟨fun _ => hsmall, ?_, rfl⟩
      rw [encodeHeader, standsAt_cons, standsAt_cons]
      exact ⟨standsAt_singleton.mp hs1, standsAt_singleton.mp hs3, hs4⟩
    · refine ⟨fun h => absurd h (by simp), ?_, rfl⟩
      rw [encodeHeader, standsAt_cons, standsAt_cons, standsAt_cons]
      exact ⟨standsAt_singleton.mp hs1, standsAt_singleton.mp hs2, standsAt_singleton.mp hs3, hs4⟩
  · rintro ⟨rfl, hsmall, hstands, rfl⟩
    cases version with
    | legacy =>
      rw [encodeHeader, standsAt_cons, standsAt_cons] at hstands
      obtain ⟨hs1, hs2, hs3⟩ := hstands
      exact ⟨required, standsAt_singleton.mpr hs1, ((.legacy, required), offset + 1),
        (readVersion_iff hlength).mpr (.inl ⟨rfl, rfl, hsmall rfl, rfl⟩), signed,
        standsAt_singleton.mpr hs2, unsigned, hs3, rfl⟩
    | v0 =>
      rw [encodeHeader, standsAt_cons, standsAt_cons, standsAt_cons] at hstands
      obtain ⟨hs1, hs2, hs3, hs4⟩ := hstands
      exact ⟨0x80, standsAt_singleton.mpr hs1, ((.v0, required), offset + 1 + 1),
        (readVersion_iff hlength).mpr (.inr ⟨rfl, rfl, standsAt_singleton.mpr hs2, rfl⟩), signed,
        standsAt_singleton.mpr hs3, unsigned, hs4, rfl⟩

/-! ## Instructions -/

/-- The two lengths fit into encodings of two bytes. -/
def SVMInstruction.Short (instruction : SVMInstruction) : Prop :=
  instruction.accounts.length < 2 ^ 14 ∧ instruction.data.length < 2 ^ 14

/-- The frame of an instruction. -/
def SVMInstruction.frame (instruction : SVMInstruction) : InstructionFrame where
  numAccounts := instruction.accounts.length.toUInt16
  dataLen := instruction.data.length.toUInt16
  numAccountsLen := (compactU16 instruction.accounts.length).length.toUInt8
  dataLenLen := (compactU16 instruction.data.length).length.toUInt8

theorem SVMInstruction.length_encode :
    instruction.encode.length =
      1 + ((shortBytes instruction.accounts).length + (shortBytes instruction.data).length) := by
  rw [encode, length_cons, length_append, add_comm]

theorem SVMInstruction.three_le_length_encode : 3 ≤ instruction.encode.length := by
  have haccounts := length_compactU16_pos instruction.accounts.length
  have hdata := length_compactU16_pos instruction.data.length
  rw [length_encode, length_shortBytes, length_shortBytes]
  omega

theorem SVMInstruction.encode_standsAt_iff {instruction : SVMInstruction} :
    StandsAt bytes offset instruction.encode ↔
      StandsAt bytes offset [instruction.programIdIndex] ∧
        StandsAt bytes (offset + 1) (shortBytes instruction.accounts) ∧
        StandsAt bytes (offset + 1 + (shortBytes instruction.accounts).length)
          (shortBytes instruction.data) := by
  rw [encode, standsAt_cons, standsAt_append, standsAt_singleton]

include hlength hoffset in
/-- One instruction is read exactly where an encoding of one stands. -/
theorem InstructionFrame.read_iff {frame : InstructionFrame} :
    InstructionFrame.read bytes offset = .ok (frame, offset') ↔
      ∃ instruction : SVMInstruction, instruction.Short ∧
        StandsAt bytes offset instruction.encode ∧ frame = instruction.frame ∧
        offset' = offset + instruction.encode.length := by
  rw [read]
  simp only [bind_eq_ok_iff]
  constructor
  · rintro ⟨⟨program, o1⟩, h1, ⟨numAccounts, o2⟩, h2, o3, h3, ⟨dataLen, o4⟩, h4, o5, h5, h⟩
    obtain ⟨hs1, rfl⟩ := (readByte_iff hlength).mp h1
    have hle1 : offset + 1 ≤ bytes.length := hs1.end_le hoffset
    obtain ⟨accounts, haccounts, hs2, rfl, rfl, rfl⟩ := (readShort_iff hlength hle1).mp ⟨h2, h3⟩
    have hle2 := hs2.end_le hle1
    obtain ⟨data, hdata, hs3, rfl, rfl, rfl⟩ := (readShort_iff hlength hle2).mp ⟨h4, h5⟩
    have hle3 := hs3.end_le hle2
    cases h
    refine ⟨⟨program, accounts, data⟩, ⟨haccounts, hdata⟩, ?_, ?_, ?_⟩
    · exact SVMInstruction.encode_standsAt_iff.mpr ⟨hs1, hs2, hs3⟩
    · have hl2 := length_shortBytes accounts
      have hl3 := length_shortBytes data
      rw [wrappingSub_eq (by omega) (by omega), wrappingSub_eq (by omega) (by omega),
        Nat.add_sub_cancel_left, Nat.add_sub_cancel_left]
      rfl
    · rw [SVMInstruction.length_encode]
      dsimp only
      omega
  · rintro ⟨instruction, ⟨haccounts, hdata⟩, hstands, rfl, rfl⟩
    obtain ⟨hs1, hs2, hs3⟩ := SVMInstruction.encode_standsAt_iff.mp hstands
    have hle1 : offset + 1 ≤ bytes.length := hs1.end_le hoffset
    have hle2 := hs2.end_le hle1
    have hle3 := hs3.end_le hle2
    obtain ⟨h2, h3⟩ := (readShort_iff hlength hle1).mpr ⟨_, haccounts, hs2, rfl, rfl, rfl⟩
    obtain ⟨h4, h5⟩ := (readShort_iff hlength hle2).mpr ⟨_, hdata, hs3, rfl, rfl, rfl⟩
    refine ⟨_, (readByte_iff hlength).mpr ⟨hs1, rfl⟩, _, h2, _, h3, _, h4, _, h5, ?_⟩
    have hl2 := length_shortBytes instruction.accounts
    have hl3 := length_shortBytes instruction.data
    rw [wrappingSub_eq (by omega) (by omega), wrappingSub_eq (by omega) (by omega),
      Nat.add_sub_cancel_left, Nat.add_sub_cancel_left, SVMInstruction.length_encode]
    refine congrArg Except.ok (Prod.ext rfl ?_)
    omega

include hlength hoffset in
/-- The loop reads exactly rows of encodings. -/
theorem InstructionsFrame.readFrames_iff {acc frames : List InstructionFrame} :
    InstructionsFrame.readFrames bytes n offset acc = .ok (frames, offset') ↔
      ∃ instructions : List SVMInstruction, instructions.length = n ∧
        (∀ instruction ∈ instructions, instruction.Short) ∧
        StandsAt bytes offset (instructions.flatMap SVMInstruction.encode) ∧
        frames = acc ++ instructions.map SVMInstruction.frame ∧
        offset' = offset + (instructions.flatMap SVMInstruction.encode).length := by
  induction n generalizing offset acc with
  | zero =>
    constructor
    · intro h
      cases h
      exact ⟨[], rfl, by simp, standsAt_nil, by simp, by simp⟩
    · rintro ⟨instructions, hnil, -, -, rfl, rfl⟩
      rw [length_eq_zero_iff] at hnil
      subst hnil
      simp [readFrames]
  | succ n ih =>
    rw [readFrames, bind_eq_ok_iff]
    constructor
    · rintro ⟨⟨frame, mid⟩, hread, hrest⟩
      obtain ⟨first, hfirst, hs1, rfl, rfl⟩ := (InstructionFrame.read_iff hlength hoffset).mp hread
      obtain ⟨rest, rfl, hshort, hs2, rfl, rfl⟩ := (ih (hs1.end_le hoffset)).mp hrest
      refine ⟨first :: rest, rfl, ?_, ?_, ?_, ?_⟩
      · rintro instruction (_ | ⟨_, hmem⟩)
        · exact hfirst
        · exact hshort _ hmem
      · rw [flatMap_cons, standsAt_append]
        exact ⟨hs1, hs2⟩
      · rw [map_cons, append_assoc, singleton_append]
      · rw [flatMap_cons, length_append, add_assoc]
    · rintro ⟨instructions, hn, hshort, hstands, rfl, rfl⟩
      obtain ⟨first, rest, rfl⟩ := exists_cons_of_length_eq_add_one hn
      rw [flatMap_cons, standsAt_append] at hstands
      refine ⟨(first.frame, offset + first.encode.length), ?_, ?_⟩
      · exact (InstructionFrame.read_iff hlength hoffset).mpr
          ⟨first, hshort _ mem_cons_self, hstands.1, rfl, rfl⟩
      · refine (ih (hstands.1.end_le hoffset)).mpr ⟨rest, by simpa using hn, ?_, hstands.2, ?_, ?_⟩
        · exact fun instruction hmem => hshort _ (mem_cons_of_mem _ hmem)
        · rw [map_cons, append_assoc, singleton_append]
        · rw [flatMap_cons, length_append, add_assoc]

theorem mul_length_le_length_flatMap (h : ∀ x ∈ xs, k ≤ (enc x).length)
    : k * xs.length ≤ (xs.flatMap enc).length := by
  simpa [length_flatMap, mul_comm] using
    card_nsmul_le_sum (xs.map fun x => (enc x).length) k (by simpa using h)

/-- The frame of a row of instructions that begins at the offset. -/
def instructionsFrameAt (offset : ℕ) (instructions : List SVMInstruction) : InstructionsFrame where
  numInstructions := instructions.length.toUInt16
  offset := (offset + (compactU16 instructions.length).length).toUInt16
  frames := instructions.map SVMInstruction.frame

include hlength hoffset in
/-- **The section of the instructions.** -/
theorem InstructionsFrame.tryNew_iff {frame : InstructionsFrame} :
    InstructionsFrame.tryNew bytes offset = .ok (frame, offset') ↔
      ∃ instructions : List SVMInstruction, instructions.length < 2 ^ 14 ∧
        (∀ instruction ∈ instructions, instruction.Short) ∧
        StandsAt bytes offset (shortVec SVMInstruction.encode instructions) ∧
        frame = instructionsFrameAt offset instructions ∧
        offset' = offset + (shortVec SVMInstruction.encode instructions).length := by
  rw [tryNew]
  simp only [bind_eq_ok_iff]
  constructor
  · rintro ⟨⟨num, mid⟩, hnum, -, -, ⟨frames, last⟩, hframes, h⟩
    obtain ⟨hlt, hs1, rfl⟩ := (optimizedReadCompressedU16_iff hlength).mp hnum
    obtain ⟨instructions, hn, hshort, hs2, rfl, rfl⟩ :=
      (readFrames_iff hlength (hs1.end_le hoffset)).mp hframes
    cases h
    dsimp only at hn
    refine ⟨instructions, by omega, hshort, ?_, ?_, ?_⟩
    · rw [shortVec_standsAt_iff, hn]
      exact ⟨hs1, hs2⟩
    · rw [instructionsFrameAt, hn, toUInt16_toNat, nil_append]
    · rw [length_shortVec, hn, add_assoc]
  · rintro ⟨instructions, hlt, hshort, hstands, rfl, rfl⟩
    obtain ⟨hs1, hs2⟩ := shortVec_standsAt_iff.mp hstands
    have hmid := hs1.end_le hoffset
    have hend := hs2.end_le hmid
    have hthree : 3 * instructions.length ≤ (instructions.flatMap SVMInstruction.encode).length :=
      mul_length_le_length_flatMap fun instruction _ => instruction.three_le_length_encode
    have hnat : instructions.length.toUInt16.toNat = instructions.length :=
      toNat_toUInt16 (by omega)
    refine ⟨(instructions.length.toUInt16, offset + (compactU16 instructions.length).length), ?_,
      (), ?_, (instructions.map SVMInstruction.frame, _), ?_, rfl⟩
    · rw [optimizedReadCompressedU16_iff hlength, hnat]
      exact ⟨hlt, hs1, rfl⟩
    · dsimp only
      rw [hnat, wrappingMul_eq (by omega), checkRemaining_iff hlength hmid]
      omega
    · dsimp only
      rw [readFrames_iff hlength hmid, hnat]
      refine ⟨instructions, rfl, hshort, hs2, rfl, ?_⟩
      rw [length_shortVec, add_assoc]

/-! ## Address table lookups -/

/-- The two lengths fit into encodings of two bytes. -/
def SVMMessageAddressTableLookup.Short (lookup : SVMMessageAddressTableLookup) : Prop :=
  lookup.writableIndexes.length < 2 ^ 14 ∧ lookup.readonlyIndexes.length < 2 ^ 14

theorem SVMMessageAddressTableLookup.length_encode :
    lookup.encode.length = 32 + ((shortBytes lookup.writableIndexes).length +
      (shortBytes lookup.readonlyIndexes).length) := by
  rw [encode, length_append, length_append, lookup.accountKey.property]

theorem SVMMessageAddressTableLookup.encode_standsAt_iff {lookup : SVMMessageAddressTableLookup} :
    StandsAt bytes offset lookup.encode ↔
      StandsAt bytes offset lookup.accountKey.val ∧
        StandsAt bytes (offset + 32) (shortBytes lookup.writableIndexes) ∧
        StandsAt bytes (offset + 32 + (shortBytes lookup.writableIndexes).length)
          (shortBytes lookup.readonlyIndexes) := by
  rw [encode, standsAt_append, standsAt_append, lookup.accountKey.property]

/-- The number of indexes that a row of lookups has for writing. -/
def sumWritable (lookups : List SVMMessageAddressTableLookup) : ℕ :=
  (lookups.map fun lookup => lookup.writableIndexes.length).sum

/-- The number of indexes that a row of lookups has for reading. -/
def sumReadonly (lookups : List SVMMessageAddressTableLookup) : ℕ :=
  (lookups.map fun lookup => lookup.readonlyIndexes.length).sum

theorem sumWritable_cons :
    sumWritable (lookup :: lookups) = lookup.writableIndexes.length + sumWritable lookups := by
  rw [sumWritable, map_cons, sum_cons, ← sumWritable]

theorem sumReadonly_cons :
    sumReadonly (lookup :: lookups) = lookup.readonlyIndexes.length + sumReadonly lookups := by
  rw [sumReadonly, map_cons, sum_cons, ← sumReadonly]

theorem toUInt32_add (a b : ℕ) : (a + b).toUInt32 = a.toUInt32 + b.toUInt32 := by
  rw [toUInt32_eq, toUInt32_eq, toUInt32_eq, UInt32.ofNat_add]

theorem toUInt32_toUInt16 (h : n < 2 ^ 14) : n.toUInt16.toUInt32 = n.toUInt32 := by
  apply UInt32.toNat_inj.mp
  rw [UInt16.toNat_toUInt32, toNat_toUInt16 (by omega), toUInt32_eq, UInt32.toNat_ofNat',
    mod_eq_of_lt (by omega)]

include hlength hoffset in
/-- The loop reads exactly rows of encodings, and adds the numbers of their indexes up. -/
theorem AddressTableLookupFrame.readTotals_iff {w r w' r' : UInt32} :
    readTotals bytes n offset w r = .ok ((w', r'), offset') ↔
      ∃ lookups : List SVMMessageAddressTableLookup, lookups.length = n ∧
        (∀ lookup ∈ lookups, lookup.Short) ∧
        StandsAt bytes offset (lookups.flatMap encode) ∧
        w' = w + (sumWritable lookups).toUInt32 ∧ r' = r + (sumReadonly lookups).toUInt32 ∧
        offset' = offset + (lookups.flatMap encode).length := by
  induction n generalizing offset w r with
  | zero =>
    constructor
    · intro h
      cases h
      exact ⟨[], rfl, by simp, standsAt_nil, by simp [sumWritable], by simp [sumReadonly], rfl⟩
    · rintro ⟨lookups, hnil, -, -, rfl, rfl, rfl⟩
      rw [length_eq_zero_iff] at hnil
      subst hnil
      simp [readTotals, sumWritable, sumReadonly]
  | succ n ih =>
    rw [readTotals]
    simp only [bind_eq_ok_iff]
    constructor
    · rintro ⟨o1, h1, ⟨numWrite, o2⟩, h2, o3, h3, ⟨numRead, o4⟩, h4, o5, h5, hrest⟩
      obtain ⟨hle1, rfl⟩ := (advanceOffsetForType_iff hlength hoffset).mp h1
      obtain ⟨key, hs1, hkey⟩ := exists_standsAt hle1
      obtain ⟨writable, hwritable, hs2, rfl, rfl, rfl⟩ := (readShort_iff hlength hle1).mp ⟨h2, h3⟩
      have hle2 := hs2.end_le hle1
      obtain ⟨readonly, hreadonly, hs3, rfl, rfl, rfl⟩ := (readShort_iff hlength hle2).mp ⟨h4, h5⟩
      obtain ⟨rest, rfl, hshort, hs4, rfl, rfl, rfl⟩ := (ih (hs3.end_le hle2)).mp hrest
      refine ⟨⟨⟨key, hkey⟩, writable, readonly⟩ :: rest, rfl, ?_, ?_, ?_, ?_, ?_⟩
      · rintro lookup (_ | ⟨_, hmem⟩)
        · exact ⟨hwritable, hreadonly⟩
        · exact hshort _ hmem
      · rw [flatMap_cons, standsAt_append, encode_standsAt_iff, length_encode, ← add_assoc,
          ← add_assoc]
        exact ⟨⟨hs1, hs2, hs3⟩, hs4⟩
      · rw [toUInt32_toUInt16 hwritable, sumWritable_cons, toUInt32_add, UInt32.add_assoc]
      · rw [toUInt32_toUInt16 hreadonly, sumReadonly_cons, toUInt32_add, UInt32.add_assoc]
      · rw [flatMap_cons, length_append, length_encode]
        dsimp only
        omega
    · rintro ⟨lookups, hn, hshort, hstands, rfl, rfl, rfl⟩
      obtain ⟨first, rest, rfl⟩ := exists_cons_of_length_eq_add_one hn
      rw [flatMap_cons, standsAt_append, encode_standsAt_iff,
        length_encode, ← add_assoc, ← add_assoc] at hstands
      obtain ⟨⟨hs1, hs2, hs3⟩, hs4⟩ := hstands
      obtain ⟨hwritable, hreadonly⟩ := hshort _ mem_cons_self
      have hle1 := hs1.end_le hoffset
      rw [first.accountKey.property] at hle1
      have hle2 := hs2.end_le hle1
      obtain ⟨h2, h3⟩ := (readShort_iff hlength hle1).mpr ⟨_, hwritable, hs2, rfl, rfl, rfl⟩
      obtain ⟨h4, h5⟩ := (readShort_iff hlength hle2).mpr ⟨_, hreadonly, hs3, rfl, rfl, rfl⟩
      refine ⟨_, (advanceOffsetForType_iff hlength hoffset).mpr ⟨hle1, rfl⟩, _, h2, _, h3, _, h4,
        _, h5, ?_⟩
      refine (ih (hs3.end_le hle2)).mpr ⟨rest, by simpa using hn, ?_, hs4, ?_, ?_, ?_⟩
      · exact fun lookup hmem => hshort _ (mem_cons_of_mem _ hmem)
      · rw [toUInt32_toUInt16 hwritable, sumWritable_cons, toUInt32_add, UInt32.add_assoc]
      · rw [toUInt32_toUInt16 hreadonly, sumReadonly_cons, toUInt32_add, UInt32.add_assoc]
      · rw [flatMap_cons, length_append, length_encode]
        omega

theorem sum_map_le_mul {f : α → ℕ} (h : ∀ x ∈ xs, f x ≤ k) : (xs.map f).sum ≤ k * xs.length := by
  simpa [mul_comm] using sum_le_card_nsmul (xs.map f) k (by simpa using h)

theorem u16TryFrom_iff {x : UInt16} (hn : n < 2 ^ 32) :
    u16TryFrom n.toUInt32 = .ok x ↔ n < 2 ^ 16 ∧ x = n.toUInt16 := by
  have hnat : n.toUInt32.toNat = n := by rw [toUInt32_eq, UInt32.toNat_ofNat', mod_eq_of_lt hn]
  have hcast : n.toUInt32.toUInt16 = n.toUInt16 := by
    apply UInt16.toNat_inj.mp
    rw [UInt32.toNat_toUInt16, hnat, toUInt16_eq, UInt16.toNat_ofNat']
  rw [u16TryFrom, hnat, hcast]
  split
  · rename_i hlt
    constructor
    · intro h
      exact ⟨hlt, (Except.ok.inj h).symm⟩
    · rintro ⟨-, rfl⟩
      rfl
  · rename_i hge
    constructor
    · intro h
      cases h
    · intro h
      exact absurd h.1 hge

/-- The frame of a row of lookups that begins at the offset. -/
def lookupFrameAt (offset : ℕ) (lookups : List SVMMessageAddressTableLookup) :
    AddressTableLookupFrame where
  numAddressTableLookups := lookups.length.toUInt8
  offset := (offset + 1).toUInt16
  totalWritableLookupAccounts := (sumWritable lookups).toUInt16
  totalReadonlyLookupAccounts := (sumReadonly lookups).toUInt16

/-- What the section of the lookups accepts beyond encodings: the number of lookups, the sizes
of their rows and the two totals are bounded. -/
structure LookupsWithin (lookups : List SVMMessageAddressTableLookup) : Prop where
  length_le : lookups.length ≤ maxAtlsPerPacket.toNat
  short : ∀ lookup ∈ lookups, lookup.Short
  writable_lt : sumWritable lookups < 2 ^ 16
  readonly_lt : sumReadonly lookups < 2 ^ 16

include hlength hoffset in
/-- **The section of the lookups.**  It asks in advance for room for lookups of the least size
that passes the later checks. -/
theorem AddressTableLookupFrame.tryNew_iff {frame : AddressTableLookupFrame} :
    tryNew bytes offset = .ok (frame, offset') ↔
      ∃ lookups : List SVMMessageAddressTableLookup, LookupsWithin lookups ∧
        offset + 1 + minSizedAtl * lookups.length ≤ bytes.length ∧
        StandsAt bytes offset (shortVec encode lookups) ∧
        frame = lookupFrameAt offset lookups ∧
        offset' = offset + (shortVec encode lookups).length := by
  have hmax : maxAtlsPerPacket.toNat = 31 := by decide
  have hsum : ∀ lookups : List SVMMessageAddressTableLookup, lookups.length ≤ 31 →
      (∀ lookup ∈ lookups, lookup.Short) →
      sumWritable lookups < 2 ^ 32 ∧ sumReadonly lookups < 2 ^ 32 := by
    intro lookups hle hshort
    have hw : sumWritable lookups ≤ 2 ^ 14 * lookups.length :=
      sum_map_le_mul fun lookup hmem => (hshort lookup hmem).1.le
    have hr : sumReadonly lookups ≤ 2 ^ 14 * lookups.length :=
      sum_map_le_mul fun lookup hmem => (hshort lookup hmem).2.le
    constructor <;> omega
  rw [tryNew, bind_eq_ok_iff]
  constructor
  · rintro ⟨⟨num, mid⟩, hread, h⟩
    obtain ⟨hs1, rfl⟩ := (readByte_iff hlength).mp hread
    have hmid : offset + 1 ≤ bytes.length := hs1.end_le hoffset
    dsimp only at h
    split at h
    · cases h
    rename_i hnum
    rw [gt_iff_lt, UInt8.lt_iff_toNat_lt, hmax] at hnum
    simp only [bind_eq_ok_iff] at h
    obtain ⟨⟨⟩, hremaining, ⟨⟨w, r⟩, last⟩, htotals, x, hx, y, hy, h⟩ := h
    rw [wrappingMul_eq (by simp only [minSizedAtl]; omega), checkRemaining_iff hlength hmid]
      at hremaining
    obtain ⟨lookups, hn, hshort, hs2, rfl, rfl, rfl⟩ := (readTotals_iff hlength hmid).mp htotals
    obtain ⟨hwlt, hrlt⟩ := hsum lookups (by omega) hshort
    dsimp only at hx hy
    rw [UInt32.zero_add] at hx hy
    obtain ⟨hw, rfl⟩ := (u16TryFrom_iff hwlt).mp hx
    obtain ⟨hr, rfl⟩ := (u16TryFrom_iff hrlt).mp hy
    cases h
    have hcompact : compactU16 lookups.length = [num] := by
      rw [hn, compactU16_of_lt (by omega), toUInt8_toNat]
    refine ⟨lookups, ⟨by omega, hshort, hw, hr⟩, ?_, ?_, ?_, ?_⟩
    · rwa [hn]
    · rw [shortVec_standsAt_iff, hcompact]
      exact ⟨hs1, hs2⟩
    · rw [lookupFrameAt, hn, toUInt8_toNat]
    · rw [length_shortVec, hcompact, length_singleton]
      omega
  · rintro ⟨lookups, ⟨hle, hshort, hw, hr⟩, hroom, hstands, rfl, rfl⟩
    rw [hmax] at hle
    obtain ⟨hwlt, hrlt⟩ := hsum lookups hle hshort
    have hnat : lookups.length.toUInt8.toNat = lookups.length := toNat_toUInt8 (by omega)
    obtain ⟨hs1, hs2⟩ := shortVec_standsAt_iff.mp hstands
    rw [length_shortVec]
    rw [compactU16_of_lt (by omega)] at hs1 hs2 ⊢
    rw [length_singleton] at hs2 ⊢
    have hmid : offset + 1 ≤ bytes.length := hs1.end_le hoffset
    refine ⟨(lookups.length.toUInt8, offset + 1), (readByte_iff hlength).mpr ⟨hs1, rfl⟩, ?_⟩
    have hnum : ¬lookups.length.toUInt8 > maxAtlsPerPacket := by
      rw [gt_iff_lt, UInt8.lt_iff_toNat_lt, hnat, hmax]
      omega
    dsimp only
    rw [if_neg hnum]
    simp only [bind_eq_ok_iff]
    refine ⟨(), ?_, (((sumWritable lookups).toUInt32, (sumReadonly lookups).toUInt32), _), ?_,
      _, (u16TryFrom_iff hwlt).mpr ⟨hw, rfl⟩, _, (u16TryFrom_iff hrlt).mpr ⟨hr, rfl⟩, rfl⟩
    · rw [hnat, wrappingMul_eq (by simp only [minSizedAtl]; omega), checkRemaining_iff hlength hmid]
      exact hroom
    · rw [readTotals_iff hlength hmid, hnat]
      refine ⟨lookups, rfl, hshort, hs2, ?_, ?_, ?_⟩
      · rw [UInt32.zero_add]
      · rw [UInt32.zero_add]
      · rw [add_assoc]

end
end FlowraValidator.Transactions
