import FlowraValidator.TransactionView.Bytes

/-!
# The frames of a transaction view

A view goes once through the bytes of a serialized transaction and keeps where its parts are:
the number of signatures and static account keys, the three counts of the header, the place of
the blockhash, the instructions with the sizes of their two lengths, and the address table
lookups with the numbers of accounts that they load. The accessors read the parts from the
bytes again, the instructions without any check.

* `TransactionFrame.tryNew`: the pass over the bytes.
* `InstructionsIterator.next`, `AddressTableLookupIterator.next`: the two iterators, with
  `collect` for their items.
* `TransactionView`: the frame with its bytes; `sanitize`: the checks behind parsing.
-/

namespace FlowraValidator.Transactions
open Wire

/-- `PACKET_DATA_SIZE`. -/
def packetDataSize : ℕ := 1232

/-! ## Signatures and static account keys -/

/-- A count of one byte, at least one and at most `max`, and that many elements of `size`
bytes: the count and the offset of the elements. -/
def countedArray (size : ℕ) (max : UInt8) (bytes : List UInt8) (offset : ℕ) :
    Result ((UInt8 × UInt16) × ℕ) := do
  let (num, offset) ← readByte bytes offset
  if num = 0 ∨ num > max then .error .parseError
  else do
    let arrayOffset := offset.toUInt16
    let offset ← advanceOffsetForArray size bytes offset num.toUInt16
    pure ((num, arrayOffset), offset)

/-- `MAX_SIGNATURES_PER_PACKET`. -/
def maxSignaturesPerPacket : UInt8 := (packetDataSize / (64 + 32)).toUInt8

structure SignatureFrame where
  numSignatures : UInt8
  offset : UInt16

variable (bytes : List UInt8)

/-- `SignatureFrame::try_new`. -/
def SignatureFrame.tryNew (offset : ℕ) : Result (SignatureFrame × ℕ) := do
  let ((numSignatures, signatureOffset), offset) ←
    countedArray 64 maxSignaturesPerPacket bytes offset
  pure (⟨numSignatures, signatureOffset⟩, offset)

/-- `MAX_STATIC_ACCOUNTS_PER_PACKET`. -/
def maxStaticAccountsPerPacket : UInt8 := (packetDataSize / 32).toUInt8

structure StaticAccountKeysFrame where
  numStaticAccounts : UInt8
  offset : UInt16

/-- `StaticAccountKeysFrame::try_new`. -/
def StaticAccountKeysFrame.tryNew (offset : ℕ) :
    Result (StaticAccountKeysFrame × ℕ) := do
  let ((numStaticAccounts, staticAccountsOffset), offset) ←
    countedArray 32 maxStaticAccountsPerPacket bytes offset
  pure (⟨numStaticAccounts, staticAccountsOffset⟩, offset)

/-! ## Message header -/

inductive TransactionVersion
  | legacy
  | v0
  deriving DecidableEq

/-- `MESSAGE_VERSION_PREFIX`. -/
def messageVersionPrefix : UInt8 := 0x80

structure MessageHeaderFrame where
  offset : UInt16
  version : TransactionVersion
  numRequiredSignatures : UInt8
  numReadonlySignedAccounts : UInt8
  numReadonlyUnsignedAccounts : UInt8

/-- The version and the number of required signatures, from the first byte of the message on. -/
def readVersion (messagePrefix : UInt8) (offset : ℕ) :
    Result ((TransactionVersion × UInt8) × ℕ) :=
  if messagePrefix &&& messageVersionPrefix ≠ 0 then
    if messagePrefix &&& ~~~messageVersionPrefix = 0 then do
      let (numRequiredSignatures, offset) ← readByte bytes offset
      pure ((TransactionVersion.v0, numRequiredSignatures), offset)
    else .error .parseError
  -- a legacy message has no such byte: what was read is the number of signatures
  else pure ((TransactionVersion.legacy, messagePrefix), offset)

/-- `MessageHeaderFrame::try_new`. -/
def MessageHeaderFrame.tryNew (offset : ℕ) :
    Result (MessageHeaderFrame × ℕ) := do
  let messageOffset := offset.toUInt16
  let (messagePrefix, offset) ← readByte bytes offset
  let ((version, numRequiredSignatures), offset) ← readVersion bytes messagePrefix offset
  let (numReadonlySignedAccounts, offset) ← readByte bytes offset
  let (numReadonlyUnsignedAccounts, offset) ← readByte bytes offset
  pure (⟨messageOffset, version, numRequiredSignatures, numReadonlySignedAccounts,
    numReadonlyUnsignedAccounts⟩, offset)

/-! ## Instructions -/

structure InstructionFrame where
  numAccounts : UInt16
  dataLen : UInt16
  numAccountsLen : UInt8
  dataLenLen : UInt8

structure InstructionsFrame where
  numInstructions : UInt16
  offset : UInt16
  frames : List InstructionFrame

/-- One instruction: the byte of its program, its account indexes and its data. -/
def InstructionFrame.read (offset : ℕ) : Result (InstructionFrame × ℕ) := do
  let (_programIdIndex, offset) ← readByte bytes offset
  let numAccountsOffset := offset
  let (numAccounts, offset) ← optimizedReadCompressedU16 bytes offset
  let numAccountsLen := (wrappingSub offset numAccountsOffset).toUInt8
  let offset ← advanceOffsetForArray 1 bytes offset numAccounts
  let dataLenOffset := offset
  let (dataLen, offset) ← optimizedReadCompressedU16 bytes offset
  let dataLenLen := (wrappingSub offset dataLenOffset).toUInt8
  let offset ← advanceOffsetForArray 1 bytes offset dataLen
  pure (⟨numAccounts, dataLen, numAccountsLen, dataLenLen⟩, offset)

/-- The loop over the instructions. -/
def InstructionsFrame.readFrames (bytes : List UInt8) :
    ℕ → ℕ → List InstructionFrame → Result (List InstructionFrame × ℕ)
  | 0, offset, frames => .ok (frames, offset)
  | n + 1, offset, frames => do
    let (frame, offset) ← InstructionFrame.read bytes offset
    readFrames bytes n offset (frames ++ [frame])

/-- `InstructionsFrame::try_new`. -/
def InstructionsFrame.tryNew (offset : ℕ) :
    Result (InstructionsFrame × ℕ) := do
  let (numInstructions, offset) ← optimizedReadCompressedU16 bytes offset
  checkRemaining bytes offset (wrappingMul 3 numInstructions.toNat)
  let instructionsOffset := offset.toUInt16
  let (frames, offset) ← readFrames bytes numInstructions.toNat offset []
  pure (⟨numInstructions, instructionsOffset, frames⟩, offset)

/-! ## Address table lookups -/

/-- `MIN_SIZED_ATL`. -/
def minSizedAtl : ℕ := 32 + 1 + 1 + 1

/-- `MIN_SIZED_PACKET_WITH_ATLS`. -/
def minSizedPacketWithAtls : ℕ := 1 + 64 + 1 + 3 + 1 + 32 + 32 + 1 + 1

/-- `MAX_ATLS_PER_PACKET`. -/
def maxAtlsPerPacket : UInt8 := ((packetDataSize - minSizedPacketWithAtls) / minSizedAtl).toUInt8

structure AddressTableLookupFrame where
  numAddressTableLookups : UInt8
  offset : UInt16
  totalWritableLookupAccounts : UInt16
  totalReadonlyLookupAccounts : UInt16

/-- The loop over the lookups, with the two running totals. -/
def AddressTableLookupFrame.readTotals (bytes : List UInt8) :
    ℕ → ℕ → UInt32 → UInt32 → Result ((UInt32 × UInt32) × ℕ)
  | 0, offset, totalWritable, totalReadonly => .ok ((totalWritable, totalReadonly), offset)
  | n + 1, offset, totalWritable, totalReadonly => do
    let offset ← advanceOffsetForType 32 bytes offset
    let (numWriteAccounts, offset) ← optimizedReadCompressedU16 bytes offset
    let totalWritable := totalWritable + numWriteAccounts.toUInt32
    let offset ← advanceOffsetForArray 1 bytes offset numWriteAccounts
    let (numReadAccounts, offset) ← optimizedReadCompressedU16 bytes offset
    let totalReadonly := totalReadonly + numReadAccounts.toUInt32
    let offset ← advanceOffsetForArray 1 bytes offset numReadAccounts
    readTotals bytes n offset totalWritable totalReadonly

/-- `u16::try_from`, a sanitize error when it does not fit. -/
def u16TryFrom (x : UInt32) : Result UInt16 :=
  if x.toNat < 2 ^ 16 then .ok x.toUInt16 else .error .sanitizeError

/-- `AddressTableLookupFrame::try_new`. -/
def AddressTableLookupFrame.tryNew (offset : ℕ) :
    Result (AddressTableLookupFrame × ℕ) := do
  let (numAddressTableLookups, offset) ← readByte bytes offset
  if numAddressTableLookups > maxAtlsPerPacket then .error .parseError
  else do
    checkRemaining bytes offset (wrappingMul minSizedAtl numAddressTableLookups.toNat)
    let addressTableLookupsOffset := offset.toUInt16
    let ((totalWritable, totalReadonly), offset) ←
      readTotals bytes numAddressTableLookups.toNat offset 0 0
    let totalWritableLookupAccounts ← u16TryFrom totalWritable
    let totalReadonlyLookupAccounts ← u16TryFrom totalReadonly
    pure (⟨numAddressTableLookups, addressTableLookupsOffset, totalWritableLookupAccounts,
      totalReadonlyLookupAccounts⟩, offset)

/-! ## The whole transaction -/

structure TransactionFrame where
  signature : SignatureFrame
  messageHeader : MessageHeaderFrame
  staticAccountKeys : StaticAccountKeysFrame
  recentBlockhashOffset : UInt16
  instructions : InstructionsFrame
  addressTableLookup : AddressTableLookupFrame

/-- The lookups by the version of the message: a legacy transaction has none. -/
def readLookups (version : TransactionVersion) (bytes : List UInt8) (offset : ℕ) :
    Result (AddressTableLookupFrame × ℕ) :=
  match version with
  | .legacy => pure (⟨0, 0, 0, 0⟩, offset)
  | .v0 => AddressTableLookupFrame.tryNew bytes offset

/-- `TransactionFrame::try_new`. -/
def TransactionFrame.tryNew : Result TransactionFrame := do
  let (signature, offset) ← SignatureFrame.tryNew bytes 0
  let (messageHeader, offset) ← MessageHeaderFrame.tryNew bytes offset
  let (staticAccountKeys, offset) ← StaticAccountKeysFrame.tryNew bytes offset
  let recentBlockhashOffset := offset.toUInt16
  let offset ← advanceOffsetForType 32 bytes offset
  let (instructions, offset) ← InstructionsFrame.tryNew bytes offset
  let (addressTableLookup, offset) ← readLookups messageHeader.version bytes offset
  -- the entire transaction has to be parsed
  if offset ≠ bytes.length then .error .parseError
  else pure ⟨signature, messageHeader, staticAccountKeys, recentBlockhashOffset, instructions,
    addressTableLookup⟩

/-! ## Iterators -/

/-- The items that an iterator yields before it ends, within a number of calls. -/
def collectWithin {σ α : Type} (next : σ → Option (Option α × σ)) : ℕ → σ → Option (List α)
  | 0, _ => none
  | calls + 1, it => do
    match ← next it with
    | (none, _) => pure []
    | (some item, it) =>
      let items ← collectWithin next calls it
      pure (item :: items)

structure SVMInstruction where
  programIdIndex : UInt8
  accounts : List UInt8
  data : List UInt8

structure InstructionsIterator where
  bytes : List UInt8
  offset : ℕ
  numInstructions : UInt16
  index : UInt16
  frames : List InstructionFrame

/-- `InstructionsIterator::next`, which has no meaning outside the frames or the buffer. -/
def InstructionsIterator.next (it : InstructionsIterator) :
    Option (Option SVMInstruction × InstructionsIterator) :=
  if it.index < it.numInstructions then do
    let frame ← it.frames[it.index.toNat]?
    let (programIdIndex, offset) ← uncheckedReadByte it.bytes it.offset
    let offset := wrappingAdd offset frame.numAccountsLen.toNat
    let (accounts, offset) ← uncheckedReadSliceData it.bytes offset frame.numAccounts
    let offset := wrappingAdd offset frame.dataLenLen.toNat
    let (data, offset) ← uncheckedReadSliceData it.bytes offset frame.dataLen
    pure (some ⟨programIdIndex, accounts, data⟩, { it with index := it.index + 1, offset })
  else pure (none, it)

/-- `InstructionsIterator::len`. -/
def InstructionsIterator.len (it : InstructionsIterator) : ℕ :=
  (it.numInstructions - it.index).toNat

/-- The instructions up to the end of the iterator. -/
def InstructionsIterator.collect (it : InstructionsIterator) : Option (List SVMInstruction) :=
  collectWithin next (it.len + 1) it

structure SVMMessageAddressTableLookup where
  accountKey : Pubkey
  writableIndexes : List UInt8
  readonlyIndexes : List UInt8

structure AddressTableLookupIterator where
  bytes : List UInt8
  offset : ℕ
  numAddressTableLookups : UInt8
  index : UInt8

/-- The parts of one lookup, each read with its checks. -/
def AddressTableLookupIterator.read (offset : ℕ) :
    Result (SVMMessageAddressTableLookup × ℕ) := do
  let (accountKey, offset) ← readPubkey bytes offset
  let (numWriteAccounts, offset) ← optimizedReadCompressedU16 bytes offset
  let (writableIndexes, offset) ← readSliceData bytes offset numWriteAccounts
  let (numReadAccounts, offset) ← optimizedReadCompressedU16 bytes offset
  let (readonlyIndexes, offset) ← readSliceData bytes offset numReadAccounts
  pure (⟨accountKey, writableIndexes, readonlyIndexes⟩, offset)

/-- `AddressTableLookupIterator::next`; it ends where a lookup cannot be read. -/
def AddressTableLookupIterator.next (it : AddressTableLookupIterator) :
    Option SVMMessageAddressTableLookup × AddressTableLookupIterator :=
  if it.index < it.numAddressTableLookups then
    match read it.bytes it.offset with
    | .error _ => (none, { it with index := it.index + 1 })
    | .ok (lookup, offset) => (some lookup, { it with index := it.index + 1, offset })
  else (none, it)

/-- `AddressTableLookupIterator::len`. -/
def AddressTableLookupIterator.len (it : AddressTableLookupIterator) : ℕ :=
  (it.numAddressTableLookups - it.index).toNat

/-- The lookups up to the end of the iterator. -/
def AddressTableLookupIterator.collect (it : AddressTableLookupIterator) :
    Option (List SVMMessageAddressTableLookup) :=
  collectWithin (fun it => some it.next) (it.len + 1) it

/-! ## Views -/

/-- A view is the bytes of a transaction and their frame; the parameter says whether the checks
of `sanitize` have been made. -/
structure TransactionView (sanitized : Bool) where
  data : List UInt8
  frame : TransactionFrame

/-- `TransactionView::try_new_unsanitized`. -/
def TransactionView.tryNewUnsanitized (data : List UInt8) : Result (TransactionView false) := do
  let frame ← TransactionFrame.tryNew data
  pure ⟨data, frame⟩

namespace TransactionView
variable {sanitized : Bool} (view : TransactionView sanitized)

def numSignatures : UInt8 := view.frame.signature.numSignatures

def version : TransactionVersion := view.frame.messageHeader.version

def numRequiredSignatures : UInt8 := view.frame.messageHeader.numRequiredSignatures

def numReadonlySignedStaticAccounts : UInt8 := view.frame.messageHeader.numReadonlySignedAccounts

def numReadonlyUnsignedStaticAccounts : UInt8 :=
  view.frame.messageHeader.numReadonlyUnsignedAccounts

def numStaticAccountKeys : UInt8 := view.frame.staticAccountKeys.numStaticAccounts

def numInstructions : UInt16 := view.frame.instructions.numInstructions

def numAddressTableLookups : UInt8 := view.frame.addressTableLookup.numAddressTableLookups

def totalWritableLookupAccounts : UInt16 :=
  view.frame.addressTableLookup.totalWritableLookupAccounts

def totalReadonlyLookupAccounts : UInt16 :=
  view.frame.addressTableLookup.totalReadonlyLookupAccounts

/-- `signatures`, an unchecked read. -/
def signatures : Option (List Signature) :=
  blocks view.data 64 view.frame.signature.offset.toNat view.numSignatures.toNat

/-- `static_account_keys`, an unchecked read. -/
def staticAccountKeys : Option (List Pubkey) :=
  blocks view.data 32 view.frame.staticAccountKeys.offset.toNat view.numStaticAccountKeys.toNat

/-- `recent_blockhash`, an unchecked read. -/
def recentBlockhash : Option Hash := block view.data view.frame.recentBlockhashOffset.toNat 32

def instructionsIter : InstructionsIterator where
  bytes := view.data
  offset := view.frame.instructions.offset.toNat
  numInstructions := view.frame.instructions.numInstructions
  index := 0
  frames := view.frame.instructions.frames

def addressTableLookupIter : AddressTableLookupIterator where
  bytes := view.data
  offset := view.frame.addressTableLookup.offset.toNat
  numAddressTableLookups := view.frame.addressTableLookup.numAddressTableLookups
  index := 0

end TransactionView

/-! ## The checks behind parsing -/

/-- `MAX_INSTRUCTION_TRACE_LENGTH`. -/
def maxInstructionTraceLength : ℕ := 64

/-- `MAX_ACCOUNTS_PER_INSTRUCTION`. -/
def maxAccountsPerInstruction : ℕ := 255

section Sanitize
variable (view : TransactionView false)

/-- A check of `sanitize` that returns with an error when its condition holds. -/
def rejectIf (condition : Prop) [Decidable condition] : Result Unit :=
  if condition then .error .sanitizeError else .ok ()

def sanitizeSignatures : Result Unit := do
  rejectIf (view.numSignatures ≠ view.numRequiredSignatures)
  -- each signature belongs to a static key of its own
  rejectIf (view.numStaticAccountKeys < view.numSignatures)

/-- `u16::saturating_add`. -/
def saturatingAdd (a b : UInt16) : UInt16 := if a.toNat + b.toNat < 2 ^ 16 then a + b else 0xFFFF

def totalNumberOfAccounts : UInt16 :=
  saturatingAdd (saturatingAdd view.numStaticAccountKeys.toUInt16 view.totalWritableLookupAccounts)
    view.totalReadonlyLookupAccounts

def sanitizeAccountAccess : Result Unit := do
  -- the readonly keys without signature do not reach into the keys with signature
  rejectIf (view.numReadonlyUnsignedStaticAccounts >
    view.numStaticAccountKeys - view.numRequiredSignatures)
  -- there is a writable fee payer
  rejectIf (view.numReadonlySignedStaticAccounts ≥ view.numRequiredSignatures)
  rejectIf (totalNumberOfAccounts view > 256)

/-- The body of the loop over the instructions. -/
def sanitizeInstruction (maxProgramIdIndex maxAccountIndex : UInt8)
    (enableInstructionAccountsLimit : Bool) (instruction : SVMInstruction) : Result Unit := do
  rejectIf (instruction.programIdIndex > maxProgramIdIndex)
  -- the program is not the fee payer
  rejectIf (instruction.programIdIndex = 0)
  instruction.accounts.forM fun accountIndex => rejectIf (accountIndex > maxAccountIndex)
  rejectIf (enableInstructionAccountsLimit = true ∧
    instruction.accounts.length > maxAccountsPerInstruction)

def sanitizeInstructions (enableInstructionAccountsLimit : Bool) : Option (Result Unit) := do
  let instructions ← view.instructionsIter.collect
  let maxProgramIdIndex := view.numStaticAccountKeys - 1
  let maxAccountIndex := (totalNumberOfAccounts view - 1).toUInt8
  pure do
    rejectIf (view.numInstructions.toNat > maxInstructionTraceLength)
    instructions.forM
      (sanitizeInstruction maxProgramIdIndex maxAccountIndex enableInstructionAccountsLimit)

def sanitizeAddressTableLookups : Option (Result Unit) := do
  let lookups ← view.addressTableLookupIter.collect
  pure (lookups.forM fun lookup =>
    rejectIf (lookup.writableIndexes = [] ∧ lookup.readonlyIndexes = []))

/-- `sanitize`, with no result where an iterator would read outside the buffer. -/
def sanitize (enableInstructionAccountsLimit : Bool) : Option (Result Unit) := do
  let instructions ← sanitizeInstructions view enableInstructionAccountsLimit
  let lookups ← sanitizeAddressTableLookups view
  pure do
    sanitizeSignatures view
    sanitizeAccountAccess view
    instructions
    lookups

end Sanitize
end FlowraValidator.Transactions
