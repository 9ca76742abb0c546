import FlowraValidator.Lib.Wire

/-!
# Reading the bytes of a serialized transaction

The readers of `bytes.rs`. A reader goes through the bytes with an offset of machine size, so
that its additions and subtractions wrap around; the checked readers return an error when the
bytes are too short, the unchecked ones have no meaning outside the buffer (`none`).

Each reader has one specification: for a buffer of at most `2 ^ 16 - 1` bytes it says, in terms
of `Wire.StandsAt`, what is accepted and where the offset is left.

* `optimizedReadCompressedU16_iff`: exactly the minimal encodings of one and two bytes.
-/

namespace FlowraValidator.Transactions
open Wire Nat Except

inductive TransactionViewError
  | parseError
  | sanitizeError
  | addressLookupMismatch
  deriving DecidableEq

abbrev Result := Except TransactionViewError

abbrev Pubkey := Block UInt8 32

abbrev Signature := Block UInt8 64

abbrev Hash := Block UInt8 32

/-! ## Offsets of machine size -/

/-- `usize::wrapping_add`. -/
def wrappingAdd (a b : ℕ) : ℕ := (a + b) % 2 ^ 64

/-- `usize::wrapping_sub`. -/
def wrappingSub (a b : ℕ) : ℕ := (a + 2 ^ 64 - b) % 2 ^ 64

/-- `usize::wrapping_mul`. -/
def wrappingMul (a b : ℕ) : ℕ := (a * b) % 2 ^ 64

variable {a b : ℕ}

theorem wrappingAdd_eq (h : a + b < 2 ^ 64) : wrappingAdd a b = a + b := mod_eq_of_lt h

theorem wrappingSub_eq (hle : b ≤ a) (h : a < 2 ^ 64) : wrappingSub a b = a - b := by
  rw [wrappingSub]
  omega

theorem wrappingMul_eq (h : a * b < 2 ^ 64) : wrappingMul a b = a * b := mod_eq_of_lt h

/-! ## The readers -/

/-- `check_remaining`. -/
def checkRemaining (bytes : List UInt8) (offset numBytes : ℕ) : Result Unit :=
  if numBytes > wrappingSub bytes.length offset then .error .parseError else .ok ()

/-- `read_byte`. -/
def readByte (bytes : List UInt8) (offset : ℕ) : Result (UInt8 × ℕ) :=
  match bytes[offset]? with
  | none => .error .parseError
  | some value => .ok (value, wrappingAdd offset 1)

/-- `unchecked_read_byte`. -/
def uncheckedReadByte (bytes : List UInt8) (offset : ℕ) : Option (UInt8 × ℕ) := do
  let value ← bytes[offset]?
  pure (value, wrappingAdd offset 1)

/-- `optimized_read_compressed_u16`. -/
def optimizedReadCompressedU16 (bytes : List UInt8) (offset : ℕ) : Result (UInt16 × ℕ) :=
  match bytes[offset]? with
  | none => .error .parseError
  | some byte1 =>
    let result := (byte1 &&& 0x7F).toUInt16
    if byte1 &&& 0x80 = 0 then .ok (result, wrappingAdd offset 1)
    else
      match bytes[wrappingAdd offset 1]? with
      | none => .error .parseError
      | some byte2 =>
        -- an encoding that is not minimal, or a third byte
        if byte2 = 0 ∨ byte2 &&& 0x80 ≠ 0 then .error .parseError
        else .ok (result ||| (byte2 &&& 0x7F).toUInt16 <<< 7, wrappingAdd offset 2)

/-- `advance_offset_for_array`, for elements of `size` bytes. -/
def advanceOffsetForArray (size : ℕ) (bytes : List UInt8) (offset : ℕ) (numElements : UInt16) :
    Result ℕ := do
  let arrayLenBytes := wrappingMul numElements.toNat size
  checkRemaining bytes offset arrayLenBytes
  pure (wrappingAdd offset arrayLenBytes)

/-- `advance_offset_for_type`, for a type of `size` bytes. -/
def advanceOffsetForType (size : ℕ) (bytes : List UInt8) (offset : ℕ) : Result ℕ := do
  checkRemaining bytes offset size
  pure (wrappingAdd offset size)

/-- `read_slice_data::<u8>`. -/
def readSliceData (bytes : List UInt8) (offset : ℕ) (numElements : UInt16) :
    Result (List UInt8 × ℕ) := do
  let offset' ← advanceOffsetForArray 1 bytes offset numElements
  pure ((bytes.drop offset).take numElements.toNat, offset')

/-- `unchecked_read_slice_data::<u8>`. -/
def uncheckedReadSliceData (bytes : List UInt8) (offset : ℕ) (numElements : UInt16) :
    Option (List UInt8 × ℕ) := do
  let arrayLenBytes := wrappingMul numElements.toNat 1
  let data ← slice bytes offset numElements.toNat
  pure (data, wrappingAdd offset arrayLenBytes)

/-- `read_type::<Pubkey>`. -/
def readPubkey (bytes : List UInt8) (offset : ℕ) : Result (Pubkey × ℕ) := do
  checkRemaining bytes offset 32
  match block bytes offset 32 with
  | none => .error .parseError
  | some key => pure (key, wrappingAdd offset 32)

/-! ## What the readers accept -/

section
variable {bytes : List UInt8} {offset : ℕ}

variable (hlength : bytes.length < 2 ^ 16) (hoffset : offset ≤ bytes.length)
include hlength hoffset in
theorem checkRemaining_iff {n : ℕ} :
    checkRemaining bytes offset n = .ok () ↔ offset + n ≤ bytes.length := by
  rw [checkRemaining, wrappingSub_eq hoffset (by omega)]
  split
  · rename_i hgt
    constructor
    · intro h
      cases h
    · intro h
      omega
  · rename_i hle
    refine ⟨fun _ => by omega, fun _ => rfl⟩

variable {offset' : ℕ} {n : UInt16} {x : UInt8} {size : ℕ} {part : List UInt8}
include hlength in
theorem readByte_iff :
    readByte bytes offset = .ok (x, offset') ↔
      StandsAt bytes offset [x] ∧ offset' = offset + 1 := by
  rw [readByte, standsAt_singleton]
  cases hx : bytes[offset]? with
  | none => simp
  | some value =>
    obtain ⟨hlt, -⟩ := List.getElem?_eq_some_iff.mp hx
    simp only [wrappingAdd_eq (show offset + 1 < 2 ^ 64 by omega), ok.injEq,
      Prod.mk.injEq, Option.some.injEq]
    exact and_congr_right fun _ => eq_comm

include hlength in
theorem uncheckedReadByte_eq (h : StandsAt bytes offset [x]) :
    uncheckedReadByte bytes offset = some (x, offset + 1) := by
  have hx := standsAt_singleton.mp h
  obtain ⟨hlt, -⟩ := List.getElem?_eq_some_iff.mp hx
  rw [uncheckedReadByte, hx]
  show some (x, wrappingAdd offset 1) = _
  rw [wrappingAdd_eq (by omega)]

/-- The value that two bytes of seven bits make. -/
theorem toNat_two_bytes {b1 b2 : UInt8} (h2 : b2.toNat < 2 ^ 7) :
    ((b1 &&& 0x7F).toUInt16 ||| (b2 &&& 0x7F).toUInt16 <<< 7).toNat =
      b1.toNat % 2 ^ 7 + 2 ^ 7 * b2.toNat := by
  have hlow : b1.toNat % 2 ^ 7 < 2 ^ 7 := mod_lt _ (by decide)
  have hshift : ((b2 &&& 0x7F).toUInt16 <<< 7).toNat = 2 ^ 7 * b2.toNat := by
    rw [UInt16.toNat_shiftLeft, UInt8.toNat_toUInt16, and_low_toNat, mod_eq_of_lt h2,
      shiftLeft_eq]
    show b2.toNat * 2 ^ 7 % 2 ^ 16 = _
    omega
  rw [UInt16.toNat_or, hshift, UInt8.toNat_toUInt16, and_low_toNat, Nat.or_comm,
    ← Nat.two_pow_add_eq_or_of_lt hlow, Nat.add_comm]

include hlength in
/-- **A length is read exactly where its minimal encoding of one or two bytes stands.** -/
theorem optimizedReadCompressedU16_iff :
    optimizedReadCompressedU16 bytes offset = .ok (n, offset') ↔
      n.toNat < 2 ^ 14 ∧ StandsAt bytes offset (compactU16 n.toNat) ∧
        offset' = offset + (compactU16 n.toNat).length := by
  rw [optimizedReadCompressedU16]
  constructor
  · intro h
    split at h
    · cases h
    rename_i byte1 h1
    obtain ⟨hlt, -⟩ := List.getElem?_eq_some_iff.mp h1
    rw [wrappingAdd_eq (by omega), wrappingAdd_eq (by omega)] at h
    by_cases hhigh : byte1 &&& 0x80 = 0
    · rw [if_pos hhigh] at h
      have hsmall := (and_high_eq_zero_iff _).mp hhigh
      cases h
      have hvalue : (byte1 &&& 0x7F).toUInt16.toNat = byte1.toNat := by
        rw [UInt8.toNat_toUInt16, and_low_toNat, mod_eq_of_lt hsmall]
      rw [hvalue]
      refine ⟨by omega, ?_, ?_⟩
      · exact (standsAt_compactU16_iff (by omega)).mpr ⟨byte1, h1, .inl ⟨hsmall, rfl⟩⟩
      · rw [compactU16_of_lt hsmall]
        rfl
    · rw [if_neg hhigh] at h
      have hlarge : 2 ^ 7 ≤ byte1.toNat := by
        rw [and_high_eq_zero_iff] at hhigh
        omega
      split at h
      · cases h
      rename_i byte2 h2
      split at h
      · cases h
      rename_i hbyte2
      push Not at hbyte2
      have hsmall := (and_high_eq_zero_iff _).mp hbyte2.2
      have hpos : 0 < byte2.toNat := by
        refine pos_of_ne_zero fun hzero => hbyte2.1 ?_
        exact UInt8.toNat_inj.mp hzero
      cases h
      rw [toNat_two_bytes hsmall]
      have hbound : byte1.toNat % 2 ^ 7 + 2 ^ 7 * byte2.toNat < 2 ^ 14 := by omega
      refine ⟨hbound, ?_, ?_⟩
      · exact (standsAt_compactU16_iff hbound).mpr
          ⟨byte1, h1, .inr ⟨hlarge, byte2, h2, hpos, hsmall, rfl⟩⟩
      · rw [length_compactU16_two (by omega) hbound]
  · rintro ⟨hn, hstands, rfl⟩
    obtain ⟨byte1, h1, hcases⟩ := (standsAt_compactU16_iff hn).mp hstands
    obtain ⟨hlt, -⟩ := List.getElem?_eq_some_iff.mp h1
    rw [h1, wrappingAdd_eq (by omega), wrappingAdd_eq (by omega)]
    rcases hcases with ⟨hsmall, hvalue⟩ | ⟨hlarge, byte2, h2, hpos, hsmall, hvalue⟩
    · simp only [(and_high_eq_zero_iff byte1).mpr hsmall, if_true]
      rw [← hvalue, compactU16_of_lt hsmall]
      refine congrArg ok (Prod.ext (UInt16.toNat_inj.mp ?_) rfl)
      show (byte1 &&& 0x7F).toUInt16.toNat = n.toNat
      rw [UInt8.toNat_toUInt16, and_low_toNat, mod_eq_of_lt hsmall, hvalue]
    · have hhigh : byte1 &&& 0x80 ≠ 0 := by
        rw [ne_eq, and_high_eq_zero_iff]
        omega
      have hzero : byte2 ≠ 0 := by
        rintro rfl
        exact absurd hpos (by decide)
      have hclear : ¬(byte2 = 0 ∨ byte2 &&& 0x80 ≠ 0) := by
        rintro (h | h)
        · exact hzero h
        · exact h ((and_high_eq_zero_iff byte2).mpr hsmall)
      simp only [if_neg hhigh, h2, if_neg hclear]
      rw [length_compactU16_two (by omega) hn]
      refine congrArg ok (Prod.ext (UInt16.toNat_inj.mp ?_) rfl)
      rw [toNat_two_bytes hsmall, hvalue]

include hlength hoffset in
theorem advanceOffsetForType_iff :
    advanceOffsetForType size bytes offset = .ok offset' ↔
      offset + size ≤ bytes.length ∧ offset' = offset + size := by
  rw [advanceOffsetForType, bind_eq_ok_iff]
  constructor
  · rintro ⟨⟨⟩, hremaining, h⟩
    have hle := (checkRemaining_iff hlength hoffset).mp hremaining
    rw [wrappingAdd_eq (by omega)] at h
    exact ⟨hle, (ok.inj h).symm⟩
  · rintro ⟨hle, rfl⟩
    refine ⟨(), (checkRemaining_iff hlength hoffset).mpr hle, ?_⟩
    rw [wrappingAdd_eq (by omega)]
    rfl

theorem advanceOffsetForArray_iff {numElements : UInt16} (hsize : size ≤ 64)
    (hlength : bytes.length < 2 ^ 16) (hoffset : offset ≤ bytes.length) :
    advanceOffsetForArray size bytes offset numElements = .ok offset' ↔
      offset + size * numElements.toNat ≤ bytes.length ∧
        offset' = offset + size * numElements.toNat := by
  have hbound : numElements.toNat * size < 2 ^ 32 :=
    calc numElements.toNat * size ≤ numElements.toNat * 64 := mul_le_mul_left _ hsize
      _ < 2 ^ 32 := by
        have := numElements.toNat_lt
        omega
  show advanceOffsetForType (wrappingMul numElements.toNat size) bytes offset = _ ↔ _
  rw [advanceOffsetForType_iff hlength hoffset, wrappingMul_eq (by omega), mul_comm]

variable (hpart : part.length = n.toNat) (h : StandsAt bytes offset part)
include hpart hlength hoffset h in
theorem readSliceData_of_standsAt :
    readSliceData bytes offset n = .ok (part, offset + part.length) := by
  have hle := h.end_le hoffset
  have hadvance : advanceOffsetForArray 1 bytes offset n = .ok (offset + part.length) := by
    rw [advanceOffsetForArray_iff (by omega) hlength hoffset]
    omega
  rw [readSliceData, hadvance]
  show ok ((bytes.drop offset).take n.toNat, offset + part.length) = _
  rw [← hpart, ← List.prefix_iff_eq_take.mp h]

include hpart hlength hoffset h in
theorem uncheckedReadSliceData_of_standsAt :
    uncheckedReadSliceData bytes offset n = some (part, offset + part.length) := by
  have hle := h.end_le hoffset
  rw [uncheckedReadSliceData, slice_eq_some_iff.mpr ⟨h, hpart, hoffset⟩, ← hpart,
    wrappingMul_eq (by omega), mul_one]
  show some (part, wrappingAdd offset part.length) = _
  rw [wrappingAdd_eq (by omega)]

include hlength hoffset in
theorem readPubkey_of_standsAt {key : Pubkey} (h : StandsAt bytes offset key.val) :
    readPubkey bytes offset = .ok (key, offset + 32) := by
  have hle := h.end_le hoffset
  rw [key.property] at hle
  have hremaining : checkRemaining bytes offset 32 = .ok () :=
    (checkRemaining_iff hlength hoffset).mpr hle
  rw [readPubkey, hremaining, block_eq_some_iff.mpr ⟨h, hle⟩, wrappingAdd_eq (by omega)]
  rfl

end
end FlowraValidator.Transactions
