import Mathlib

/-!
# Reading from a row of bytes at an offset

A reader of a wire format goes through a row of bytes with an offset. The relation `StandsAt`
says which piece of the row begins at an offset; a reader is specified by the pieces that it
accepts, and the specifications compose because `StandsAt` splits over concatenation.

* `standsAt_append`: a concatenation stands at an offset exactly when its first part does, and
  its second part stands right behind.
* `slice_eq_some_iff`, `block_eq_some_iff`: what is cut out of the row stands there.
* `compactU16`: the minimal encoding of a length, seven bits per byte, with
  `standsAt_compactU16_iff` for the encodings of one and two bytes.
* `bind_eq_ok_iff`: the outcome of two readers one behind the other.
-/

namespace FlowraValidator.Wire
open List Nat

/-! ## Pieces of a row -/

variable {n : ℕ}

section Pieces
variable {α : Type} {bytes part first second : List α} {offset : ℕ} {x : α} {size : ℕ}

/-- The piece begins at the offset. -/
def StandsAt (bytes : List α) (offset : ℕ) (part : List α) : Prop := part <+: bytes.drop offset

theorem standsAt_nil : StandsAt bytes offset [] := nil_prefix

theorem standsAt_append :
    StandsAt bytes offset (first ++ second) ↔
      StandsAt bytes offset first ∧ StandsAt bytes (offset + first.length) second := by
  constructor
  · rintro ⟨rest, hrest⟩
    refine ⟨⟨second ++ rest, ?_⟩, ⟨rest, ?_⟩⟩
    · rw [← hrest, append_assoc]
    · rw [← drop_drop, ← hrest, append_assoc, drop_left]
  · rintro ⟨⟨tail, htail⟩, ⟨rest, hrest⟩⟩
    refine ⟨rest, ?_⟩
    rw [← drop_drop, ← htail, drop_left] at hrest
    rw [append_assoc, hrest, htail]

/-- A piece that begins within the row ends within the row. -/
theorem StandsAt.end_le (h : StandsAt bytes offset part) (hoffset : offset ≤ bytes.length) :
    offset + part.length ≤ bytes.length := by
  have hle := h.length_le
  rw [length_drop] at hle
  omega

theorem standsAt_singleton : StandsAt bytes offset [x] ↔ bytes[offset]? = some x := by
  rw [← head?_drop]
  constructor
  · rintro ⟨rest, hrest⟩
    rw [← hrest]
    rfl
  · intro h
    obtain ⟨rest, hrest⟩ := head?_eq_some_iff.mp h
    exact ⟨rest, hrest.symm⟩

theorem standsAt_cons :
    StandsAt bytes offset (x :: part) ↔
      bytes[offset]? = some x ∧ StandsAt bytes (offset + 1) part := by
  rw [← singleton_append, standsAt_append, standsAt_singleton]
  rfl

/-- The row itself is the only piece that begins at its start and ends at its end. -/
theorem standsAt_zero_iff : StandsAt bytes 0 part ∧ part.length = bytes.length ↔ bytes = part := by
  constructor
  · rintro ⟨hpart, hlength⟩
    exact (hpart.eq_of_length hlength).symm
  · rintro rfl
    exact ⟨prefix_rfl, rfl⟩

/-! ## Cutting pieces out -/

/-- The `n` bytes from the offset on, where the row has them. -/
def slice (bytes : List α) (offset n : ℕ) : Option (List α) :=
  if offset + n ≤ bytes.length then some ((bytes.drop offset).take n) else none

theorem slice_eq_some_iff :
    slice bytes offset n = some part ↔
      StandsAt bytes offset part ∧ part.length = n ∧ offset ≤ bytes.length := by
  rw [slice]
  constructor
  · intro h
    split_ifs at h with hle
    cases h
    refine ⟨?_, ?_, by omega⟩
    · exact take_prefix _ _
    · rw [length_take, length_drop]
      omega
  · rintro ⟨hpart, rfl, hoffset⟩
    rw [if_pos (hpart.end_le hoffset), ← prefix_iff_eq_take.mp hpart]

/-- Where the row is long enough, there is a piece. -/
theorem exists_standsAt (h : offset + n ≤ bytes.length) :
    ∃ piece, StandsAt bytes offset piece ∧ piece.length = n := by
  obtain ⟨hstands, hlength, -⟩ := slice_eq_some_iff.mp (if_pos h : slice bytes offset n = _)
  exact ⟨_, hstands, hlength⟩

/-- A value of a fixed number of bytes. -/
abbrev Block (α : Type) (size : ℕ) := { bytes : List α // bytes.length = size }

/-- The bytes of a row of blocks. -/
def Block.join {size : ℕ} (blocks : List (Block α size)) : List α := blocks.flatMap Subtype.val

theorem Block.length_join (blocks : List (Block α size)) :
    (Block.join blocks).length = size * blocks.length := by
  induction blocks with
  | nil => rfl
  | cons block blocks ih =>
    rw [join, flatMap_cons, length_append, ← join, ih, block.property, length_cons]
    ring

/-- `n` bytes from the offset on as one block. -/
def block (bytes : List α) (offset size : ℕ) : Option (Block α size) :=
  if h : offset + size ≤ bytes.length then
    some ⟨(bytes.drop offset).take size, by
      rw [length_take, length_drop]
      omega⟩
  else none

theorem block_eq_some_iff {x : Block α size} :
    block bytes offset size = some x ↔
      StandsAt bytes offset x.val ∧ offset + size ≤ bytes.length := by
  rw [block]
  constructor
  · intro h
    split_ifs at h with hle
    cases h
    refine ⟨?_, hle⟩
    exact take_prefix _ _
  · rintro ⟨hstands, hle⟩
    rw [dif_pos hle]
    congr 1
    apply Subtype.ext
    have htake := prefix_iff_eq_take.mp hstands
    rw [x.property] at htake
    exact htake.symm

/-- `n` blocks from the offset on. -/
def blocks (bytes : List α) (size : ℕ) : ℕ → ℕ → Option (List (Block α size))
  | _, 0 => some []
  | offset, n + 1 => do
    let x ← block bytes offset size
    let xs ← blocks bytes size (offset + size) n
    pure (x :: xs)

theorem blocks_of_standsAt {xs : List (Block α size)} (h : StandsAt bytes offset (Block.join xs))
    (hoffset : offset ≤ bytes.length) :
    blocks bytes size offset xs.length = some xs := by
  induction xs generalizing offset with
  | nil => rfl
  | cons x xs ih =>
    rw [Block.join, flatMap_cons, standsAt_append, ← Block.join, x.property] at h
    obtain ⟨hx, hxs⟩ := h
    have hle := hx.end_le hoffset
    rw [x.property] at hle
    rw [length_cons, blocks, block_eq_some_iff.mpr ⟨hx, hle⟩]
    rw [ih hxs hle]
    rfl

/-- Where the row is long enough, there are blocks. -/
theorem exists_blocks_standsAt (h : offset + size * n ≤ bytes.length) :
    ∃ xs : List (Block α size), StandsAt bytes offset (Block.join xs) ∧ xs.length = n := by
  induction n generalizing offset with
  | zero => exact ⟨[], standsAt_nil, rfl⟩
  | succ n ih =>
    rw [mul_succ] at h
    obtain ⟨x, hx, hlength⟩ := exists_standsAt (show offset + size ≤ bytes.length by omega)
    obtain ⟨xs, hxs, hn⟩ := ih (show offset + size + size * n ≤ bytes.length by omega)
    refine ⟨⟨x, hlength⟩ :: xs, ?_, by rw [length_cons, hn]⟩
    rw [Block.join, flatMap_cons, standsAt_append, hlength]
    exact ⟨hx, hxs⟩

end Pieces

/-! ## Readers one behind the other -/

theorem bind_eq_ok_iff {ε β γ : Type} {x : Except ε β} {f : β → Except ε γ} {c : γ} :
    x >>= f = .ok c ↔ ∃ b, x = .ok b ∧ f b = .ok c := by
  cases x with
  | error e =>
    constructor
    · intro h
      cases h
    · rintro ⟨b, hb, -⟩
      cases hb
  | ok b =>
    constructor
    · intro h
      exact ⟨b, rfl, h⟩
    · rintro ⟨b', hb, h⟩
      cases hb
      exact h

/-! ## Lengths of variable size -/

/-- The compact encoding of a length below `2 ^ 16`: seven bits a byte from the low end, the
high bit of a byte set when another byte follows, and no more bytes than needed. -/
def compactU16 (n : ℕ) : List UInt8 :=
  if n < 2 ^ 7 then [n.toUInt8]
  else if n < 2 ^ 14 then [(n % 2 ^ 7 + 2 ^ 7).toUInt8, (n / 2 ^ 7).toUInt8]
  else [(n % 2 ^ 7 + 2 ^ 7).toUInt8, (n / 2 ^ 7 % 2 ^ 7 + 2 ^ 7).toUInt8, (n / 2 ^ 14).toUInt8]

theorem compactU16_of_lt (h : n < 2 ^ 7) : compactU16 n = [n.toUInt8] := if_pos h

theorem length_compactU16_two (hge : 2 ^ 7 ≤ n) (hlt : n < 2 ^ 14) : (compactU16 n).length = 2 := by
  rw [compactU16, if_neg (by omega), if_pos hlt]
  rfl

theorem length_compactU16_pos (n : ℕ) : 0 < (compactU16 n).length := by
  rw [compactU16]
  split
  · simp
  · split <;> simp

theorem length_compactU16_le (h : n < 2 ^ 14) : (compactU16 n).length ≤ 2 := by
  rw [compactU16]
  split
  · simp
  · simp

/-- The last seven bits of a byte. -/
theorem and_low_toNat (b : UInt8) : (b &&& 0x7F).toNat = b.toNat % 2 ^ 7 := by
  rw [UInt8.toNat_and]
  exact and_two_pow_sub_one_eq_mod b.toNat 7

/-- The high bit of a byte. -/
theorem and_high_eq_zero_iff (b : UInt8) : b &&& 0x80 = 0 ↔ b.toNat < 2 ^ 7 := by
  have hall : ∀ i : Fin 256, i.val &&& 128 = 0 ↔ i.val < 2 ^ 7 := by decide +kernel
  rw [← UInt8.toNat_inj, UInt8.toNat_and]
  exact hall ⟨b.toNat, b.toNat_lt⟩

/-- **What stands at the offset as an encoding of at most two bytes.**  The first byte without
its high bit is the value; otherwise the second byte is neither zero nor has the high bit. -/
theorem standsAt_compactU16_iff {bytes : List UInt8} {offset : ℕ} (hn : n < 2 ^ 14) :
    StandsAt bytes offset (compactU16 n) ↔
      ∃ b1, bytes[offset]? = some b1 ∧
        (b1.toNat < 2 ^ 7 ∧ b1.toNat = n ∨
          2 ^ 7 ≤ b1.toNat ∧ ∃ b2, bytes[offset + 1]? = some b2 ∧ 0 < b2.toNat ∧
            b2.toNat < 2 ^ 7 ∧ n = b1.toNat % 2 ^ 7 + 2 ^ 7 * b2.toNat) := by
  rw [compactU16]
  by_cases hshort : n < 2 ^ 7
  · rw [if_pos hshort, standsAt_singleton]
    constructor
    · intro h
      refine ⟨_, h, .inl ?_⟩
      rw [toUInt8_eq, UInt8.toNat_ofNat', mod_eq_of_lt (by omega)]
      exact ⟨hshort, rfl⟩
    · rintro ⟨b1, hb1, ⟨-, rfl⟩ | ⟨-, b2, -, hpos, -, rfl⟩⟩
      · rw [hb1, toUInt8_eq, UInt8.ofNat_toNat]
      · omega
  · rw [if_neg hshort, if_pos hn, standsAt_cons, standsAt_singleton]
    constructor
    · rintro ⟨h1, h2⟩
      refine ⟨_, h1, .inr ⟨?_, _, h2, ?_, ?_, ?_⟩⟩
      all_goals simp only [toUInt8_eq, UInt8.toNat_ofNat']
      all_goals omega
    · rintro ⟨b1, hb1, ⟨hlt, rfl⟩ | ⟨hge, b2, hb2, hpos, hlt, rfl⟩⟩
      · exact absurd hlt hshort
      · have hb := b1.toNat_lt
        have hfirst : (b1.toNat % 2 ^ 7 + 2 ^ 7 * b2.toNat) % 2 ^ 7 + 2 ^ 7 = b1.toNat := by omega
        have hsecond : (b1.toNat % 2 ^ 7 + 2 ^ 7 * b2.toNat) / 2 ^ 7 = b2.toNat := by omega
        rw [hfirst, hsecond, toUInt8_eq, toUInt8_eq, UInt8.ofNat_toNat, UInt8.ofNat_toNat]
        exact ⟨hb1, hb2⟩

end FlowraValidator.Wire
