import Mathlib

/-!
# Packing ancient storages

`PackedAncientStorage::pack` of `accounts-db/src/ancient_append_vecs.rs` moves the alive accounts of
old slots into few storages of about `ideal_size` bytes. A set of accounts that does not fit into
the open storage is cut, and the next storage begins with the rest of it.

* `fill_fills`: one storage takes entries until there is no room for the next one.
* `suffix_of_leavesNoRoom`: no other cut is ahead after such a storage.
* `pack_packs`: packing loses nothing, keeps to the bound and needs the fewest storages.
-/

namespace FlowraValidator.AccountsDb
open List

/-! ## The model -/

structure AccountFromStorage (K : Type) where
  dataLen : ℕ
  pubkey : K

/-- `calculate_stored_size`, as long as it does not overflow. -/
def AccountFromStorage.storedSize {K : Type} (account : AccountFromStorage K) : ℕ :=
  (136 + account.dataLen + 7) / 8 * 8

structure AliveAccounts (K : Type) where
  slot : ℕ
  accounts : List (AccountFromStorage K)
  bytes : ℕ

/-- Slices of accounts with the slots that they are stored in. -/
structure PackedAncientStorage (K : Type) where
  accounts : List (ℕ × List (AccountFromStorage K))
  bytes : ℕ

def usizeSaturatingAdd (a b : ℕ) : ℕ := min (a + b) (2 ^ 64 - 1)

namespace PackedAncientStorage
variable {K : Type} (idealSize : ℕ)

/-- The loop over the accounts of one set. Returns those that fit and the others, of which there
are some iff the storage is full, and then the bytes of the storage and those written of the set. -/
def takeAccounts (bytesTotal written : ℕ) : List (AccountFromStorage K) →
    List (AccountFromStorage K) × List (AccountFromStorage K) × ℕ × ℕ
  | [] => ([], [], bytesTotal, written)
  | account :: accounts =>
    let newSize := usizeSaturatingAdd bytesTotal account.storedSize
    if idealSize < newSize ∧ 0 < bytesTotal then ([], account :: accounts, bytesTotal, written)
    else
      let r := takeAccounts newSize (usizeSaturatingAdd written account.storedSize) accounts
      (account :: r.1, r.2)

/-- The loop over the sets of accounts, which fills one storage. The first set holds the accounts
from `partial_inner_index` on, and `written` is `partial_bytes_written`. -/
def fill : List (AliveAccounts K) → ℕ → PackedAncientStorage K →
    PackedAncientStorage K × List (AliveAccounts K) × ℕ
  | [], written, storage => (storage, [], written)
  | alive :: accountsToCombine, written, storage =>
    if alive.accounts.isEmpty then fill accountsToCombine 0 storage
    else
      let bytesTotalWithThisSlot := usizeSaturatingAdd storage.bytes (alive.bytes - written)
      let (taken, rest, bytesTotal, written) :=
        if bytesTotalWithThisSlot ≤ idealSize then
          (alive.accounts, [], bytesTotalWithThisSlot, written)
        else takeAccounts idealSize storage.bytes written alive.accounts
      let storage := ⟨if taken.isEmpty then storage.accounts
        else storage.accounts ++ [(alive.slot, taken)], bytesTotal⟩
      if rest.isEmpty then fill accountsToCombine 0 storage
      else (storage, { alive with accounts := rest } :: accountsToCombine, written)

/-- The loop over the storages. -/
def packFrom : ℕ → List (AliveAccounts K) → ℕ → Option (List (PackedAncientStorage K))
  | 0, _, _ => none
  | fuel + 1, accountsToCombine, written =>
    let (storage, accountsToCombine, written) := fill idealSize accountsToCombine written ⟨[], 0⟩
    if storage.accounts.isEmpty then some []
    else (packFrom fuel accountsToCombine written).map (storage :: ·)

def pack (fuel : ℕ) (accountsToCombine : List (AliveAccounts K)) :
    Option (List (PackedAncientStorage K)) :=
  packFrom idealSize fuel accountsToCombine 0

end PackedAncientStorage

/-! ## Pieces -/

variable {K : Type} {idealSize : ℕ}

/-- An account with its slot. -/
abbrev Entry (K : Type) := ℕ × AccountFromStorage K

def AliveAccounts.entries (alive : AliveAccounts K) : List (Entry K) :=
  alive.accounts.map (alive.slot, ·)

def PackedAncientStorage.entries (storage : PackedAncientStorage K) : List (Entry K) :=
  storage.accounts.flatMap fun e => e.2.map (e.1, ·)

def size (piece : List (Entry K)) : ℕ := (piece.map fun e => e.2.storedSize).sum

/-- The piece may be a storage. -/
def Fits (idealSize : ℕ) (piece : List (Entry K)) : Prop :=
  size piece ≤ idealSize ∨ piece.length = 1

/-- There is no room for the next entry. -/
def LeavesNoRoom (idealSize : ℕ) (piece next : List (Entry K)) : Prop :=
  ∀ e ∈ next.head?, piece ≠ [] ∧ idealSize < size piece + e.2.storedSize

/-- A storage that knows its size and keeps to the bound. -/
structure PackedAncientStorage.Sound (idealSize : ℕ) (p : PackedAncientStorage K) : Prop where
  bytes_eq : p.bytes = size p.entries
  fits : Fits idealSize p.entries
  slices : ∀ e ∈ p.accounts, e.2 ≠ []

/-- What packing is for. The pieces of a cut may begin with entries that are packed already. -/
structure Packs (idealSize : ℕ) (entries : List (Entry K))
    (result : List (PackedAncientStorage K)) : Prop where
  lossless : result.flatMap PackedAncientStorage.entries = entries
  sound : ∀ p ∈ result, p.Sound idealSize ∧ p.entries ≠ []
  minimal : ∀ pieces : List (List (Entry K)), entries <:+ pieces.flatten →
    (∀ q ∈ pieces, Fits idealSize q) → result.length ≤ pieces.length

@[simp]
theorem size_append (p q : List (Entry K)) : size (p ++ q) = size p + size q := by
  simp [size]

@[simp]
theorem size_cons (e : Entry K) (p : List (Entry K)) : size (e :: p) = e.2.storedSize + size p := by
  simp [size]

/-- **Greedy pieces stay ahead.**  After a piece that leaves no room, less is left than after any
other piece that begins before it. -/
theorem suffix_of_leavesNoRoom {p r q t : List (Entry K)} (hroom : LeavesNoRoom idealSize p r)
    (hfits : Fits idealSize q) (h : p ++ r <:+ q ++ t) : r <:+ t := by
  obtain ⟨before, heq⟩ := h
  refine suffix_of_suffix_length_le ⟨before ++ p, by rw [append_assoc, heq]⟩ (suffix_append q t)
    (not_lt.mp fun hlt => ?_)
  -- the other piece holds the whole of `p` and the entry behind it
  obtain ⟨e, r, rfl⟩ := exists_cons_of_length_pos (Nat.zero_lt_of_lt hlt)
  have hle : before ++ (p ++ [e]) <+: q := by
    refine prefix_of_prefix_length_le ⟨r, by simp [← heq]⟩ (prefix_append q t) ?_
    have hlen := congrArg length heq
    simp only [length_append, length_cons, length_nil] at hlen hlt ⊢
    omega
  obtain ⟨behind, rfl⟩ := hle
  obtain ⟨hne, hsize⟩ := hroom e rfl
  have hp := length_pos_iff.mpr hne
  rcases hfits with hle | hone
  · simp only [size_append, size_cons] at hle
    omega
  · simp only [length_append, length_cons] at hone
    omega

/-! ## Filling a storage -/

namespace PackedAncientStorage
variable {slot written : ℕ} {accounts : List (AccountFromStorage K)} {w : List (Entry K)}
  {sets : List (AliveAccounts K)} {p : PackedAncientStorage K}

/-- What was taken of a set of accounts, behind the entries `w` of the open storage. -/
structure Takes (idealSize : ℕ) (w : List (Entry K)) (slot written : ℕ)
    (accounts : List (AccountFromStorage K))
    (r : List (AccountFromStorage K) × List (AccountFromStorage K) × ℕ × ℕ) : Prop where
  split : r.1 ++ r.2.1 = accounts
  bytes_eq : r.2.2.1 = size (w ++ r.1.map (slot, ·))
  written_eq : r.2.1 ≠ [] → r.2.2.2 = written + size (r.1.map (slot, ·))
  fits : Fits idealSize (w ++ r.1.map (slot, ·))
  room : LeavesNoRoom idealSize (w ++ r.1.map (slot, ·)) (r.2.1.map (slot, ·))

theorem takeAccounts_takes (hfits : Fits idealSize w)
    (hlt : size (w ++ accounts.map (slot, ·)) < 2 ^ 64)
    (hwritten : written + size (accounts.map (slot, ·)) < 2 ^ 64) :
    Takes idealSize w slot written accounts (takeAccounts idealSize (size w) written accounts) := by
  induction accounts generalizing w written with
  | nil => exact ⟨rfl, by simp [takeAccounts], nofun, by simpa [takeAccounts] using hfits, nofun⟩
  | cons account accounts ih =>
    rw [map_cons, append_cons] at hlt
    simp only [map_cons, size_cons, ← Nat.add_assoc] at hwritten
    have hsize : size (w ++ [(slot, account)]) = size w + account.storedSize := by simp [size]
    rw [takeAccounts, usizeSaturatingAdd, usizeSaturatingAdd, ← hsize,
      Nat.min_eq_left (by rw [size_append] at hlt; omega), Nat.min_eq_left (by omega)]
    dsimp only
    split_ifs with hfull
    · refine ⟨rfl, by simp, fun _ => rfl, by simpa using hfits, ?_⟩
      rintro e ⟨⟩
      rw [map_nil, append_nil]
      exact ⟨fun h => by simp [h, size] at hfull, hsize ▸ hfull.1⟩
    · have hfits' : Fits idealSize (w ++ [(slot, account)]) := by
        refine or_iff_not_imp_left.mpr fun hgt => ?_
        cases w with
        | nil => rfl
        | cons e w =>
          have hpos : 0 < e.2.storedSize := by
            unfold AccountFromStorage.storedSize
            omega
          rw [size_cons] at hfull
          omega
      obtain ⟨hsplit, hbytes, hwritten, hfits, hroom⟩ := ih hfits' hlt hwritten
      rw [append_assoc] at hbytes hfits hroom
      refine ⟨congrArg (account :: ·) hsplit, hbytes, fun hne => ?_, hfits, hroom⟩
      rw [hwritten hne, map_cons, size_cons, Nat.add_assoc]

/-- The sets have the bytes of their accounts, and those written before are counted. -/
structure Ready (sets : List (AliveAccounts K)) (written : ℕ) : Prop where
  lt : ∀ alive ∈ sets, alive.bytes < 2 ^ 64
  head : ∀ alive ∈ sets.head?, alive.bytes = written + size alive.entries
  tail : ∀ alive ∈ sets.tail, alive.bytes = size alive.entries

/-- A storage was filled. -/
structure Fills (idealSize : ℕ) (entries : List (Entry K))
    (r : PackedAncientStorage K × List (AliveAccounts K) × ℕ) : Prop where
  sound : r.1.Sound idealSize
  ready : Ready r.2.1 r.2.2
  split : r.1.entries ++ r.2.1.flatMap AliveAccounts.entries = entries
  room : LeavesNoRoom idealSize r.1.entries (r.2.1.flatMap AliveAccounts.entries)

theorem fill_fills (hc : Ready sets written) (hp : p.Sound idealSize)
    (hlt : size (p.entries ++ sets.flatMap AliveAccounts.entries) < 2 ^ 64) :
    Fills idealSize (p.entries ++ sets.flatMap AliveAccounts.entries)
      (fill idealSize sets written p) := by
  induction sets generalizing written p with
  | nil => exact ⟨hp, hc, rfl, nofun⟩
  | cons alive sets ih =>
    have hnext : Ready sets 0 := by
      refine ⟨fun a ha => hc.lt a (mem_cons_of_mem _ ha), fun a ha => ?_,
        fun a ha => hc.tail a (mem_of_mem_tail ha)⟩
      rw [Nat.zero_add]
      exact hc.tail a (mem_of_mem_head? ha)
    have hbytes : alive.bytes = written + size alive.entries := hc.head alive rfl
    have hbound := hc.lt alive mem_cons_self
    rw [flatMap_cons] at hlt ⊢
    rw [fill]
    split_ifs with hempty
    · rw [AliveAccounts.entries, isEmpty_iff.mp hempty] at hlt ⊢
      exact ih hnext hp hlt
    · have hleft : alive.bytes - written = size alive.entries := by omega
      dsimp only
      rw [hleft, hp.bytes_eq, usizeSaturatingAdd,
        Nat.min_eq_left (by rw [size_append, size_append] at hlt; omega)]
      have htakes : Takes idealSize p.entries alive.slot written alive.accounts
          (if size p.entries + size alive.entries ≤ idealSize then
            (alive.accounts, [], size p.entries + size alive.entries, written)
          else takeAccounts idealSize (size p.entries) written alive.accounts) := by
        split_ifs with hall
        · rw [← size_append] at hall ⊢
          exact ⟨append_nil _, rfl, nofun, .inl hall, nofun⟩
        · refine takeAccounts_takes hp.fits ?_ (hbytes ▸ hbound)
          rw [← append_assoc, size_append] at hlt
          exact Nat.lt_of_add_right_lt hlt
      generalize (if size p.entries + size alive.entries ≤ idealSize then _ else _) = r
        at htakes ⊢
      obtain ⟨taken, rest, bytes, n⟩ := r
      obtain ⟨hsplit, hsize, hn, hfits, hroom⟩ := htakes
      dsimp only at *
      subst hsize
      generalize hq : (⟨if taken.isEmpty then p.accounts else p.accounts ++ [(alive.slot, taken)],
        size (p.entries ++ taken.map (alive.slot, ·))⟩ : PackedAncientStorage K) = q
      have hentries : q.entries = p.entries ++ taken.map (alive.slot, ·) := by
        cases taken <;> simp [← hq, PackedAncientStorage.entries]
      have hsound : q.Sound idealSize := by
        refine ⟨by rw [hentries, ← hq], hentries ▸ hfits, ?_⟩
        cases taken with
        | nil => exact hq ▸ hp.slices
        | cons a taken =>
          rw [← hq]
          exact forall_mem_append.mpr ⟨hp.slices, by simp⟩
      rw [AliveAccounts.entries, ← hsplit, map_append] at hlt ⊢
      rw [append_assoc, ← append_assoc, ← hentries] at hlt ⊢
      rw [← hentries] at hroom
      cases rest with
      | nil => exact ih hnext hsound hlt
      | cons a rest =>
        refine ⟨hsound, ⟨forall_mem_cons.mpr ⟨hbound, hnext.lt⟩, ?_, hc.tail⟩, rfl, hroom⟩
        rintro _ ⟨⟩
        rw [AliveAccounts.entries, ← hsplit, map_append, size_append, ← Nat.add_assoc] at hbytes
        exact hbytes.trans (congrArg (· + _) (hn (cons_ne_nil a rest)).symm)

theorem exists_packFrom {fuel : ℕ} (hc : Ready sets written)
    (hlt : size (sets.flatMap AliveAccounts.entries) < 2 ^ 64)
    (hfuel : (sets.flatMap AliveAccounts.entries).length < fuel) :
    ∃ result, packFrom idealSize fuel sets written = some result ∧
      Packs idealSize (sets.flatMap AliveAccounts.entries) result := by
  induction fuel generalizing sets written with
  | zero => exact absurd hfuel (Nat.not_lt_zero _)
  | succ fuel ih =>
    have hopen : Sound idealSize (⟨[], 0⟩ : PackedAncientStorage K) :=
      ⟨rfl, .inl (Nat.zero_le _), nofun⟩
    have hfill := fill_fills hc hopen hlt
    rw [packFrom]
    generalize fill idealSize sets written ⟨[], 0⟩ = r at hfill ⊢
    obtain ⟨p, sets', written'⟩ := r
    obtain ⟨hp, hc', hsplit, hroom⟩ := hfill
    have heq : p.entries ++ sets'.flatMap AliveAccounts.entries =
      sets.flatMap AliveAccounts.entries := hsplit
    rw [← heq, size_append] at hlt
    rw [← heq, length_append] at hfuel
    rw [← heq]
    dsimp only at *
    split_ifs with hempty
    · have hnil : p.entries = [] := by
        rw [entries, isEmpty_iff.mp hempty]
        rfl
      have hdone : sets'.flatMap AliveAccounts.entries = [] := head?_eq_none_iff.mp
        (Option.eq_none_iff_forall_not_mem.mpr fun e he => (hroom e he).1 hnil)
      rw [hnil, hdone]
      exact ⟨[], rfl, rfl, nofun, fun _ _ _ => Nat.zero_le _⟩
    · have hne : p.entries ≠ [] := by
        obtain ⟨e, he⟩ := exists_mem_of_ne_nil _ (isEmpty_iff.not.mp hempty)
        obtain ⟨a, ha⟩ := exists_mem_of_ne_nil _ (hp.slices e he)
        exact ne_nil_of_mem (mem_flatMap.mpr ⟨e, he, mem_map_of_mem ha⟩)
      have hpos := length_pos_iff.mpr hne
      obtain ⟨result, hpack, hpacks⟩ := ih hc' (Nat.lt_of_add_left_lt hlt) (by omega)
      rw [hpack]
      refine ⟨p :: result, rfl, ?_, forall_mem_cons.mpr ⟨⟨hp, hne⟩, hpacks.sound⟩, ?_⟩
      · rw [flatMap_cons, hpacks.lossless]
      · intro pieces hsuffix hfits
        cases pieces with
        | nil => exact absurd (append_eq_nil_iff.mp (suffix_nil.mp hsuffix)).1 hne
        | cons q pieces =>
          obtain ⟨hq, hfits⟩ := forall_mem_cons.mp hfits
          have hrest := suffix_of_leavesNoRoom hroom hq hsuffix
          exact Nat.succ_le_succ (hpacks.minimal pieces hrest hfits)

/-- **Packing is lossless, bounded and minimal.** -/
theorem pack_packs (hbytes : ∀ alive ∈ sets, alive.bytes = size alive.entries)
    (hlt : (sets.map AliveAccounts.bytes).sum < 2 ^ 64) :
    ∃ n, ∀ fuel ≥ n, ∃ result, pack idealSize fuel sets = some result ∧
      Packs idealSize (sets.flatMap AliveAccounts.entries) result := by
  refine ⟨_, fun fuel hfuel => exists_packFrom ⟨fun alive hmem => ?_, fun alive hmem => ?_,
    fun alive hmem => hbytes alive (mem_of_mem_tail hmem)⟩ ?_ hfuel⟩
  · exact (single_le_sum (by simp) _ (mem_map_of_mem hmem)).trans_lt hlt
  · rw [hbytes alive (mem_of_mem_head? hmem), Nat.zero_add]
  · rw [map_congr_left hbytes] at hlt
    simpa [size, flatMap, sum_flatten, map_flatten, Function.comp_def] using hlt

/-- A set of two accounts and one of a single account. -/
theorem pack_packs_two :
    ∃ n, ∀ fuel ≥ n, ∃ result, pack 300 fuel
        [⟨5, [⟨0, 1⟩, ⟨64, 2⟩], 336⟩, ⟨6, [⟨0, 3⟩], 136⟩] = some result ∧
      Packs 300 [(5, ⟨0, 1⟩), (5, ⟨64, 2⟩), (6, ⟨0, 3⟩)] result :=
  pack_packs (by decide) (by decide)

end PackedAncientStorage
end FlowraValidator.AccountsDb
