import Mathlib

/-!
# Forests given by parents

A forest is a function that gives each node its parent. Where the parent of a node is smaller than
the node, in some measure, following parents comes to an end, so the ancestors of a node are a list.

* `IsAncestor`, `IsAncestorOrSelf`: the order of the forest.
* `mem_ancestors_iff`: the list of ancestors.
* `IsAncestorOrSelf.total_of_common`: the ancestors of a node are a chain.
* `exists_leaf`: in a finite forest there is a leaf above every node.
* `exists_traverse_eq`: a walk with a stack visits every node below the first one once.
-/

namespace FlowraValidator.Forest
open List Option Relation ReflTransGen

variable {α : Type*} (parent : α → Option α)

/-- `a` is a proper ancestor of `b`. -/
def IsAncestor : α → α → Prop := TransGen fun a b => parent b = some a

def IsAncestorOrSelf : α → α → Prop := ReflTransGen fun a b => parent b = some a

/-- The ancestors of a node, the nearest one first, up to the given distance. -/
def ancestors : ℕ → α → List α
  | 0, _ => []
  | n + 1, b =>
    match parent b with
    | none => []
    | some a => a :: ancestors n a

/-- A walk over the nodes below those on a stack. A skipped node is left out with all nodes below
it. There is no answer if a node is unknown or the walk is too long. -/
def traverse (children : α → Option (List α)) (skip : α → Bool) :
    ℕ → List α → List α → Option (List α)
  | _, [], visited => some visited
  | 0, _ :: _, _ => none
  | n + 1, a :: pending, visited =>
    if skip a then traverse children skip n pending visited
    else
      match children a with
      | none => none
      | some below => traverse children skip n (below.reverse ++ pending) (a :: visited)

variable {parent} {a b c : α} {n : ℕ}

theorem IsAncestor.trans (h : IsAncestor parent a b) (h' : IsAncestor parent b c) :
    IsAncestor parent a c :=
  TransGen.trans h h'

theorem IsAncestor.orSelf (h : IsAncestor parent a b) : IsAncestorOrSelf parent a b :=
  TransGen.to_reflTransGen h

theorem isAncestorOrSelf_iff : IsAncestorOrSelf parent a b ↔ a = b ∨ IsAncestor parent a b := by
  unfold IsAncestorOrSelf IsAncestor
  rw [Relation.reflTransGen_iff_eq_or_transGen, eq_comm]

/-- The last step to a node is the one from its parent. -/
theorem isAncestor_iff : IsAncestor parent a c ↔
    ∃ b, parent c = some b ∧ IsAncestorOrSelf parent a b := by
  unfold IsAncestor IsAncestorOrSelf
  rw [TransGen.tail'_iff]
  exact ⟨fun ⟨b, h, hp⟩ => ⟨b, hp, h⟩, fun ⟨b, hp, h⟩ => ⟨b, h, hp⟩⟩

/-- The ancestors of a node are a chain. -/
theorem IsAncestorOrSelf.total_of_common (ha : IsAncestorOrSelf parent a c)
    (hb : IsAncestorOrSelf parent b c) :
    IsAncestorOrSelf parent a b ∨ IsAncestorOrSelf parent b a := by
  induction ha with
  | refl => exact .inr hb
  | tail hstep hp ih =>
    rcases isAncestorOrSelf_iff.mp hb with rfl | hb'
    · exact .inl (tail hstep hp)
    · obtain ⟨b', hp', hb'⟩ := isAncestor_iff.mp hb'
      rw [hp] at hp'
      cases hp'
      exact ih hb'

theorem isAncestor_of_mem_ancestors (h : a ∈ ancestors parent n b) : IsAncestor parent a b := by
  induction n generalizing b with
  | zero => cases h
  | succ n ih =>
    rw [ancestors] at h
    cases hp : parent b with
    | none =>
      rw [hp] at h
      cases h
    | some p =>
      rw [hp] at h
      rcases mem_cons.mp h with rfl | h
      · exact TransGen.single hp
      · exact (ih h).tail hp

/-- In the list of ancestors, each one is above those before it. -/
theorem pairwise_ancestors (n : ℕ) (b : α) :
    (ancestors parent n b).Pairwise fun a c => IsAncestor parent c a := by
  induction n generalizing b with
  | zero => exact List.Pairwise.nil
  | succ n ih =>
    rw [ancestors]
    cases hp : parent b with
    | none => exact List.Pairwise.nil
    | some p => exact pairwise_cons.mpr ⟨fun c hc => isAncestor_of_mem_ancestors hc, ih p⟩

section Rank
variable (rank : α → ℕ) (hrank : ∀ a b, parent b = some a → rank a < rank b)
include hrank
theorem IsAncestor.rank_lt (h : IsAncestor parent a b) : rank a < rank b := by
  induction h with
  | single hp => exact hrank _ _ hp
  | tail _ hp ih => exact ih.trans (hrank _ _ hp)

theorem IsAncestorOrSelf.rank_le (h : IsAncestorOrSelf parent a b) : rank a ≤ rank b := by
  rcases isAncestorOrSelf_iff.mp h with rfl | h
  · exact le_refl _
  · exact (h.rank_lt rank hrank).le

/-- Following parents from `b` finds all ancestors, if it goes on for long enough. -/
theorem mem_ancestors_iff (h : rank b ≤ n) : a ∈ ancestors parent n b ↔ IsAncestor parent a b := by
  refine ⟨isAncestor_of_mem_ancestors, fun hanc => ?_⟩
  induction n generalizing b with
  | zero =>
    have hlt := hanc.rank_lt rank hrank
    omega
  | succ n ih =>
    obtain ⟨p, hp, hanc'⟩ := isAncestor_iff.mp hanc
    have hlt := hrank p b hp
    rw [ancestors, hp]
    rcases isAncestorOrSelf_iff.mp hanc' with rfl | hanc'
    · exact mem_cons_self
    · exact mem_cons_of_mem _ (ih (by omega) hanc')

/-- There is a leaf above every node of a finite set that is closed under parents. -/
theorem exists_leaf {nodes : Finset α} (hmem : a ∈ nodes) :
    ∃ leaf ∈ nodes, IsAncestorOrSelf parent a leaf ∧ ∀ b ∈ nodes, parent b ≠ some leaf := by
  classical
  obtain ⟨leaf, hleaf, hmax⟩ := (nodes.filter fun b => IsAncestorOrSelf parent a b).exists_max_image
    rank ⟨a, Finset.mem_filter.mpr ⟨hmem, refl⟩⟩
  obtain ⟨hnode, hanc⟩ := Finset.mem_filter.mp hleaf
  refine ⟨leaf, hnode, hanc, fun b hb hp => ?_⟩
  have hle := hmax b (Finset.mem_filter.mpr ⟨hb, tail hanc hp⟩)
  exact absurd (hrank leaf b hp) (not_lt.mpr hle)

end Rank

/-! ## Walks -/

section
variable {children : α → Option (List α)} {skip : α → Bool} (nodes : Finset α)

/-- The lists of children fit to the parents. -/
structure IsLinked (parent : α → Option α) (children : α → Option (List α)) (nodes : Finset α) :
    Prop where
  mem_iff : ∀ a, a ∈ nodes ↔ ∃ below, children a = some below
  nodup : ∀ {a below}, children a = some below → below.Nodup
  down : ∀ {a below}, children a = some below → ∀ b ∈ below, b ∈ nodes ∧ parent b = some a
  up : ∀ {a b}, b ∈ nodes → parent b = some a → ∃ below, children a = some below ∧ b ∈ below

/-- The state of a walk from `root`: what is on the stack, what was visited and what was
skipped. -/
structure Walking (parent : α → Option α) (children : α → Option (List α)) (skip : α → Bool)
    (nodes : Finset α) (root : α) (pending visited skipped : List α) : Prop where
  nodup : (pending ++ (visited ++ skipped)).Nodup
  known : ∀ a ∈ pending ++ (visited ++ skipped), a ∈ nodes
  origin : ∀ a ∈ pending ++ (visited ++ skipped), a = root ∨ ∃ p ∈ visited, parent a = some p
  below : ∀ a ∈ pending ++ (visited ++ skipped), IsAncestorOrSelf parent root a
  root_mem : root ∈ pending ++ (visited ++ skipped)
  closed : ∀ a ∈ visited, ∀ b ∈ nodes, parent b = some a → b ∈ pending ++ (visited ++ skipped)
  skip_of_mem : ∀ a ∈ skipped, skip a = true
  not_skip_of_mem : ∀ a ∈ visited, skip a = false

variable {nodes} {root : α} {pending visited skipped : List α}

/-- A node is skipped. -/
theorem Walking.skipNode
    (h : Walking parent children skip nodes root (a :: pending) visited skipped)
    (hskip : skip a = true) :
    Walking parent children skip nodes root pending visited (a :: skipped) := by
  have hperm : (pending ++ (visited ++ a :: skipped)).Perm
      (a :: pending ++ (visited ++ skipped)) := by
    rw [← append_assoc, cons_append, ← append_assoc]
    exact perm_middle
  refine ⟨hperm.nodup_iff.mpr h.nodup, ?_, ?_, ?_, hperm.mem_iff.mpr h.root_mem, ?_, ?_,
    h.not_skip_of_mem⟩
  · exact fun b hb => h.known b (hperm.mem_iff.mp hb)
  · exact fun b hb => h.origin b (hperm.mem_iff.mp hb)
  · exact fun b hb => h.below b (hperm.mem_iff.mp hb)
  · exact fun b hb c hc hp => hperm.mem_iff.mpr (h.closed b hb c hc hp)
  · exact forall_mem_cons.mpr ⟨hskip, h.skip_of_mem⟩

section Linked
variable (hlinked : IsLinked parent children nodes) (rank : α → ℕ)
  (hrank : ∀ a b, parent b = some a → rank a < rank b)
include hlinked hrank
/-- A node is visited, and its children are put on the stack. -/
theorem Walking.visitNode
    (h : Walking parent children skip nodes root (a :: pending) visited skipped)
    (hskip : skip a = false) {under : List α} (hunder : children a = some under) :
    Walking parent children skip nodes root (under.reverse ++ pending) (a :: visited) skipped := by
  have hperm : (under.reverse ++ pending ++ (a :: visited ++ skipped)).Perm
      (under ++ (a :: pending ++ (visited ++ skipped))) := by
    rw [append_assoc, cons_append, cons_append]
    exact (reverse_perm under).append perm_middle
  have hmem : ∀ b, b ∈ under.reverse ++ pending ++ (a :: visited ++ skipped) ↔
      b ∈ under ∨ b ∈ a :: pending ++ (visited ++ skipped) := by
    intro b
    rw [hperm.mem_iff, mem_append]
  have ha : a ∈ a :: pending ++ (visited ++ skipped) := mem_cons_self
  -- the children of `a` were not seen before
  have hnew : ∀ b ∈ under, b ∉ a :: pending ++ (visited ++ skipped) := by
    intro b hb hseen
    have hp := (hlinked.down hunder b hb).2
    rcases h.origin b hseen with rfl | ⟨p, hpmem, hp'⟩
    · have hle := (h.below a ha).rank_le rank hrank
      have hlt := hrank a b hp
      omega
    · have hpa : p = a := some_inj.mp (hp'.symm.trans hp)
      rw [hpa] at hpmem
      exact (nodup_cons.mp h.nodup).1
        (mem_append_right _ (mem_append_left _ hpmem))
  refine ⟨?_, ?_, ?_, ?_, (hmem root).mpr (.inr h.root_mem), ?_, h.skip_of_mem, ?_⟩
  · rw [hperm.nodup_iff]
    exact nodup_append'.mpr ⟨hlinked.nodup hunder, h.nodup, hnew⟩
  · intro b hb
    rcases (hmem b).mp hb with hb | hb
    · exact (hlinked.down hunder b hb).1
    · exact h.known b hb
  · intro b hb
    rcases (hmem b).mp hb with hb | hb
    · exact .inr ⟨a, mem_cons_self, (hlinked.down hunder b hb).2⟩
    · rcases h.origin b hb with hroot | ⟨p, hp, hparent⟩
      · exact .inl hroot
      · exact .inr ⟨p, mem_cons_of_mem _ hp, hparent⟩
  · intro b hb
    rcases (hmem b).mp hb with hb | hb
    · exact (h.below a ha).tail (hlinked.down hunder b hb).2
    · exact h.below b hb
  · intro b hb c hc hp
    rw [hmem]
    rcases mem_cons.mp hb with rfl | hb
    · obtain ⟨under', hunder', hc'⟩ := hlinked.up hc hp
      rw [hunder] at hunder'
      cases hunder'
      exact .inl hc'
    · exact .inr (h.closed b hb c hc hp)
  · exact forall_mem_cons.mpr ⟨hskip, h.not_skip_of_mem⟩

/-- The nodes that a finished walk has visited. -/
theorem Walking.mem_visited_iff (h : Walking parent children skip nodes root [] visited skipped) :
    a ∈ visited ↔ a ∈ nodes ∧ IsAncestorOrSelf parent root a ∧
      ∀ s, skip s = true → IsAncestorOrSelf parent root s → ¬IsAncestorOrSelf parent s a := by
  constructor
  · intro ha
    have hmem : ∀ b ∈ visited, b ∈ [] ++ (visited ++ skipped) :=
      fun b hb => mem_append_right _ (mem_append_left _ hb)
    refine ⟨h.known a (hmem a ha), h.below a (hmem a ha), ?_⟩
    -- from `a` up to the root no node is skipped
    induction hn : rank a using Nat.strong_induction_on generalizing a with
    | _ n ih =>
      intro s hs hroot hsa
      rcases isAncestorOrSelf_iff.mp hsa with rfl | hanc
      · rw [h.not_skip_of_mem s ha] at hs
        exact Bool.false_ne_true hs
      · obtain ⟨p, hp, hsp⟩ := isAncestor_iff.mp hanc
        rcases h.origin a (hmem a ha) with rfl | ⟨q, hq, hparent⟩
        · have hle := IsAncestorOrSelf.rank_le rank hrank hroot
          have hlt := IsAncestor.rank_lt rank hrank hanc
          omega
        · rw [hp] at hparent
          cases hparent
          exact ih (rank p) (hn ▸ hrank p a hp) hq rfl s hs hroot hsp
  · rintro ⟨hnode, hpath, hfree⟩
    have hseen : ∀ b, b ∈ visited ++ skipped → (∀ s, skip s = true →
        IsAncestorOrSelf parent root s → ¬IsAncestorOrSelf parent s b) → b ∈ visited := by
      intro b hb hfree
      rcases mem_append.mp hb with hb | hb
      · exact hb
      · have hroot := h.below b (mem_append_right _ (mem_append_right _ hb))
        exact absurd refl (hfree b (h.skip_of_mem b hb) hroot)
    induction hpath with
    | refl => exact hseen root h.root_mem hfree
    | tail hpath hp ih =>
      obtain ⟨under, hunder, -⟩ := hlinked.up hnode hp
      have hmem := ih ((hlinked.mem_iff _).mpr ⟨under, hunder⟩)
        fun s hs hroot hanc => hfree s hs hroot (hanc.tail hp)
      exact hseen _ (h.closed _ hmem _ hnode hp) hfree

/-- **The walk ends, and visits each node below the root that is not below a skipped one.** -/
theorem exists_traverse_eq (skip : α → Bool) (hroot : root ∈ nodes) (hn : nodes.card ≤ n) :
    ∃ visited, traverse children skip n [root] [] = some visited ∧ visited.Nodup ∧
      ∀ a, a ∈ visited ↔ a ∈ nodes ∧ IsAncestorOrSelf parent root a ∧
        ∀ s, skip s = true → IsAncestorOrSelf parent root s → ¬IsAncestorOrSelf parent s a := by
  classical
  -- the number of nodes that were not seen yet bounds the rest of the walk
  have hwalk : ∀ (n : ℕ) (pending visited skipped : List α),
      Walking parent children skip nodes root pending visited skipped →
      (nodes \ (visited ++ skipped).toFinset).card ≤ n →
      ∃ visited' skipped', traverse children skip n pending visited = some visited' ∧
        Walking parent children skip nodes root [] visited' skipped' := by
    intro n
    induction n with
    | zero =>
      intro pending visited skipped h hcard
      cases pending with
      | nil => exact ⟨visited, skipped, rfl, h⟩
      | cons a pending =>
        exfalso
        have hmem : a ∈ nodes \ (visited ++ skipped).toFinset := by
          rw [Finset.mem_sdiff, List.mem_toFinset]
          refine ⟨h.known a mem_cons_self, fun hseen => ?_⟩
          exact (nodup_cons.mp h.nodup).1 (mem_append_right _ hseen)
        rw [Nat.le_zero, Finset.card_eq_zero] at hcard
        rw [hcard] at hmem
        exact absurd hmem (Finset.notMem_empty a)
    | succ n ih =>
      intro pending visited skipped h hcard
      cases pending with
      | nil => exact ⟨visited, skipped, rfl, h⟩
      | cons a pending =>
        have hnode := h.known a mem_cons_self
        have hfresh : a ∉ visited ++ skipped := fun hseen =>
          (nodup_cons.mp h.nodup).1 (mem_append_right _ hseen)
        have hless : ∀ {seen : List α}, (∀ b, b ∈ seen ↔ b = a ∨ b ∈ visited ++ skipped) →
            (nodes \ seen.toFinset).card ≤ n := by
          intro seen hseen
          have hsub : nodes \ seen.toFinset = (nodes \ (visited ++ skipped).toFinset).erase a := by
            ext b
            simp only [Finset.mem_sdiff, List.mem_toFinset, hseen, Finset.mem_erase]
            tauto
          have hmem : a ∈ nodes \ (visited ++ skipped).toFinset := by
            rw [Finset.mem_sdiff, List.mem_toFinset]
            exact ⟨hnode, hfresh⟩
          rw [hsub, Finset.card_erase_of_mem hmem]
          omega
        rw [traverse]
        split_ifs with hskip
        · refine ih pending visited (a :: skipped) (h.skipNode hskip) (hless fun b => ?_)
          simp only [mem_append, mem_cons]
          tauto
        · obtain ⟨under, hunder⟩ := (hlinked.mem_iff a).mp hnode
          rw [hunder]
          refine ih _ (a :: visited) skipped
            (h.visitNode hlinked rank hrank (Bool.eq_false_iff.mpr hskip) hunder)
            (hless fun b => ?_)
          simp only [mem_append, mem_cons]
          tauto
  have hstart : Walking parent children skip nodes root [root] [] [] := by
    refine ⟨nodup_singleton root, ?_, ?_, ?_, mem_singleton_self root, by simp, by simp,
      by simp⟩
    · exact forall_mem_singleton.mpr hroot
    · exact fun a ha => .inl (mem_singleton.mp ha)
    · exact forall_mem_singleton.mpr refl
  obtain ⟨visited, skipped, heq, h⟩ := hwalk n [root] [] [] hstart (by simpa using hn)
  have hnodup := h.nodup
  rw [nil_append] at hnodup
  exact ⟨visited, heq, hnodup.of_append_left, fun a => h.mem_visited_iff hlinked rank hrank⟩

end Linked
end

end FlowraValidator.Forest
