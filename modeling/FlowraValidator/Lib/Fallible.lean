import Mathlib

/-!
# Programs that may halt

A program of `EStateM ε σ` changes a state and then returns, or halts on the way with an error;
the state it had when it halted is kept. This file has the rules for what holds of that state,
however the program ends.

* `wp x Q E s`: from the state `s`, the program `x` returns with `Q` or halts with `E`. Its
  equations take a program apart, one rule for each way to build one.
* `ofOption`, `zoom`: a partial function, and a program about a part of the state.
* `wp_forM`: the rule for a loop over a list, with an invariant.
* `mapM_eq_some_iff`, `exists_mapM`: a partial function on all elements of a list.
-/

namespace FlowraValidator.Fallible
open List

variable {ε σ τ α β : Type}

/-- From the state `s`, the program returns with `Q` or halts with `E`. -/
def wp (x : EStateM ε σ α) (Q : α → σ → Prop) (E : ε → σ → Prop) (s : σ) : Prop :=
  match x s with
  | .ok a s' => Q a s'
  | .error e s' => E e s'

variable {Q : α → σ → Prop} {E : ε → σ → Prop} {s : σ} {Q' : α → σ → Prop} {e : ε}
  {f : α → Option β} {l : List α} {x : EStateM ε σ α} {R : β → σ → Prop}

theorem wp_mono {E' : ε → σ → Prop} (h : wp x Q E s) (hQ : ∀ a t, Q a t → Q' a t)
    (hE : ∀ e t, E e t → E' e t) :
    wp x Q' E' s := by
  unfold wp at h ⊢
  cases hx : x s with
  | ok a t =>
    rw [hx] at h
    exact hQ a t h
  | error e t =>
    rw [hx] at h
    exact hE e t h

theorem wp_post (h : wp x Q E s) (hQ : ∀ a t, Q a t → Q' a t) : wp x Q' E s :=
  wp_mono h hQ fun _ _ he => he

/-! ## One rule for each way to build a program -/

@[simp] theorem wp_pure {a : α} : wp (pure a : EStateM ε σ α) Q E s ↔ Q a s := Iff.rfl

@[simp] theorem wp_throw : wp (throw e : EStateM ε σ α) Q E s ↔ E e s := Iff.rfl

@[simp] theorem wp_get {Q : σ → σ → Prop} : wp (get : EStateM ε σ σ) Q E s ↔ Q s s := Iff.rfl

@[simp] theorem wp_set {Q : PUnit → σ → Prop} {t : σ} :
    wp (set t : EStateM ε σ PUnit) Q E s ↔ Q ⟨⟩ t := Iff.rfl

@[simp] theorem wp_modify {Q : PUnit → σ → Prop} {f : σ → σ} :
    wp (modify f : EStateM ε σ PUnit) Q E s ↔ Q ⟨⟩ (f s) := Iff.rfl

@[simp] theorem wp_bind {f : α → EStateM ε σ β} :
    wp (x >>= f) R E s ↔ wp x (fun a => wp (f a) R E) E s := by
  show (match EStateM.bind x f s with
    | .ok a t => R a t
    | .error e t => E e t) ↔ _
  unfold EStateM.bind wp
  cases x s with
  | ok a t => exact Iff.rfl
  | error e t => exact Iff.rfl

/-- What the first program ends with, the second one starts from. -/
theorem wp_seq {f : α → EStateM ε σ β} (h : wp x Q E s) (hf : ∀ a t, Q a t → wp (f a) R E t)
    : wp (x >>= f) R E s :=
  wp_bind.mpr (wp_post h hf)

theorem wp_ite {c : Prop} [Decidable c] {y : EStateM ε σ α} :
    wp (if c then x else y) Q E s ↔ (c → wp x Q E s) ∧ (¬ c → wp y Q E s) := by
  split_ifs with h
  · exact ⟨fun hx => ⟨fun _ => hx, fun hn => absurd h hn⟩, fun hx => hx.1 h⟩
  · exact ⟨fun hy => ⟨fun hc => absurd hc h, fun _ => hy⟩, fun hy => hy.2 h⟩

/-- The value of a partial function; where it has none, the program halts. -/
def ofOption (e : ε) : Option α → EStateM ε σ α
  | some a => pure a
  | none => throw e

theorem wp_ofOption {o : Option α} :
    wp (ofOption e o) Q E s ↔ (∀ a, o = some a → Q a s) ∧ (o = none → E e s) := by
  cases o with
  | some a =>
    refine ⟨fun h => ⟨fun b hb => ?_, fun hb => absurd hb (by simp)⟩, fun h => h.1 a rfl⟩
    cases hb
    exact h
  | none => exact ⟨fun h => ⟨fun b hb => absurd hb (by simp), fun _ => h⟩, fun h => h.2 rfl⟩

/-- A program about a part of the state. -/
def zoom (view : σ → τ) (put : τ → σ → σ) (x : EStateM ε τ α) : EStateM ε σ α := fun s =>
  match x (view s) with
  | .ok a t => .ok a (put t s)
  | .error e t => .error e (put t s)

@[simp] theorem wp_zoom {view : σ → τ} {put : τ → σ → σ} {x : EStateM ε τ α} :
    wp (zoom view put x) Q E s ↔
      wp x (fun a t => Q a (put t s)) (fun e t => E e (put t s)) (view s) := by
  unfold wp zoom
  cases x (view s) with
  | ok a t => exact Iff.rfl
  | error e t => exact Iff.rfl

/-! ## Invariants and loops -/

/-- The state a program ends in. -/
def final (x : EStateM ε σ α) (s : σ) : σ :=
  match x s with
  | .ok _ t => t
  | .error _ t => t

theorem wp_final {I : σ → Prop} (h : wp x (fun _ => I) (fun _ => I) s) : I (final x s) := by
  unfold wp at h
  unfold final
  cases hx : x s with
  | ok a t => rwa [hx] at h
  | error e t => rwa [hx] at h

/-- A loop over a list: what holds before each element, with the elements still to come. -/
theorem wp_forM {I : List α → σ → Prop} {f : α → EStateM ε σ PUnit}
    (hstep : ∀ a l t, I (a :: l) t → wp (f a) (fun _ => I l) E t) (l : List α) (hs : I l s) :
    wp (l.forM f) (fun _ => I []) E s := by
  induction l generalizing s with
  | nil => exact hs
  | cons a l ih => exact wp_seq (hstep a l s hs) fun _ _ ht => ih ht

/-! ## Partial functions on lists -/

theorem mapM_eq_some_iff {r : List β} : l.mapM f = some r ↔ l.map f = r.map some := by
  induction l generalizing r with
  | nil => cases r <;> simp
  | cons a l ih =>
    rw [mapM_cons, map_cons]
    cases r with
    | nil => cases f a <;> cases l.mapM f <;> simp
    | cons b r =>
      rw [map_cons, List.cons.injEq, ← ih]
      cases f a <;> cases l.mapM f <;> simp

theorem exists_mapM (h : ∀ a ∈ l, (f a).isSome) : ∃ r, l.mapM f = some r := by
  refine ⟨l.pmap (fun a ha => (f a).get ha) h, mapM_eq_some_iff.mpr ?_⟩
  rw [List.map_pmap]
  simp only [Option.some_get, List.pmap_eq_map]

end FlowraValidator.Fallible
