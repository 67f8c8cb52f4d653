/-
Module: Dach.Lib.Store
Layer: Lib
Purpose: Actions on a store that may stop with an error and leave the store as it was then. What every step
  of an action respects, the action respects whatever it ends in.
Imports: Mathlib
Trusted boundary: none
Main exports: Store.left, Store.Along, Along.bind, Store.Off, Store.Within, Within.bind
-/
import Mathlib

namespace Store

variable {ε σ α β : Type}

/-- The store at the end of an action. -/
def left : EStateM.Result ε σ α → σ
  | .ok _ s => s
  | .error _ s => s

/-- Every end of the action is along `R` from its start. -/
def Along (R : σ → σ → Prop) (x : EStateM ε σ α) : Prop := ∀ s, R s (left (x.run s))

namespace Along

variable {R : σ → σ → Prop} {x y : EStateM ε σ α}

section Reflexive

variable (refl : ∀ s, R s s)

include refl

theorem pure (a : α) : Along R (Pure.pure a : EStateM ε σ α) := fun s => refl s

theorem throw (e : ε) : Along R (throw e : EStateM ε σ α) := fun s => refl s

theorem get : Along R (get : EStateM ε σ σ) := fun s => refl s

end Reflexive

theorem modify {f : σ → σ} (h : ∀ s, R s (f s)) : Along R (modify f : EStateM ε σ PUnit) :=
  fun s => h s

theorem bind (trans : ∀ {s t u}, R s t → R t u → R s u) {f : α → EStateM ε σ β} (hx : Along R x)
    (hf : ∀ a, Along R (f a)) : Along R (x >>= f) := by
  intro s
  have first := hx s
  rw [EStateM.run_bind]
  rcases hcase : x.run s with ⟨a, t⟩ | ⟨e, t⟩
  · rw [hcase] at first
    exact trans first (hf a t)
  · rw [hcase] at first
    exact first

theorem ite {p : Prop} [Decidable p] (hx : p → Along R x) (hy : ¬ p → Along R y) :
    Along R (if p then x else y) := by
  by_cases hp : p
  · rw [if_pos hp]
    exact hx hp
  · rw [if_neg hp]
    exact hy hp

end Along

/-! ### Runs -/

@[simp] theorem run_throw (e : ε) (s : σ) : (throw e : EStateM ε σ α).run s = .error e s := rfl

theorem run_ite {p : Prop} [Decidable p] (x y : EStateM ε σ α) (s : σ) :
    (if p then x else y).run s = if p then x.run s else y.run s := by
  split <;> rfl

/-! ### Stores with names -/

variable {K V : Type}

/-- The second store differs from the first under some of these names only, and holds good values there. -/
def Off (names : Set K) (good : V → Prop) (s t : K → V) : Prop :=
  ∀ k, t k = s k ∨ (k ∈ names ∧ good (t k))

variable {names : Set K} {good : V → Prop}

theorem Off.refl (s : K → V) : Off names good s s := fun _ => .inl rfl

theorem Off.trans {s t u : K → V} (h : Off names good s t) (h' : Off names good t u) :
    Off names good s u := by
  intro k
  rcases h' k with hsame | hgood
  · rw [hsame]
    exact h k
  · exact .inr hgood

theorem Off.update [DecidableEq K] {k : K} {v : V} (hk : k ∈ names) (hv : good v) (s : K → V) :
    Off names good s (Function.update s k v) := by
  intro j
  by_cases hj : j = k
  · subst hj
    right
    rw [Function.update_self]
    exact ⟨hk, hv⟩
  · left
    exact Function.update_of_ne hj v s

/-- The action changes what is under these names only, and to good values, whatever it ends in. -/
def Within (names : Set K) (good : V → Prop) (x : EStateM ε (K → V) α) : Prop := Along (Off names good) x

namespace Within

variable {x y : EStateM ε (K → V) α}

theorem pure (a : α) : Within names good (Pure.pure a : EStateM ε (K → V) α) := Along.pure Off.refl a

theorem throw (e : ε) : Within names good (throw e : EStateM ε (K → V) α) := Along.throw Off.refl e

theorem get : Within names good (get : EStateM ε (K → V) (K → V)) := Along.get Off.refl

theorem modify [DecidableEq K] {k : K} {v : V} (hk : k ∈ names) (hv : good v) :
    Within names good (modify fun s => Function.update s k v : EStateM ε (K → V) PUnit) :=
  Along.modify fun s => Off.update hk hv s

theorem bind {f : α → EStateM ε (K → V) β} (hx : Within names good x) (hf : ∀ a, Within names good (f a)) :
    Within names good (x >>= f) :=
  Along.bind Off.trans hx hf

theorem ite {p : Prop} [Decidable p] (hx : p → Within names good x) (hy : ¬ p → Within names good y) :
    Within names good (if p then x else y) :=
  Along.ite hx hy

end Within

end Store
