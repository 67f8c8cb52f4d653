/-
Module: Dach.Lib.Run
Layer: Lib
Purpose: Runs of a system that takes one labelled step at a time. The label says which party moves and how
  it resolves its choices, so that a step is a partial function of the state and the label. A run may be
  restricted to steps that meet a guard on the state before them.
Imports: Mathlib
Trusted boundary: none
Main exports: Transition.Run, Transition.Run.invariant, Transition.Run.simulate, Transition.follow,
  Transition.exists_run_of_follow, Transition.Trace, Transition.Trace.count_le
-/
import Mathlib

namespace Transition

variable {S A : Type}

/-- `t` is reached from `s` by steps that all meet the guard `ok` in the state before them. -/
inductive Run (step : S → A → Option S) (ok : S → A → Prop) : S → S → Prop where
  | refl (s : S) : Run step ok s s
  | tail {s t u : S} {a : A} (run : Run step ok s t) (guard : ok t a) (next : step t a = some u) :
      Run step ok s u

/-- What a guarded step preserves holds after every guarded run. -/
theorem Run.invariant {step : S → A → Option S} {ok : S → A → Prop} {Inv : S → Prop} {s t : S}
    (run : Run step ok s t) (start : Inv s)
    (preserved : ∀ s a t, Inv s → ok s a → step s a = some t → Inv t) : Inv t := by
  induction run with
  | refl => exact start
  | tail _ guard next ih => exact preserved _ _ _ ih guard next

/-- A first step, and the rest of the run. -/
theorem Run.head {step : S → A → Option S} {ok : S → A → Prop} {s t u : S} {a : A} (guard : ok s a)
    (next : step s a = some t) (run : Run step ok t u) : Run step ok s u := by
  induction run with
  | refl => exact (Run.refl s).tail guard next
  | tail _ guard' next' ih => exact ih.tail guard' next'

theorem Run.trans {step : S → A → Option S} {ok : S → A → Prop} {s t u : S} (run : Run step ok s t)
    (later : Run step ok t u) : Run step ok s u := by
  induction later with
  | refl => exact run
  | tail _ guard next ih => exact ih.tail guard next

theorem Run.mono {step : S → A → Option S} {ok ok' : S → A → Prop} {s t : S} (run : Run step ok s t)
    (weaker : ∀ s a, ok s a → ok' s a) : Run step ok' s t := by
  induction run with
  | refl => exact .refl s
  | tail _ guard next ih => exact ih.tail (weaker _ _ guard) next

/-- Where every step is matched by a run of another system, or by none of its steps, so is every run. -/
theorem Run.simulate {S' A' : Type} {step : S → A → Option S} {ok : S → A → Prop}
    {step' : S' → A' → Option S'} {ok' : S' → A' → Prop} {R : S → S' → Prop} {s t : S} {s' : S'}
    (run : Run step ok s t) (start : R s s')
    (matched : ∀ s a t s', R s s' → ok s a → step s a = some t → ∃ t', Run step' ok' s' t' ∧ R t t') :
    ∃ t', Run step' ok' s' t' ∧ R t t' := by
  induction run with
  | refl => exact ⟨s', .refl s', start⟩
  | tail _ guard next ih =>
      rcases ih with ⟨u', hrun, hrel⟩
      rcases matched _ _ _ _ hrel guard next with ⟨t', hlater, hrel'⟩
      exact ⟨t', hrun.trans hlater, hrel'⟩

section Follow

variable (step : S → A → Option S) (ok : S → A → Prop) [∀ s a, Decidable (ok s a)]

/-- The state a list of labels leads to, if every step is there and meets the guard. -/
def follow : S → List A → Option S
  | s, [] => some s
  | s, a :: as => if ok s a then (step s a).bind fun t => follow t as else none

variable {step ok}

theorem run_of_follow {as : List A} {s t : S} (h : follow step ok s as = some t) : Run step ok s t := by
  induction as generalizing s with
  | nil =>
      cases h
      exact .refl _
  | cons a as ih =>
      rw [follow] at h
      split at h
      · rename_i guard
        rcases Option.bind_eq_some_iff.mp h with ⟨u, next, rest⟩
        exact Run.head guard next (ih rest)
      · cases h

/-- A computed run: its last state meets what a test found there. -/
theorem exists_run_of_follow (as : List A) {s : S} {P : S → Prop} [DecidablePred P]
    (h : (follow step ok s as).any (fun t => decide (P t)) = true) : ∃ t, Run step ok s t ∧ P t := by
  rcases hlast : follow step ok s as with _ | t
  · rw [hlast] at h
    cases h
  · rw [hlast] at h
    exact ⟨t, run_of_follow hlast, of_decide_eq_true h⟩

end Follow

/-! ### Traces -/

/-- A run with the labels of its steps, the first one first. -/
inductive Trace (step : S → A → Option S) : S → List A → S → Prop where
  | nil (s : S) : Trace step s [] s
  | snoc {s t u : S} {as : List A} {a : A} (trace : Trace step s as t) (next : step t a = some u) :
      Trace step s (as ++ [a]) u

theorem Trace.run {step : S → A → Option S} {s t : S} {as : List A} (trace : Trace step s as t) :
    Run step (fun _ _ => True) s t := by
  induction trace with
  | nil => exact .refl s
  | snoc _ next ih => exact ih.tail trivial next

/-- Where the steps that count lower a measure and no other step raises it, a trace has no more of them
    than the measure of its first state. -/
theorem Trace.count_le {step : S → A → Option S} {Inv : S → Prop} {measure : S → Nat} {counts : A → Bool}
    {s t : S} {as : List A} (trace : Trace step s as t) (start : Inv s)
    (preserved : ∀ s a t, Inv s → step s a = some t → Inv t)
    (lowers : ∀ s a t, Inv s → step s a = some t → counts a = true → measure t < measure s)
    (keeps : ∀ s a t, Inv s → step s a = some t → counts a = false → measure t ≤ measure s) :
    (as.filter counts).length + measure t ≤ measure s := by
  induction trace with
  | nil => simp
  | @snoc t u as a trace next ih =>
      have hinv : Inv t := trace.run.invariant start fun s a t hs _ h => preserved s a t hs h
      rw [List.filter_append, List.length_append]
      rcases hcount : counts a with _ | _
      · have hkeep := keeps t a u hinv next hcount
        simp only [List.filter_cons, hcount, List.filter_nil, Bool.false_eq_true, if_false,
          List.length_nil]
        omega
      · have hlower := lowers t a u hinv next hcount
        simp only [List.filter_cons, hcount, List.filter_nil, if_true, List.length_cons,
          List.length_nil]
        omega

end Transition
