/-
Module: Dach.Lib.Loop
Layer: Lib
Purpose: Unbounded loops that leave through a break. An abstract partial step says what one pass does;
  `HaltsIn` says that it breaks after exactly `k` passes. An executable loop whose passes simulate the
  step, and may stop with an error at states the step does not know about, is then determined by the
  abstract run.
Imports: Mathlib
Trusted boundary: none
Main exports: Loop.forever, Loop.forever_ok, Loop.forever_more, Loop.forever_countdown, Loop.HaltsIn,
  Loop.HaltsIn.exists_of_measure, Loop.forever_of_haltsIn, Loop.forever_le_of_haltsIn
-/
import Mathlib

namespace Loop

variable {α σ ε : Type}

/-! ### The executable loop -/

/-- `for(;;)`: run `body` until it breaks (`none`), counting the passes it completes. A loop that is
    still running after `fuel` entries gives `stuck`. -/
def forever (stuck : ε) (body : σ → Except ε (Option σ)) : Nat → σ → Except ε (Nat × σ)
  | 0, _ => .error stuck
  | fuel + 1, s =>
      match body s with
      | .error e => .error e
      | .ok none => .ok (0, s)
      | .ok (some t) =>
          match forever stuck body fuel t with
          | .error e => .error e
          | .ok (k, u) => .ok (k + 1, u)

section Entry

variable {stuck e : ε} {body : σ → Except ε (Option σ)} {fuel k : Nat} {s t u : σ}

theorem forever_of_error (h : body s = .error e) : forever stuck body (fuel + 1) s = .error e := by
  simp [forever, h]

theorem forever_of_break (h : body s = .ok none) : forever stuck body (fuel + 1) s = .ok (0, s) := by
  simp [forever, h]

theorem forever_of_next_error (h : body s = .ok (some t))
    (tail : forever stuck body fuel t = .error e) : forever stuck body (fuel + 1) s = .error e := by
  simp [forever, h, tail]

theorem forever_of_next_ok (h : body s = .ok (some t))
    (tail : forever stuck body fuel t = .ok (k, u)) :
    forever stuck body (fuel + 1) s = .ok (k + 1, u) := by
  simp [forever, h, tail]

end Entry

/-- A loop that returns has met its break. -/
theorem forever_ok {stuck : ε} {body : σ → Except ε (Option σ)} {fuel : Nat} : ∀ {s t : σ} {k : Nat},
    forever stuck body fuel s = .ok (k, t) → body t = .ok none := by
  induction fuel with
  | zero =>
      intro s t k h
      cases h
  | succ fuel ih =>
      intro s t k h
      rcases hbody : body s with e | _ | u
      · rw [forever_of_error hbody] at h
        cases h
      · rw [forever_of_break hbody] at h
        cases h
        exact hbody
      · rcases hrest : forever stuck body fuel u with e | ⟨j, v⟩
        · rw [forever_of_next_error hbody hrest] at h
          cases h
        · rw [forever_of_next_ok hbody hrest] at h
          cases h
          exact ih hrest

/-- A loop that has left, by a break or by an error, does not ask for more fuel. -/
theorem forever_more {stuck : ε} {body : σ → Except ε (Option σ)} {fuel : Nat} : ∀ {s : σ},
    forever stuck body fuel s ≠ .error stuck →
      ∀ more, forever stuck body (fuel + more) s = forever stuck body fuel s := by
  induction fuel with
  | zero =>
      intro s h
      exact absurd rfl h
  | succ fuel ih =>
      intro s h more
      rw [Nat.succ_add]
      rcases hbody : body s with e | _ | t
      · rw [forever_of_error hbody, forever_of_error hbody]
      · rw [forever_of_break hbody, forever_of_break hbody]
      · have htail : forever stuck body fuel t ≠ .error stuck :=
          fun hstuck => h (forever_of_next_error hbody hstuck)
        rcases hrest : forever stuck body fuel t with e | ⟨k, u⟩
        · rw [forever_of_next_error hbody hrest,
            forever_of_next_error hbody ((ih htail more).trans hrest)]
        · rw [forever_of_next_ok hbody hrest, forever_of_next_ok hbody ((ih htail more).trans hrest)]

/-- The rule for a loop with a number of passes to go. -/
theorem forever_countdown (stuck : ε) (body : σ → Except ε (Option σ)) {R : Nat → σ → Prop}
    (hbreak : ∀ s, R 0 s → body s = .ok none)
    (hnext : ∀ k s, R (k + 1) s → ∃ t, body s = .ok (some t) ∧ R k t) {left : Nat} :
    ∀ {fuel : Nat} {s : σ}, left < fuel → R left s →
      ∃ t, forever stuck body fuel s = .ok (left, t) ∧ R 0 t := by
  induction left with
  | zero =>
      intro fuel s hfuel hR
      obtain ⟨fuel, rfl⟩ := Nat.exists_eq_succ_of_ne_zero (Nat.ne_of_gt hfuel)
      exact ⟨s, forever_of_break (hbreak s hR), hR⟩
  | succ left ih =>
      intro fuel s hfuel hR
      obtain ⟨fuel, rfl⟩ := Nat.exists_eq_succ_of_ne_zero (Nat.ne_of_gt (Nat.zero_lt_of_lt hfuel))
      obtain ⟨t, hbody, hRt⟩ := hnext left s hR
      obtain ⟨u, hloop, hRu⟩ := ih (Nat.lt_of_succ_lt_succ hfuel) hRt
      exact ⟨u, forever_of_next_ok hbody hloop, hRu⟩

/-! ### Abstract runs -/

/-- `step` takes exactly `k` steps from `a` and has none left at `b`. -/
inductive HaltsIn (step : α → Option α) : Nat → α → α → Prop where
  | halt {a : α} (h : step a = none) : HaltsIn step 0 a a
  | next {a b c : α} {k : Nat} (h : step a = some b) (tail : HaltsIn step k b c) :
      HaltsIn step (k + 1) a c

namespace HaltsIn

variable {step : α → Option α} {a b c : α} {k l : Nat}

theorem halted (run : HaltsIn step k a b) : step b = none := by
  induction run with
  | halt h => exact h
  | next _ _ ih => exact ih

theorem deterministic (one : HaltsIn step k a b) (two : HaltsIn step l a c) :
    k = l ∧ b = c := by
  induction one generalizing l with
  | halt h =>
      cases two with
      | halt _ => exact ⟨rfl, rfl⟩
      | next h' _ => rw [h] at h'; cases h'
  | next h _ ih =>
      cases two with
      | halt h' => rw [h] at h'; cases h'
      | next h' tail' =>
          rw [h] at h'
          cases h'
          obtain ⟨hk, hb⟩ := ih tail'
          exact ⟨by rw [hk], hb⟩

/-- What every step preserves, a whole run preserves. -/
theorem invariant {I : α → Prop} (hstep : ∀ a b, step a = some b → I a → I b)
    (run : HaltsIn step k a b) (ha : I a) : I b := by
  induction run with
  | halt _ => exact ha
  | next h _ ih => exact ih (hstep _ _ h ha)

/-- A run takes at most as many steps as its measure grows. -/
theorem le_of_measure {I : α → Prop} {m : α → Nat}
    (hstep : ∀ a b, step a = some b → I a → I b ∧ m a < m b) (run : HaltsIn step k a b) (ha : I a) :
    k + m a ≤ m b := by
  induction run with
  | halt _ => exact Nat.le_of_eq (Nat.zero_add _)
  | next h _ ih =>
      obtain ⟨hb, hlt⟩ := hstep _ _ h ha
      have hle := ih hb
      omega

/-- A step that increases a bounded measure halts. -/
theorem exists_of_measure {I : α → Prop} {m : α → Nat} (bound : Nat)
    (hstep : ∀ a b, step a = some b → I a → I b ∧ m a < m b)
    (hbound : ∀ a, I a → m a ≤ bound) (a : α) (ha : I a) :
    ∃ k b, HaltsIn step k a b := by
  induction hd : bound - m a using Nat.strong_induction_on generalizing a with
  | _ d ih =>
      cases h : step a with
      | none => exact ⟨0, a, .halt h⟩
      | some b =>
          obtain ⟨hb, hlt⟩ := hstep a b h ha
          have hle := hbound b hb
          obtain ⟨k, c, tail⟩ := ih (bound - m b) (by omega) b hb rfl
          exact ⟨k + 1, c, .next h tail⟩

end HaltsIn

/-! ### Simulation -/

section Simulation

variable {step : α → Option α} {R : σ → α → Prop}

/-- The simulation rule. Suppose the loop breaks where the step halts, follows it to every state that
    is `Ready`, and stops with the error `stop` on the way to any other one; and suppose that readiness
    is inherited by earlier states. Then a run that ends ready is followed to its end, and a run that
    does not stops with the error. -/
theorem forever_of_haltsIn (stuck stop : ε) (body : σ → Except ε (Option σ)) (Ready : α → Prop)
    (hbreak : ∀ s a, R s a → step a = none → body s = .ok none)
    (hnext : ∀ s a b, R s a → step a = some b → Ready b → ∃ t, body s = .ok (some t) ∧ R t b)
    (hstop : ∀ s a b, R s a → step a = some b → ¬ Ready b → body s = .error stop)
    (hready : ∀ a b, step a = some b → Ready b → Ready a)
    {k : Nat} {a b : α} (run : HaltsIn step k a b) :
    ∀ {fuel : Nat} {s : σ}, k < fuel → R s a → Ready a →
      (Ready b → ∃ t, forever stuck body fuel s = .ok (k, t) ∧ R t b) ∧
      (¬ Ready b → forever stuck body fuel s = .error stop) := by
  induction run with
  | @halt a h =>
      intro fuel s hfuel hR ha
      obtain ⟨fuel, rfl⟩ := Nat.exists_eq_succ_of_ne_zero (Nat.ne_of_gt hfuel)
      refine ⟨fun _ => ⟨s, ?_, hR⟩, fun hb => absurd ha hb⟩
      simp [forever, hbreak s a hR h]
  | @next a b c k h tail ih =>
      intro fuel s hfuel hR ha
      obtain ⟨fuel, rfl⟩ := Nat.exists_eq_succ_of_ne_zero (Nat.ne_of_gt (Nat.zero_lt_of_lt hfuel))
      have hback : Ready c → Ready b := by
        intro hc
        clear ih h hR
        induction tail with
        | halt _ => exact hc
        | next h' _ ih' => exact hready _ _ h' (ih' (by omega) hc)
      by_cases hb : Ready b
      · obtain ⟨t, hbody, hRt⟩ := hnext s a b hR h hb
        obtain ⟨hok, herr⟩ := ih (show k < fuel by omega) hRt hb
        constructor
        · intro hc
          obtain ⟨u, hloop, hRu⟩ := hok hc
          exact ⟨u, by simp [forever, hbody, hloop], hRu⟩
        · intro hc
          simp [forever, hbody, herr hc]
      · refine ⟨fun hc => absurd (hback hc) hb, fun _ => ?_⟩
        simp [forever, hstop s a b hR h hb]

/-- The simulation rule for a loop that never stops with an error. A pass may use that the abstract
    run goes on to its end. -/
theorem forever_of_haltsIn_total (stuck : ε) (body : σ → Except ε (Option σ)) {c : α}
    (hbreak : ∀ s, R s c → body s = .ok none)
    (hnext : ∀ s a b j, R s a → step a = some b → HaltsIn step j b c →
      ∃ t, body s = .ok (some t) ∧ R t b)
    {k : Nat} {a : α} (run : HaltsIn step k a c) :
    ∀ {fuel : Nat} {s : σ}, k < fuel → R s a →
      ∃ t, forever stuck body fuel s = .ok (k, t) ∧ R t c := by
  induction run with
  | halt _ =>
      intro fuel s hfuel hR
      obtain ⟨fuel, rfl⟩ := Nat.exists_eq_succ_of_ne_zero (Nat.ne_of_gt hfuel)
      exact ⟨s, by simp [forever, hbreak s hR], hR⟩
  | @next a b c k h tail ih =>
      intro fuel s hfuel hR
      obtain ⟨fuel, rfl⟩ := Nat.exists_eq_succ_of_ne_zero (Nat.ne_of_gt (Nat.zero_lt_of_lt hfuel))
      obtain ⟨t, hbody, hRt⟩ := hnext s a b k hR h tail
      obtain ⟨u, hloop, hRu⟩ := ih hbreak hnext (show k < fuel by omega) hRt
      exact ⟨u, by simp [forever, hbody, hloop], hRu⟩

/-- The simulation rule for a loop that may stop with an error anywhere. Every pass that goes on is a
    step, so the loop leaves after at most as many passes as the abstract run has. -/
theorem forever_le_of_haltsIn {stuck : ε} {body : σ → Except ε (Option σ)}
    (hstuck : ∀ s, body s ≠ .error stuck)
    (hpass : ∀ s t a, R s a → body s = .ok (some t) → ∃ b, step a = some b ∧ R t b)
    {k : Nat} {a b : α} (run : HaltsIn step k a b) :
    ∀ {fuel : Nat} {s : σ}, k < fuel → R s a →
      forever stuck body fuel s ≠ .error stuck ∧
        ∀ j t, forever stuck body fuel s = .ok (j, t) → j ≤ k ∧ ∃ c, R t c := by
  have hleave : ∀ {fuel : Nat} {s : σ} {a : α} {k : Nat}, R s a → (∀ t, body s ≠ .ok (some t)) →
      forever stuck body (fuel + 1) s ≠ .error stuck ∧
        ∀ j t, forever stuck body (fuel + 1) s = .ok (j, t) → j ≤ k ∧ ∃ c, R t c := by
    intro fuel s a k hR hno
    rcases hbody : body s with e | _ | t
    · rw [forever_of_error hbody]
      refine ⟨fun heq => hstuck s ?_, fun j t heq => (by cases heq)⟩
      rw [hbody, Except.error.inj heq]
    · rw [forever_of_break hbody]
      refine ⟨fun heq => (by cases heq), fun j t heq => ?_⟩
      cases heq
      exact ⟨Nat.zero_le _, a, hR⟩
    · exact absurd hbody (hno t)
  induction run with
  | halt h =>
      intro fuel s hfuel hR
      obtain ⟨fuel, rfl⟩ := Nat.exists_eq_succ_of_ne_zero (Nat.ne_of_gt hfuel)
      refine hleave hR fun t hbody => ?_
      obtain ⟨b, hstep, _⟩ := hpass s t _ hR hbody
      rw [h] at hstep
      cases hstep
  | @next a b c k h tail ih =>
      intro fuel s hfuel hR
      obtain ⟨fuel, rfl⟩ := Nat.exists_eq_succ_of_ne_zero (Nat.ne_of_gt (Nat.zero_lt_of_lt hfuel))
      by_cases hgo : ∃ t, body s = .ok (some t)
      · obtain ⟨t, hbody⟩ := hgo
        obtain ⟨b', hstep, hRt⟩ := hpass s t a hR hbody
        obtain rfl : b = b' := Option.some.inj (h.symm.trans hstep)
        obtain ⟨hne, hle⟩ := ih (show k < fuel by omega) hRt
        rcases hrest : forever stuck body fuel t with e | ⟨j, u⟩
        · rw [forever_of_next_error hbody hrest, ← hrest]
          refine ⟨hne, fun i v heq => ?_⟩
          rw [hrest] at heq
          cases heq
        · rw [forever_of_next_ok hbody hrest]
          refine ⟨fun heq => (by cases heq), fun i v heq => ?_⟩
          cases heq
          obtain ⟨hj, hc⟩ := hle j u hrest
          exact ⟨Nat.succ_le_succ hj, hc⟩
      · exact hleave hR fun t hbody => hgo ⟨t, hbody⟩

end Simulation

end Loop
