/-
Module: Dach.Lib.Outcome
Layer: Lib
Purpose: What a computation that may stop with an error leads to: a value with a property, or one of the
  errors that are allowed. One rule for each construct, and one for a loop that follows an abstract run.
  The same for two computations of which one only adds to the results of the other, and for two
  computations with related results.
Imports: Dach.Lib.Loop
Trusted boundary: none
Main exports: Outcome.Yields, Yields.bind, Yields.ite, Yields.forever, Yields.forever_invariant,
  Outcome.Projects, Projects.bind, Projects.ite, Projects.forever, Outcome.Follows, Follows.bind,
  Follows.ite, Follows.forever, Outcome.Matches
-/
import Dach.Lib.Loop

namespace Outcome

variable {ε α β : Type}

/-- The computation returns a value with `post`, or stops with an error in `stop`. -/
def Yields (stop : ε → Prop) (x : Except ε α) (post : α → Prop) : Prop :=
  match x with
  | .ok a => post a
  | .error e => stop e

namespace Yields

variable {stop stop' : ε → Prop} {x y : Except ε α} {post post' : α → Prop}

theorem ok {a : α} (h : post a) : Yields stop (.ok a) post := h

theorem error {e : ε} (h : stop e) : Yields stop (.error e) post := h

/-- Nothing is asked of the value, and every error is allowed. -/
theorem any (x : Except ε α) (h : ∀ e, stop e) : Yields stop x fun _ => True := by
  cases x with
  | ok a => trivial
  | error e => exact h e

/-- What is known of a value that is returned. -/
theorem of_ok {a : α} (h : Yields stop x post) (hx : x = .ok a) : post a := by
  rw [hx] at h
  exact h

theorem mono (h : Yields stop x post) (himp : ∀ a, post a → post' a) : Yields stop x post' := by
  cases x with
  | ok a => exact himp a h
  | error e => exact h

theorem weaken (h : Yields stop x post) (himp : ∀ e, stop e → stop' e) : Yields stop' x post := by
  cases x with
  | ok a => exact h
  | error e => exact himp e h

theorem bind {f : α → Except ε β} {after : β → Prop} (h : Yields stop x post)
    (hf : ∀ a, post a → Yields stop (f a) after) : Yields stop (x >>= f) after := by
  cases x with
  | ok a => exact hf a h
  | error e => exact h

theorem ite {p : Prop} [Decidable p] (hx : p → Yields stop x post) (hy : ¬ p → Yields stop y post) :
    Yields stop (if p then x else y) post := by
  by_cases hp : p
  · rw [if_pos hp]
    exact hx hp
  · rw [if_neg hp]
    exact hy hp

/-- A loop each of whose passes follows a step of the abstract run, or stops, makes as many passes as the
    run has steps, or stops. -/
theorem forever {stuck : ε} {body : α → Except ε (Option α)} {step : β → Option β}
    {R : α → β → Prop} (hbreak : ∀ s b, R s b → step b = none → body s = .ok none)
    (hnext : ∀ s b c, R s b → step b = some c →
      Yields stop (body s) fun next => ∃ t, next = some t ∧ R t c)
    {k : Nat} {b c : β} (run : Loop.HaltsIn step k b c) :
    ∀ {fuel : Nat} {s : α}, k < fuel → R s b →
      Yields stop (Loop.forever stuck body fuel s) fun result => result.1 = k ∧ R result.2 c := by
  induction run with
  | @halt b h =>
      intro fuel s hfuel hR
      obtain ⟨fuel, rfl⟩ := Nat.exists_eq_succ_of_ne_zero (Nat.ne_of_gt hfuel)
      rw [Loop.forever_of_break (hbreak s b hR h)]
      exact ok ⟨rfl, hR⟩
  | @next b c d k h tail ih =>
      intro fuel s hfuel hR
      obtain ⟨fuel, rfl⟩ := Nat.exists_eq_succ_of_ne_zero (Nat.ne_of_gt (Nat.zero_lt_of_lt hfuel))
      have hpass := hnext s b c hR h
      rcases hbody : body s with e | next
      · rw [hbody] at hpass
        rw [Loop.forever_of_error hbody]
        exact error hpass
      · rcases hpass.of_ok hbody with ⟨t, rfl, hRt⟩
        have hrest := ih (show k < fuel by omega) hRt
        rcases hloop : Loop.forever stuck body fuel t with e | ⟨j, u⟩
        · rw [hloop] at hrest
          rw [Loop.forever_of_next_error hbody hloop]
          exact error hrest
        · rcases hrest.of_ok hloop with ⟨rfl, hRu⟩
          rw [Loop.forever_of_next_ok hbody hloop]
          exact ok ⟨rfl, hRu⟩

/-- What every pass preserves, the loop preserves. -/
theorem forever_invariant {stuck : ε} (hstuck : stop stuck) {body : α → Except ε (Option α)}
    {I : α → Prop} (hpass : ∀ s, I s → Yields stop (body s) fun next => ∀ t, next = some t → I t)
    {fuel : Nat} : ∀ {s : α}, I s →
      Yields stop (Loop.forever stuck body fuel s) fun result => I result.2 := by
  induction fuel with
  | zero =>
      intro s _
      exact error hstuck
  | succ fuel ih =>
      intro s hs
      have hbody := hpass s hs
      rcases hcase : body s with e | _ | t
      · rw [hcase] at hbody
        rw [Loop.forever_of_error hcase]
        exact error hbody
      · rw [Loop.forever_of_break hcase]
        exact ok hs
      · have hrest := ih (hbody.of_ok hcase t rfl)
        rcases hloop : Loop.forever stuck body fuel t with e | ⟨j, u⟩
        · rw [hloop] at hrest
          rw [Loop.forever_of_next_error hcase hloop]
          exact error hrest
        · rw [Loop.forever_of_next_ok hcase hloop]
          have hu : I u := hrest.of_ok hloop
          exact ok hu

end Yields

/-! ### Projections -/

/-- The second computation is the first with a part of its result left out. -/
def Projects (proj : α → β) (x : Except ε α) (y : Except ε β) : Prop :=
  x.map proj = y

namespace Projects

variable {γ δ : Type} {proj : α → β} {x x' : Except ε α} {y y' : Except ε β}

theorem ok {a : α} {b : β} (h : proj a = b) : Projects proj (.ok a : Except ε α) (.ok b) :=
  congrArg Except.ok h

/-- A computation that both make. -/
theorem same (x : Except ε α) : Projects id x x := by
  cases x <;> rfl

/-- A value of the one comes from a value of the other. -/
theorem exists_ok {b : β} (h : Projects proj x y) (hy : y = .ok b) : ∃ a, x = .ok a ∧ proj a = b := by
  rw [← h] at hy
  cases x with
  | ok a => exact ⟨a, rfl, Except.ok.inj hy⟩
  | error e => cases hy

theorem bind {proj' : γ → δ} {f : α → Except ε γ} {g : β → Except ε δ} (h : Projects proj x y)
    (hf : ∀ a, Projects proj' (f a) (g (proj a))) : Projects proj' (x >>= f) (y >>= g) := by
  subst h
  cases x with
  | ok a => exact hf a
  | error e => rfl

theorem ite {p : Prop} [Decidable p] (hx : Projects proj x y) (hx' : Projects proj x' y') :
    Projects proj (if p then x else x') (if p then y else y') := by
  by_cases hp : p
  · rw [if_pos hp, if_pos hp]
    exact hx
  · rw [if_neg hp, if_neg hp]
    exact hx'

/-- Loops whose bodies project make the same passes. -/
theorem forever {stuck : ε} {body : α → Except ε (Option α)} {body' : β → Except ε (Option β)}
    (hbody : ∀ a, Projects (Option.map proj) (body a) (body' (proj a))) (fuel : Nat) : ∀ a,
      Projects (Prod.map id proj) (Loop.forever stuck body fuel a)
        (Loop.forever stuck body' fuel (proj a)) := by
  induction fuel with
  | zero =>
      intro a
      rfl
  | succ fuel ih =>
      intro a
      have hpass := hbody a
      rcases hcase : body a with e | _ | b
      · rw [hcase] at hpass
        rw [Loop.forever_of_error hcase, Loop.forever_of_error hpass.symm]
        rfl
      · rw [hcase] at hpass
        rw [Loop.forever_of_break hcase, Loop.forever_of_break hpass.symm]
        rfl
      · rw [hcase] at hpass
        have hrest := ih b
        rcases hloop : Loop.forever stuck body fuel b with e | ⟨k, c⟩
        · rw [hloop] at hrest
          rw [Loop.forever_of_next_error hcase hloop, Loop.forever_of_next_error hpass.symm hrest.symm]
          rfl
        · rw [hloop] at hrest
          rw [Loop.forever_of_next_ok hcase hloop, Loop.forever_of_next_ok hpass.symm hrest.symm]
          rfl

end Projects

/-! ### Related computations -/

/-- Both computations return, with related values, or both stop with the same error; or the first one has
    stopped with an error in `stop`, whatever the second one does. -/
inductive Follows (stop : ε → Prop) (R : α → β → Prop) : Except ε α → Except ε β → Prop where
  | ok {a : α} {b : β} (h : R a b) : Follows stop R (.ok a) (.ok b)
  | error (e : ε) : Follows stop R (.error e) (.error e)
  | stopped {e : ε} (h : stop e) (y : Except ε β) : Follows stop R (.error e) y

namespace Follows

variable {γ δ : Type} {stop : ε → Prop} {R : α → β → Prop} {S : γ → δ → Prop} {x x' : Except ε α}
  {y y' : Except ε β}

/-- A computation that both make. -/
theorem same (x : Except ε α) : Follows stop Eq x x := by
  cases x with
  | ok a => exact ok rfl
  | error e => exact error e

theorem of_ok {a : α} (h : Follows stop R x y) (hx : x = .ok a) : ∃ b, y = .ok b ∧ R a b := by
  subst hx
  cases h with
  | ok hab => exact ⟨_, rfl, hab⟩

theorem of_error {e : ε} (h : Follows stop R x y) (hx : x = .error e) : stop e ∨ y = .error e := by
  subst hx
  cases h with
  | error => exact Or.inr rfl
  | stopped h => exact Or.inl h

theorem bind {f : α → Except ε γ} {g : β → Except ε δ} (h : Follows stop R x y)
    (hf : ∀ a b, R a b → Follows stop S (f a) (g b)) : Follows stop S (x >>= f) (y >>= g) := by
  cases h with
  | ok hab => exact hf _ _ hab
  | error e => exact error e
  | stopped h => exact stopped h _

/-- A step that both make. -/
theorem bind_same {f : α → Except ε γ} {g : α → Except ε δ} (x : Except ε α)
    (hf : ∀ a, Follows stop S (f a) (g a)) : Follows stop S (x >>= f) (x >>= g) := by
  cases x with
  | ok a => exact hf a
  | error e => exact error e

theorem ite {p : Prop} [Decidable p] (hx : p → Follows stop R x y) (hy : ¬ p → Follows stop R x' y') :
    Follows stop R (if p then x else x') (if p then y else y') := by
  by_cases hp : p
  · rw [if_pos hp, if_pos hp]
    exact hx hp
  · rw [if_neg hp, if_neg hp]
    exact hy hp

/-- Loops whose bodies keep the relation make the same number of passes. -/
theorem forever {stuck : ε} {body : α → Except ε (Option α)} {body' : β → Except ε (Option β)}
    (hbody : ∀ a b, R a b → Follows stop (Option.Rel R) (body a) (body' b)) (fuel : Nat) : ∀ {a b}, R a b →
      Follows stop (fun r r' => r'.1 = r.1 ∧ R r.2 r'.2) (Loop.forever stuck body fuel a)
        (Loop.forever stuck body' fuel b) := by
  induction fuel with
  | zero =>
      intro a b _
      exact error stuck
  | succ fuel ih =>
      intro a b hab
      have hpass := hbody a b hab
      rcases hcase : body a with e | _ | c
      · rw [Loop.forever_of_error hcase]
        rcases hpass.of_error hcase with hstop | hcase'
        · exact stopped hstop _
        · rw [Loop.forever_of_error hcase']
          exact error e
      · obtain ⟨next, hnext, hrel⟩ := hpass.of_ok hcase
        cases hrel
        rw [Loop.forever_of_break hcase, Loop.forever_of_break hnext]
        exact ok ⟨rfl, hab⟩
      · obtain ⟨next, hnext, hrel⟩ := hpass.of_ok hcase
        cases hrel with
        | @some _ d hcd =>
            have hrest := ih hcd
            rcases hloop : Loop.forever stuck body fuel c with e | ⟨k, u⟩
            · rw [Loop.forever_of_next_error hcase hloop]
              rcases hrest.of_error hloop with hstop | hloop'
              · exact stopped hstop _
              · rw [Loop.forever_of_next_error hnext hloop']
                exact error e
            · obtain ⟨⟨k', v⟩, hloop', hk, hv⟩ := hrest.of_ok hloop
              rw [Loop.forever_of_next_ok hcase hloop, Loop.forever_of_next_ok hnext hloop']
              exact ok ⟨congrArg Nat.succ hk, hv⟩

end Follows

/-- Both computations return, with related values, or both stop with the same error. -/
inductive Matches (R : α → β → Prop) : Except ε α → Except ε β → Prop where
  | ok {a : α} {b : β} (h : R a b) : Matches R (.ok a) (.ok b)
  | error (e : ε) : Matches R (.error e) (.error e)

theorem Matches.eq {x y : Except ε α} (h : Matches Eq x y) : x = y := by
  cases h with
  | ok hab => rw [hab]
  | error e => rfl

/-- Where the first computation cannot stop early, neither can the second. -/
theorem Follows.matches {R : α → β → Prop} {x : Except ε α} {y : Except ε β}
    (h : Follows (fun _ => False) R x y) : Matches R x y := by
  cases h with
  | ok hab => exact .ok hab
  | error e => exact .error e
  | stopped h => exact h.elim

end Outcome
