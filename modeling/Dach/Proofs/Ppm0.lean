/-
Module: Dach.Proofs.Ppm0
Layer: Proofs
Purpose: The representation invariant of the adaptive model. The tables rank the 257 characters by
  frequency, and `cumfreq` sums the frequencies from a position to the end. An update moves its symbol
  to the head of its frequency class; the bubble-up of `dach_sym_swap` is followed through its
  half-updated tables, whose cumulative counts are one too low until the loop of `dach_ppm0_update`
  has passed over them.
Imports: Dach.Core.Ppm0
Trusted boundary: none
Main exports: Ppm0.cumAt, Ppm0.WF, Promoted, dachPpm0New_fresh, dachPpm0Update_counted, Promoted.wf,
  dachPpm0FindSym_spec, Ppm0.Ranking, Ppm0.Reserved, dachPpm0New_updates
-/
import Dach.Core.Ppm0

namespace Dach

/-! ### Reading the tables by position -/

/-- The value `dach_ppm0_cumfreq` returns. -/
def Ppm0.cumAt (ppm : Ppm0) (sym : Nat) : Nat :=
  if sym = dachSymCount then 0 else ppm.cumfreq (ppm.symToChr sym)

@[simp] theorem Ppm0.cumAt_symCount (ppm : Ppm0) : ppm.cumAt 258 = 0 := rfl

theorem Ppm0.cumAt_of_lt {ppm : Ppm0} {sym : Nat} (h : sym < 258) :
    ppm.cumAt sym = ppm.cumfreq (ppm.symToChr sym) :=
  if_neg (Nat.ne_of_lt h)

theorem dachPpm0Cumfreq_eq {ppm : Ppm0} {sym : Nat} (h : sym ≤ 258) :
    dachPpm0Cumfreq ppm sym = .ok (ppm.cumAt sym) := by
  rw [dachPpm0Cumfreq, cassert_pos _ (show sym ≤ dachSymCount from h)]
  unfold Ppm0.cumAt
  split <;> rfl

/-- The tables rank the characters 0..256 at the positions 1..257: `chrToSym` inverts `symToChr`, no
    frequency is zero, frequencies never increase with the position, and a cumulative frequency is the
    sum of the frequencies from its position on. Position 0 holds the character 258, which has no
    frequency. -/
structure Ppm0.WF (ppm : Ppm0) : Prop where
  chr_le : ∀ s, 1 ≤ s → s ≤ 257 → ppm.symToChr s ≤ 256
  sym_chr : ∀ s, 1 ≤ s → s ≤ 257 → ppm.chrToSym (ppm.symToChr s) = s
  sym_range : ∀ c, c ≤ 256 → 1 ≤ ppm.chrToSym c ∧ ppm.chrToSym c ≤ 257
  chr_sym : ∀ c, c ≤ 256 → ppm.symToChr (ppm.chrToSym c) = c
  freq_pos : ∀ s, 1 ≤ s → s ≤ 257 → 1 ≤ dachGetFreq ppm s
  sorted : ∀ s, 1 ≤ s → s < 257 → dachGetFreq ppm (s + 1) ≤ dachGetFreq ppm s
  cum_step : ∀ s, 1 ≤ s → s ≤ 257 → ppm.cumAt s = dachGetFreq ppm s + ppm.cumAt (s + 1)
  origin : ppm.symToChr 0 = 258
  origin_cum : ppm.cumfreq 258 = 0
  scale_eq : ppm.scale = ppm.cumAt 1

namespace Ppm0.WF

variable {ppm : Ppm0}

theorem symToChr_inj (h : ppm.WF) {s t : Nat} (hs : 1 ≤ s) (hs' : s ≤ 257) (ht : 1 ≤ t)
    (ht' : t ≤ 257) (heq : ppm.symToChr s = ppm.symToChr t) : s = t := by
  rw [← h.sym_chr s hs hs', heq, h.sym_chr t ht ht']

theorem cumAt_zero (h : ppm.WF) : ppm.cumAt 0 = 0 := by
  rw [Ppm0.cumAt_of_lt (by omega), h.origin, h.origin_cum]

theorem cum_lt (h : ppm.WF) {s : Nat} (hs : 1 ≤ s) (hs' : s ≤ 257) :
    ppm.cumAt (s + 1) < ppm.cumAt s := by
  have hstep := h.cum_step s hs hs'
  have hpos := h.freq_pos s hs hs'
  omega

/-- Cumulative frequencies decrease with the position, by at least one at each. -/
theorem cum_gap (h : ppm.WF) {s t : Nat} (hs : 1 ≤ s) (hst : s ≤ t) (ht : t ≤ 258) :
    ppm.cumAt t + (t - s) ≤ ppm.cumAt s := by
  induction t, hst using Nat.le_induction with
  | base => simp
  | succ t hst ih =>
      have hlt := h.cum_lt (s := t) (by omega) (by omega)
      have := ih (by omega)
      omega

theorem cum_le_scale (h : ppm.WF) {s : Nat} (hs : s ≤ 258) : ppm.cumAt s ≤ ppm.scale := by
  rcases Nat.eq_zero_or_pos s with rfl | hpos
  · rw [h.cumAt_zero]
    exact Nat.zero_le _
  · rw [h.scale_eq]
    have := h.cum_gap (Nat.le_refl 1) hpos hs
    omega

/-- A frequency leaves at least one count for each of the other 256 characters. -/
theorem freq_le_scale (h : ppm.WF) {s : Nat} (hs : 1 ≤ s) (hs' : s ≤ 257) :
    dachGetFreq ppm s + 256 ≤ ppm.scale := by
  have hstep := h.cum_step s hs hs'
  have hbelow := h.cum_gap (s := s + 1) (t := 258) (by omega) (by omega) (Nat.le_refl _)
  have habove := h.cum_gap (s := 1) (t := s) (Nat.le_refl 1) hs (by omega)
  rw [← h.scale_eq] at habove
  omega

theorem scale_pos (h : ppm.WF) : 0 < ppm.scale := by
  have hle := h.freq_le_scale (Nat.le_refl 1) (by omega)
  omega

theorem freq_anti (h : ppm.WF) : AntitoneOn (dachGetFreq ppm) (Set.Icc 1 257) := by
  intro s hs t ht hst
  obtain ⟨hs, _⟩ := hs
  obtain ⟨_, ht⟩ := ht
  induction t, hst using Nat.le_induction with
  | base => exact Nat.le_refl _
  | succ t hst ih =>
      exact Nat.le_trans (h.sorted t (by omega) (by omega)) (ih (by omega) (by omega))

/-- The sum of the frequencies from a position to the end. -/
theorem cum_eq_sum (h : ppm.WF) {s : Nat} (hs : 1 ≤ s) (hs' : s ≤ 258) :
    ppm.cumAt s = ∑ t ∈ Finset.Ico s 258, dachGetFreq ppm t := by
  induction hs' using Nat.decreasingInduction with
  | self => simp
  | of_succ t ht ih =>
      rw [Finset.sum_eq_sum_Ico_succ_bot ht, h.cum_step t hs (by omega), ih (by omega)]

end Ppm0.WF

/-! ### A fresh model -/

/-- The tables once the loop of `dach_ppm0_new_` has handled every symbol above `left`. -/
structure NewLoopInv (ppm : Ppm0) (sum left : Nat) : Prop where
  sum_eq : sum = 257 - left
  origin : ppm.symToChr 0 = 258
  origin_cum : ppm.cumfreq 258 = 0
  chr : ∀ s, left < s → s ≤ 257 → ppm.symToChr s = s - 1
  sym : ∀ c, left ≤ c → c ≤ 256 → ppm.chrToSym c = c + 1
  freq : ∀ c, c ≤ 256 → ppm.freq c = if left ≤ c then 1 else 0
  cum : ∀ s, left < s → s ≤ 257 → ppm.cumfreq (s - 1) = 258 - s

theorem ppm0NewLoop_spec {left : Nat} : ∀ {ppm : Ppm0} {sum : Nat}, left ≤ 257 →
    NewLoopInv ppm sum left →
      ∃ ppm', ppm0NewLoop left ppm sum = .ok (ppm', 257) ∧ NewLoopInv ppm' 257 0 := by
  induction left with
  | zero =>
      intro ppm sum _ inv
      obtain rfl : sum = 257 := inv.sum_eq
      exact ⟨ppm, rfl, inv⟩
  | succ chr ih =>
      intro ppm sum hle inv
      have hsum := inv.sum_eq
      have hfreq : ppm.freq chr = 0 := by
        rw [inv.freq chr (by omega), if_neg (by omega)]
      -- the counter of the new character goes from 0 to 1, and the sum follows it
      have hu32 : u32 (0 + 1) = 1 := rfl
      have hu64 : u64 (sum + 1) = 257 - chr := by
        rw [hsum, u64_of_lt (by omega)]
        omega
      simp only [ppm0NewLoop, dachAddSymChr, dachSetCumfreq, dachIncFreq, dachGetFreq,
        cassert_pos _ (show chr ≤ dachSymCount by unfold dachSymCount; omega),
        cassert_pos _ (show chr + 1 < dachSymCount by unfold dachSymCount; omega),
        ok_bind, pure_eq_ok, Function.update_self, hfreq, hu32, hu64]
      refine ih (by omega) ⟨rfl, ?_, ?_, ?_, ?_, ?_, ?_⟩
      · simpa using inv.origin
      · exact (Function.update_of_ne (by omega) _ _).trans inv.origin_cum
      · intro s hs hs'
        rcases Nat.eq_or_lt_of_le hs with rfl | hlt
        · simp
        · exact (Function.update_of_ne (by omega) _ _).trans (inv.chr s hlt hs')
      · intro c hc hc'
        rcases Nat.eq_or_lt_of_le hc with rfl | hlt
        · simp
        · exact (Function.update_of_ne (by omega) _ _).trans (inv.sym c hlt hc')
      · intro c hc
        by_cases hcc : c = chr
        · subst hcc
          simp
        · refine (Function.update_of_ne hcc _ _).trans ?_
          rw [inv.freq c hc]
          by_cases hlt : chr + 1 ≤ c
          · rw [if_pos hlt, if_pos (by omega)]
          · rw [if_neg hlt, if_neg (by omega)]
      · intro s hs hs'
        rcases Nat.eq_or_lt_of_le hs with rfl | hlt
        · simp
        · exact (Function.update_of_ne (by omega) _ _).trans (inv.cum s hlt hs')

/-- The tables of a fresh model: symbol `s` is the character `s - 1`, and every character counts
    once. -/
structure FreshTables (ppm : Ppm0) : Prop where
  origin : ppm.symToChr 0 = 258
  origin_cum : ppm.cumfreq 258 = 0
  chr : ∀ s, 1 ≤ s → s ≤ 257 → ppm.symToChr s = s - 1
  sym : ∀ c, c ≤ 256 → ppm.chrToSym c = c + 1
  freq : ∀ c, c ≤ 256 → ppm.freq c = 1
  cum : ∀ s, 1 ≤ s → s ≤ 258 → ppm.cumAt s = 258 - s
  scale_eq : ppm.scale = 257

theorem dachPpm0New_fresh : ∃ ppm, dachPpm0New = .ok ppm ∧ FreshTables ppm := by
  have inv : NewLoopInv { Ppm0.zeroed with
      symToChr := Function.update Ppm0.zeroed.symToChr 0 258
      chrToSym := Function.update Ppm0.zeroed.chrToSym 258 0 } 0 257 :=
    { sum_eq := rfl
      origin := by simp
      origin_cum := rfl
      chr := fun s hs hs' => by omega
      sym := fun c hc hc' => by omega
      freq := fun c hc => by rw [if_neg (by omega)]; rfl
      cum := fun s hs hs' => by omega }
  obtain ⟨ppm, hloop, done⟩ := ppm0NewLoop_spec (Nat.le_refl 257) inv
  have fresh : FreshTables { ppm with scale := 257 } :=
    { origin := done.origin
      origin_cum := done.origin_cum
      chr := fun s hs hs' => done.chr s (by omega) hs'
      sym := fun c hc => done.sym c (Nat.zero_le c) hc
      freq := fun c hc => by simpa using done.freq c hc
      cum := by
        intro s hs hs'
        rcases Nat.eq_or_lt_of_le hs' with rfl | hlt
        · rfl
        · rw [Ppm0.cumAt_of_lt hlt]
          show ppm.cumfreq (ppm.symToChr s) = _
          rw [done.chr s (by omega) (by omega), done.cum s (by omega) (by omega)]
      scale_eq := rfl }
  refine ⟨_, ?_, fresh⟩
  have hcf0 : dachPpm0Cumfreq { ppm with scale := 257 } 0 = .ok 0 := by
    rw [dachPpm0Cumfreq_eq (by omega), Ppm0.cumAt_of_lt (by omega)]
    show Except.ok (ppm.cumfreq (ppm.symToChr 0)) = _
    rw [done.origin, done.origin_cum]
  have hcf1 : dachPpm0Cumfreq { ppm with scale := 257 } 1 = .ok 257 := by
    rw [dachPpm0Cumfreq_eq (by omega), fresh.cum 1 (by omega) (by omega)]
  have hadd : dachAddSymChr Ppm0.zeroed 0 dachSymCount = .ok { Ppm0.zeroed with
      symToChr := Function.update Ppm0.zeroed.symToChr 0 258
      chrToSym := Function.update Ppm0.zeroed.chrToSym 258 0 } := rfl
  simp only [dachPpm0New, hadd, ok_bind, show dachSymCount - 1 = 257 from rfl, hloop, hcf0, hcf1]
  rfl

theorem FreshTables.wf {ppm : Ppm0} (h : FreshTables ppm) : ppm.WF := by
  have hfreq : ∀ s, 1 ≤ s → s ≤ 257 → dachGetFreq ppm s = 1 := by
    intro s hs hs'
    rw [dachGetFreq, h.chr s hs hs', h.freq _ (by omega)]
  exact
    { chr_le := fun s hs hs' => by rw [h.chr s hs hs']; omega
      sym_chr := fun s hs hs' => by rw [h.chr s hs hs', h.sym _ (by omega)]; omega
      sym_range := fun c hc => by rw [h.sym c hc]; omega
      chr_sym := fun c hc => by rw [h.sym c hc, h.chr _ (by omega) (by omega)]; omega
      freq_pos := fun s hs hs' => by rw [hfreq s hs hs']
      sorted := fun s hs hs' => by
        rw [hfreq s hs (by omega), hfreq (s + 1) (by omega) (by omega)]
      cum_step := fun s hs hs' => by
        rw [h.cum s hs (by omega), h.cum (s + 1) (by omega) (by omega), hfreq s hs hs']
        omega
      origin := h.origin
      origin_cum := h.origin_cum
      scale_eq := by rw [h.scale_eq, h.cum 1 (by omega) (by omega)] }

/-! ### One swap -/

section SwapTables

variable {ppm : Ppm0} {q p s : Nat}

theorem symSwapTables_up :
    (symSwapTables ppm q p (ppm.symToChr q) (ppm.symToChr p)).symToChr p = ppm.symToChr q :=
  Function.update_self _ _ _

theorem symSwapTables_down (hqp : q ≠ p) :
    (symSwapTables ppm q p (ppm.symToChr q) (ppm.symToChr p)).symToChr q = ppm.symToChr p := by
  show Function.update (Function.update _ _ _) _ _ _ = _
  rw [Function.update_of_ne hqp, Function.update_self]

theorem symSwapTables_of_ne (hq : s ≠ q) (hp : s ≠ p) :
    (symSwapTables ppm q p (ppm.symToChr q) (ppm.symToChr p)).symToChr s = ppm.symToChr s := by
  show Function.update (Function.update _ _ _) _ _ _ = _
  rw [Function.update_of_ne hp, Function.update_of_ne hq]

/-- The character that moves up takes over the count of the position. -/
theorem symSwapTables_cumAt_up (hp : p < 258) (hchrs : ppm.symToChr q ≠ ppm.symToChr p) :
    (symSwapTables ppm q p (ppm.symToChr q) (ppm.symToChr p)).cumAt p = ppm.cumAt p := by
  rw [Ppm0.cumAt_of_lt hp, Ppm0.cumAt_of_lt hp, symSwapTables_up]
  show Function.update (Function.update _ _ _) _ _ _ = _
  rw [Function.update_of_ne hchrs, Function.update_self]

/-- The one that moves down gets one less than the count of its new position. -/
theorem symSwapTables_cumAt_down (hq : q < 258) (hqp : q ≠ p) :
    (symSwapTables ppm q p (ppm.symToChr q) (ppm.symToChr p)).cumAt q
      = u64sub (ppm.cumAt q) 1 := by
  rw [Ppm0.cumAt_of_lt hq, Ppm0.cumAt_of_lt hq, symSwapTables_down hqp]
  exact Function.update_self _ _ _

theorem symSwapTables_cumAt_of_ne (hs : s < 258) (hq : s ≠ q) (hp : s ≠ p)
    (hchr : ppm.symToChr s ≠ ppm.symToChr q) (hchr' : ppm.symToChr s ≠ ppm.symToChr p) :
    (symSwapTables ppm q p (ppm.symToChr q) (ppm.symToChr p)).cumAt s = ppm.cumAt s := by
  rw [Ppm0.cumAt_of_lt hs, Ppm0.cumAt_of_lt hs, symSwapTables_of_ne hq hp]
  show Function.update (Function.update _ _ _) _ _ _ = _
  rw [Function.update_of_ne hchr', Function.update_of_ne hchr]

end SwapTables

/-! ### The bubble-up -/

/-- The tables in the middle of an update of `sym`: its character has been counted and has moved up to
    position `q`, the characters it passed are one position lower, and their cumulative counts are one
    too low. Everything it passed had its old frequency. -/
structure Bubbled (old : Ppm0) (sym q : Nat) (ppm : Ppm0) : Prop where
  pos : 1 ≤ q
  le : q ≤ sym
  here : ppm.symToChr q = old.symToChr sym
  passed : ∀ s, q < s → s ≤ sym → ppm.symToChr s = old.symToChr (s - 1)
  rest : ∀ s, s < q ∨ sym < s → ppm.symToChr s = old.symToChr s
  inverse : ∀ s, 1 ≤ s → s ≤ 257 → ppm.chrToSym (ppm.symToChr s) = s
  freq : ppm.freq = Function.update old.freq (old.symToChr sym) (dachGetFreq old sym + 1)
  tie : ∀ s, q ≤ s → s < sym → dachGetFreq old s = dachGetFreq old sym
  cum_passed : ∀ s, q < s → s ≤ sym → ppm.cumAt s + 1 = old.cumAt s
  cum_rest : ∀ s, 1 ≤ s → s ≤ 257 → s ≤ q ∨ sym < s → ppm.cumAt s = old.cumAt s
  origin_cum : ppm.cumfreq 258 = 0

section Update

variable {old : Ppm0} {sym : Nat}

/-- Counting the character starts the bubble-up at its own position. -/
theorem bubbled_incFreq (wf : old.WF) (hsym : 1 ≤ sym)
    (hfreq : dachGetFreq old sym + 1 < 2 ^ 32) : Bubbled old sym sym (dachIncFreq old sym) where
  pos := hsym
  le := Nat.le_refl _
  here := rfl
  passed := fun s hs hs' => absurd hs (Nat.not_lt_of_le hs')
  rest := fun _ _ => rfl
  inverse := wf.sym_chr
  freq := by
    unfold dachGetFreq at hfreq
    simp only [dachIncFreq, dachGetFreq, u32_of_lt hfreq]
  tie := fun s hs hs' => absurd hs (Nat.not_le_of_lt hs')
  cum_passed := fun s hs hs' => absurd hs (Nat.not_lt_of_le hs')
  cum_rest := fun _ _ _ _ => rfl
  origin_cum := wf.origin_cum

namespace Bubbled

variable {ppm : Ppm0} {q : Nat}

theorem symToChr_ne (b : Bubbled old sym q ppm) {s t : Nat} (hs : 1 ≤ s) (hs' : s ≤ 257)
    (ht : 1 ≤ t) (ht' : t ≤ 257) (hne : s ≠ t) : ppm.symToChr s ≠ ppm.symToChr t := by
  intro heq
  apply hne
  rw [← b.inverse s hs hs', heq, b.inverse t ht ht']

/-- The moving character and its upper neighbour, with their frequencies. -/
theorem neighbours (b : Bubbled old sym q ppm) (wf : old.WF) (hsym : sym ≤ 257) (hq : 1 < q) :
    ppm.symToChr (q - 1) = old.symToChr (q - 1) ∧
      ppm.freq (ppm.symToChr q) = dachGetFreq old sym + 1 ∧
      ppm.freq (ppm.symToChr (q - 1)) = dachGetFreq old (q - 1) := by
  have hle := b.le
  have habove : ppm.symToChr (q - 1) = old.symToChr (q - 1) := b.rest (q - 1) (Or.inl (by omega))
  refine ⟨habove, ?_, ?_⟩
  · rw [b.here, b.freq, Function.update_self]
  · have hne : old.symToChr (q - 1) ≠ old.symToChr sym := by
      intro heq
      have := wf.symToChr_inj (by omega) (by omega) (by omega) (by omega) heq
      omega
    rw [habove, b.freq, Function.update_of_ne hne]
    rfl

/-- The frequency of the upper neighbour is at least that of the moving character before the update,
    because the table was sorted. -/
theorem freq_le_above (b : Bubbled old sym q ppm) (wf : old.WF) (hsym : sym ≤ 257) (hq : 1 < q) :
    dachGetFreq old sym ≤ dachGetFreq old (q - 1) := by
  have hle := b.le
  have hsorted := wf.sorted (q - 1) (by omega) (by omega)
  rw [Nat.sub_add_cancel (by omega)] at hsorted
  rcases Nat.eq_or_lt_of_le hle with rfl | hlt
  · exact hsorted
  · rw [← b.tie q (Nat.le_refl _) hlt]
    exact hsorted

/-- One swap of `dach_sym_swap` moves the character up by one position. -/
theorem swap (b : Bubbled old sym q ppm) (wf : old.WF) (hsym : sym ≤ 257) (hq : 1 < q)
    (hcum : old.scale < 2 ^ 64) (hfreq : dachGetFreq old (q - 1) = dachGetFreq old sym) :
    Bubbled old sym (q - 1)
      (symSwapTables ppm q (q - 1) (ppm.symToChr q) (ppm.symToChr (q - 1))) := by
  have hle := b.le
  have habove := (b.neighbours wf hsym hq).1
  have hchrs : ppm.symToChr q ≠ ppm.symToChr (q - 1) :=
    b.symToChr_ne (by omega) (by omega) (by omega) (by omega) (by omega)
  have hother : ∀ s, 1 ≤ s → s ≤ 257 → s ≠ q → s ≠ q - 1 →
      ppm.symToChr s ≠ ppm.symToChr q ∧ ppm.symToChr s ≠ ppm.symToChr (q - 1) := fun s hs hs' h h' =>
    ⟨b.symToChr_ne hs hs' (by omega) (by omega) h, b.symToChr_ne hs hs' (by omega) (by omega) h'⟩
  refine
    { pos := by omega
      le := by omega
      here := symSwapTables_up.trans b.here
      passed := ?_
      rest := ?_
      inverse := ?_
      freq := b.freq
      tie := ?_
      cum_passed := ?_
      cum_rest := ?_
      origin_cum := ?_ }
  · intro s hs hs'
    by_cases h : s = q
    · subst h
      exact (symSwapTables_down (by omega)).trans habove
    · exact (symSwapTables_of_ne h (by omega)).trans (b.passed s (by omega) hs')
  · intro s hs
    exact (symSwapTables_of_ne (by omega) (by omega)).trans (b.rest s (by omega))
  · intro s hs hs'
    by_cases h : s = q
    · subst h
      rw [symSwapTables_down (by omega)]
      exact Function.update_self _ _ _
    · by_cases h' : s = q - 1
      · subst h'
        rw [symSwapTables_up]
        show Function.update (Function.update _ _ _) _ _ _ = _
        rw [Function.update_of_ne hchrs, Function.update_self]
      · obtain ⟨hne, hne'⟩ := hother s hs hs' h h'
        rw [symSwapTables_of_ne h h']
        show Function.update (Function.update _ _ _) _ _ _ = _
        rw [Function.update_of_ne hne', Function.update_of_ne hne, b.inverse s hs hs']
  · intro s hs hs'
    by_cases h : s = q - 1
    · subst h
      exact hfreq
    · exact b.tie s (by omega) hs'
  · intro s hs hs'
    by_cases h : s = q
    · subst h
      have hpos := wf.cum_lt (s := s) (by omega) (by omega)
      have hscale := wf.cum_le_scale (s := s) (by omega)
      rw [symSwapTables_cumAt_down (by omega) (by omega),
        b.cum_rest s (by omega) (by omega) (Or.inl (Nat.le_refl s)), u64sub_of_le (by omega) (by omega)]
      omega
    · obtain ⟨hne, hne'⟩ := hother s (by omega) (by omega) h (by omega)
      rw [symSwapTables_cumAt_of_ne (by omega) h (by omega) hne hne']
      exact b.cum_passed s (by omega) hs'
  · intro s hs hs' hside
    by_cases h : s = q - 1
    · subst h
      rw [symSwapTables_cumAt_up (by omega) hchrs]
      exact b.cum_rest (q - 1) hs hs' (Or.inl (by omega))
    · obtain ⟨hne, hne'⟩ := hother s hs hs' (by omega) h
      rw [symSwapTables_cumAt_of_ne (by omega) (by omega) h hne hne']
      exact b.cum_rest s hs hs' (by omega)
  · have hc : ∀ s, 1 ≤ s → s ≤ sym → old.symToChr s ≠ 258 := fun s hs hs' => by
      have := wf.chr_le s hs (by omega)
      omega
    show Function.update (Function.update _ _ _) _ _ _ = _
    rw [habove, b.here, Function.update_of_ne (hc _ (by omega) (by omega)).symm,
      Function.update_of_ne (hc _ (by omega) (by omega)).symm]
    exact b.origin_cum

end Bubbled

/-- `dach_sym_swap` stops below the first character that is more frequent than the moving one was. -/
theorem dachSymSwap_bubbled (wf : old.WF) (hsym : sym ≤ 257) (hcum : old.scale < 2 ^ 64) :
    ∀ {above : Nat} {ppm : Ppm0}, Bubbled old sym (above + 2) ppm →
      ∃ r ppm' p, dachSymSwap ppm (above + 2) (above + 1) = .ok (r, ppm') ∧
        Bubbled old sym p ppm' ∧ (p = 1 ∨ dachGetFreq old sym < dachGetFreq old (p - 1)) := by
  intro above
  induction above with
  | zero =>
      intro ppm b
      obtain ⟨_, hfreq, hfreqAbove⟩ := b.neighbours wf hsym (by omega)
      have hle := b.freq_le_above wf hsym (by omega)
      have hq := b.le
      simp only [dachSymSwap, dachSymToChr,
        cassert_pos _ (show 0 + 2 ≤ dachSymCount by unfold dachSymCount; omega),
        cassert_pos _ (show 0 + 1 ≤ dachSymCount by unfold dachSymCount; omega),
        ok_bind, pure_eq_ok, hfreq]
      by_cases hgt : dachGetFreq old sym + 1 > dachGetFreq old 1
      · rw [if_pos (by rw [show ppm.freq (ppm.symToChr (0 + 1)) = dachGetFreq old 1 from hfreqAbove];
                       exact hgt)]
        have hfreq : dachGetFreq old (0 + 2 - 1) = dachGetFreq old sym := by
          rw [show 0 + 2 - 1 = 1 from rfl] at hle ⊢
          omega
        exact ⟨1, _, 1, rfl, b.swap wf hsym (by omega) hcum hfreq, Or.inl rfl⟩
      · rw [if_neg (by rw [show ppm.freq (ppm.symToChr (0 + 1)) = dachGetFreq old 1 from hfreqAbove];
                       exact hgt)]
        exact ⟨_, _, 2, rfl, b, Or.inr (by simp only [Nat.add_one_sub_one] at *; omega)⟩
  | succ above ih =>
      intro ppm b
      obtain ⟨_, hfreq, hfreqAbove⟩ := b.neighbours wf hsym (by omega)
      have hle := b.freq_le_above wf hsym (by omega)
      have hq := b.le
      rw [show above + 1 + 2 - 1 = above + 1 + 1 from rfl] at hfreqAbove hle
      rw [dachSymSwap]
      simp only [dachSymToChr,
        cassert_pos _ (show above + 1 + 2 ≤ dachSymCount by unfold dachSymCount; omega),
        cassert_pos _ (show above + 1 + 1 ≤ dachSymCount by unfold dachSymCount; omega),
        ok_bind, pure_eq_ok, hfreq, hfreqAbove]
      by_cases hgt : dachGetFreq old sym + 1 > dachGetFreq old (above + 1 + 1)
      · obtain ⟨r, ppm', p, hswap, hb, hstop⟩ :=
          ih (b.swap wf hsym (by omega) hcum (show dachGetFreq old (above + 1 + 1) = _ by omega))
        refine ⟨above + 1 + 1, ppm', p, ?_, hb, hstop⟩
        rw [if_pos hgt, if_pos (by omega)]
        simp only [show above + 1 + 2 - 1 = above + 2 from rfl] at hswap
        simp only [show above + 1 + 1 = above + 2 from rfl, hswap, ok_bind]
      · rw [if_neg hgt]
        exact ⟨_, _, above + 1 + 2, rfl, b,
          Or.inr (show dachGetFreq old sym < dachGetFreq old (above + 1 + 1) by omega)⟩

/-! ### The counting loop -/

/-- The loop of `dach_ppm0_update` adds one to the cumulative count of every position up to `n` and
    touches nothing else. -/
theorem incCumfreqLoop_spec {n : Nat} : ∀ (ppm : Ppm0), n ≤ 257 →
    (∀ s, 1 ≤ s → s ≤ 257 → ppm.chrToSym (ppm.symToChr s) = s) →
    (∀ s, 1 ≤ s → s ≤ 257 → ppm.symToChr s ≠ 258) →
    (∀ s, 1 ≤ s → s ≤ n → ppm.cumAt s + 1 < 2 ^ 64) →
      ∃ cf, incCumfreqLoop ppm n = { ppm with cumfreq := cf } ∧ cf 258 = ppm.cumfreq 258 ∧
        ∀ s, 1 ≤ s → s ≤ 257 → Ppm0.cumAt { ppm with cumfreq := cf } s
          = ppm.cumAt s + if s ≤ n then 1 else 0 := by
  induction n with
  | zero =>
      intro ppm _ _ _ _
      exact ⟨ppm.cumfreq, rfl, rfl, fun s hs _ => by simp [show s ≠ 0 by omega]⟩
  | succ n ih =>
      intro ppm hn hinv hne hlt
      have hinj : ∀ s, 1 ≤ s → s ≤ 257 → s ≠ n + 1 → ppm.symToChr s ≠ ppm.symToChr (n + 1) := by
        intro s hs hs' h heq
        exact h (by rw [← hinv s hs hs', heq, hinv _ (by omega) hn])
      -- the counts after the first write
      have hself : (dachIncCumfreq ppm (n + 1)).cumAt (n + 1) = ppm.cumAt (n + 1) + 1 := by
        have hbound := hlt (n + 1) (by omega) (Nat.le_refl _)
        rw [Ppm0.cumAt_of_lt (by omega)] at hbound ⊢
        rw [Ppm0.cumAt_of_lt (by omega)]
        simp only [dachIncCumfreq, Function.update_self, u64_of_lt hbound]
      have hother : ∀ s, 1 ≤ s → s ≤ 257 → s ≠ n + 1 →
          (dachIncCumfreq ppm (n + 1)).cumAt s = ppm.cumAt s := by
        intro s hs hs' h
        rw [Ppm0.cumAt_of_lt (by omega), Ppm0.cumAt_of_lt (by omega)]
        simp only [dachIncCumfreq, Function.update_of_ne (hinj s hs hs' h)]
      obtain ⟨cf, hloop, horigin, hcum⟩ := ih (dachIncCumfreq ppm (n + 1)) (by omega) hinv hne
        (fun s hs hs' => by
          rw [hother s hs (by omega) (by omega)]
          exact hlt s hs (by omega))
      refine ⟨cf, by rw [incCumfreqLoop, hloop]; rfl, ?_, ?_⟩
      · rw [horigin]
        exact Function.update_of_ne (hne _ (by omega) hn).symm _ _
      · intro s hs hs'
        have hcum' := hcum s hs hs'
        by_cases h : s = n + 1
        · subst h
          rw [hself, if_neg (by omega)] at hcum'
          rw [if_pos (Nat.le_refl _)]
          exact hcum'
        · rw [hother s hs hs' h] at hcum'
          rw [if_congr (show s ≤ n + 1 ↔ s ≤ n by omega) rfl rfl]
          exact hcum'

/-! ### An update -/

/-- What an update of `sym` does: its character moves to the head `p` of its frequency class and is
    counted there, and the characters it passes move down by one. Read by position, only the count at
    `p` changes. -/
structure Promoted (old : Ppm0) (sym p : Nat) (ppm : Ppm0) : Prop where
  pos : 1 ≤ p
  le : p ≤ sym
  here : ppm.symToChr p = old.symToChr sym
  passed : ∀ s, p < s → s ≤ sym → ppm.symToChr s = old.symToChr (s - 1)
  rest : ∀ s, s < p ∨ sym < s → ppm.symToChr s = old.symToChr s
  inverse : ∀ s, 1 ≤ s → s ≤ 257 → ppm.chrToSym (ppm.symToChr s) = s
  head : p = 1 ∨ dachGetFreq old p < dachGetFreq old (p - 1)
  freq : ∀ s, 1 ≤ s → s ≤ 257 → dachGetFreq ppm s = dachGetFreq old s + if s = p then 1 else 0
  cum : ∀ s, 1 ≤ s → s ≤ 257 → ppm.cumAt s = old.cumAt s + if s ≤ p then 1 else 0
  origin_cum : ppm.cumfreq 258 = 0
  scale : ppm.scale = old.scale + 1

namespace Bubbled

variable {ppm : Ppm0} {p : Nat}

/-- Every position between the head and the old position had the frequency of the moved character. -/
theorem freq_eq (b : Bubbled old sym p ppm) {s : Nat} (hs : p ≤ s) (hs' : s ≤ sym) :
    dachGetFreq old s = dachGetFreq old sym := by
  rcases Nat.eq_or_lt_of_le hs' with rfl | hlt
  · rfl
  · exact b.tie s hs hlt

theorem getFreq (b : Bubbled old sym p ppm) (wf : old.WF) (hsym : sym ≤ 257) {s : Nat}
    (hs : 1 ≤ s) (hs' : s ≤ 257) :
    dachGetFreq ppm s = dachGetFreq old s + if s = p then 1 else 0 := by
  have hpos := b.pos
  have hle := b.le
  unfold dachGetFreq
  by_cases h : s = p
  · subst h
    rw [if_pos rfl, b.here, b.freq, Function.update_self, ← b.freq_eq (Nat.le_refl _) hle]
    rfl
  · have hne : ∀ t, 1 ≤ t → t ≤ 257 → t ≠ sym → old.symToChr t ≠ old.symToChr sym :=
      fun t ht ht' hne heq => hne (wf.symToChr_inj ht ht' (by omega) hsym heq)
    rw [if_neg h, b.freq]
    by_cases hmid : p < s ∧ s ≤ sym
    · rw [b.passed s hmid.1 hmid.2,
        Function.update_of_ne (hne (s - 1) (by omega) (by omega) (by omega))]
      have h1 := b.freq_eq (s := s - 1) (by omega) (by omega)
      have h2 := b.freq_eq (s := s) (by omega) hmid.2
      exact h1.trans h2.symm
    · rw [b.rest s (by omega), Function.update_of_ne (hne s hs hs' (by omega)), Nat.add_zero]

theorem symToChr_ne_origin (b : Bubbled old sym p ppm) (wf : old.WF) (hsym : sym ≤ 257) {s : Nat}
    (hs : 1 ≤ s) (hs' : s ≤ 257) : ppm.symToChr s ≠ 258 := by
  have hpos := b.pos
  have hle := b.le
  have hold : ∀ t, 1 ≤ t → t ≤ 257 → old.symToChr t ≠ 258 := fun t ht ht' => by
    have := wf.chr_le t ht ht'
    omega
  by_cases h : s = p
  · rw [h, b.here]
    exact hold sym (by omega) hsym
  · by_cases hmid : p < s ∧ s ≤ sym
    · rw [b.passed s hmid.1 hmid.2]
      exact hold _ (by omega) (by omega)
    · rw [b.rest s (by omega)]
      exact hold s hs hs'

/-- The half-updated count of a position. -/
theorem cumAt (b : Bubbled old sym p ppm) {s : Nat} (hs : 1 ≤ s) (hs' : s ≤ 257) :
    (ppm.cumAt s + if s ≤ sym then 1 else 0) = old.cumAt s + if s ≤ p then 1 else 0 := by
  have hle := b.le
  by_cases hmid : p < s ∧ s ≤ sym
  · rw [if_pos hmid.2, if_neg (by omega), b.cum_passed s hmid.1 hmid.2, Nat.add_zero]
  · rw [b.cum_rest s hs hs' (by omega)]
    congr 1
    by_cases h : s ≤ p
    · rw [if_pos h, if_pos (by omega)]
    · rw [if_neg h, if_neg (by omega)]

end Bubbled

/-- Read by character, an update of `sym` counts its character only, and every position the character
    leaves behind or passes had the same frequency. -/
structure Counted (old : Ppm0) (sym p : Nat) (ppm : Ppm0) : Prop where
  freq : ppm.freq = Function.update old.freq (old.symToChr sym) (dachGetFreq old sym + 1)
  tie : ∀ s, p ≤ s → s ≤ sym → dachGetFreq old s = dachGetFreq old sym

/-- The bubble-up of `dach_ppm0_update`, which the head of the ranking does not need. -/
theorem updateSwap_bubbled (wf : old.WF) (hsym : 1 ≤ sym) (hsym' : sym ≤ 257)
    (hfreq : dachGetFreq old sym + 1 < 2 ^ 32) (hscale : old.scale + 1 < 2 ^ 64) :
    ∃ ppm p, Bubbled old sym p ppm ∧ (p = 1 ∨ dachGetFreq old sym < dachGetFreq old (p - 1)) ∧
      updateSwap (dachIncFreq old sym) sym = .ok ppm := by
  have hstart := bubbled_incFreq wf hsym hfreq
  by_cases hgt : sym > 1
  · obtain ⟨above, rfl⟩ : ∃ above, sym = above + 2 := ⟨sym - 2, by omega⟩
    obtain ⟨r, ppm, p, hswap, hb, hstop⟩ := dachSymSwap_bubbled wf hsym' (by omega) hstart
    refine ⟨ppm, p, hb, hstop, ?_⟩
    rw [updateSwap, if_pos hgt, show above + 2 - 1 = above + 1 from rfl, hswap]
    rfl
  · obtain rfl : sym = 1 := by omega
    exact ⟨_, 1, hstart, Or.inl rfl, rfl⟩

/-- `dach_ppm0_update` returns, with the new scale, as long as no counter wraps. -/
theorem dachPpm0Update_counted (wf : old.WF) (hsym : 1 ≤ sym) (hsym' : sym ≤ 257)
    (hfreq : dachGetFreq old sym + 1 < 2 ^ 32) (hscale : old.scale + 1 < 2 ^ 64) :
    ∃ ppm p, dachPpm0Update old sym = .ok (ppm.scale, ppm) ∧ Promoted old sym p ppm ∧
      Counted old sym p ppm := by
  obtain ⟨ppm, p, b, hstop, hrun⟩ := updateSwap_bubbled wf hsym hsym' hfreq hscale
  have hpos := b.pos
  have hle := b.le
  -- the counting loop repairs the counts
  obtain ⟨cf, hloop, horigin, hcum⟩ := incCumfreqLoop_spec ppm hsym' b.inverse
    (fun s hs hs' => b.symToChr_ne_origin wf hsym' hs hs')
    (fun s hs hs' => by
      have hb := b.cumAt hs (by omega)
      have hsc := wf.cum_le_scale (s := s) (by omega)
      rw [if_pos hs'] at hb
      split at hb <;> omega)
  have hcumAt : ∀ s, 1 ≤ s → s ≤ 257 →
      Ppm0.cumAt { ppm with cumfreq := cf } s = old.cumAt s + if s ≤ p then 1 else 0 := by
    intro s hs hs'
    rw [hcum s hs hs', b.cumAt hs hs']
  have hzero : cf 258 = 0 := horigin.trans b.origin_cum
  have horg : ppm.symToChr 0 = 258 := (b.rest 0 (Or.inl hpos)).trans wf.origin
  have hscale1 : Ppm0.cumAt { ppm with cumfreq := cf } 1 = old.scale + 1 := by
    rw [hcumAt 1 (by omega) (by omega), if_pos hpos, wf.scale_eq]
  refine ⟨{ ppm with cumfreq := cf, scale := old.scale + 1 }, p, ?_, ?_, b.freq,
    fun s hs hs' => b.freq_eq hs hs'⟩
  · have hcf1 : ∀ n, dachPpm0Cumfreq { ppm with cumfreq := cf, scale := n } 1
        = .ok (old.scale + 1) := by
      intro n
      rw [dachPpm0Cumfreq_eq (by omega)]
      exact congrArg _ hscale1
    have hcf0 : dachPpm0Cumfreq { ppm with cumfreq := cf, scale := old.scale + 1 } 0 = .ok 0 := by
      rw [dachPpm0Cumfreq_eq (by omega), Ppm0.cumAt_of_lt (by omega)]
      show Except.ok (cf (ppm.symToChr 0)) = _
      rw [horg, hzero]
    rw [dachPpm0Update, cassert_pos _ ⟨hsym, show sym < dachSymCount by unfold dachSymCount; omega⟩,
      ok_bind, hrun, ok_bind, hloop]
    have hcf1' := hcf1 ppm.scale
    simp only [hcf1', ok_bind, hcf0, hcf1]
    rfl
  · exact
      { pos := hpos
        le := hle
        here := b.here
        passed := b.passed
        rest := b.rest
        inverse := b.inverse
        head := by rw [b.freq_eq (Nat.le_refl p) hle]; exact hstop
        freq := fun s hs hs' => b.getFreq wf hsym' hs hs'
        cum := hcumAt
        origin_cum := hzero
        scale := rfl }

namespace Promoted

variable {ppm : Ppm0} {p : Nat}

/-- Every character of the old table is somewhere in the new one. -/
theorem surjective (h : Promoted old sym p ppm) (wf : old.WF) (hsym : sym ≤ 257) {c : Nat}
    (hc : c ≤ 256) : ∃ s, 1 ≤ s ∧ s ≤ 257 ∧ ppm.symToChr s = c := by
  have hpos := h.pos
  have hle := h.le
  obtain ⟨ht, ht'⟩ := wf.sym_range c hc
  have hchr := wf.chr_sym c hc
  by_cases heq : old.chrToSym c = sym
  · exact ⟨p, hpos, by omega, by rw [h.here, ← heq, hchr]⟩
  · by_cases hmid : p ≤ old.chrToSym c ∧ old.chrToSym c < sym
    · refine ⟨old.chrToSym c + 1, by omega, by omega, ?_⟩
      rw [h.passed _ (by omega) (by omega), Nat.add_sub_cancel, hchr]
    · exact ⟨old.chrToSym c, ht, ht', by rw [h.rest _ (by omega), hchr]⟩

theorem chr_le (h : Promoted old sym p ppm) (wf : old.WF) (hsym : sym ≤ 257) {s : Nat}
    (hs : 1 ≤ s) (hs' : s ≤ 257) : ppm.symToChr s ≤ 256 := by
  have hpos := h.pos
  have hle := h.le
  by_cases heq : s = p
  · rw [heq, h.here]
    exact wf.chr_le sym (by omega) hsym
  · by_cases hmid : p < s ∧ s ≤ sym
    · rw [h.passed s hmid.1 hmid.2]
      exact wf.chr_le _ (by omega) (by omega)
    · rw [h.rest s (by omega)]
      exact wf.chr_le s hs hs'

/-- An update keeps the representation invariant. -/
theorem wf (h : Promoted old sym p ppm) (wf : old.WF) (hsym : sym ≤ 257) : ppm.WF where
  chr_le := fun _ hs hs' => h.chr_le wf hsym hs hs'
  sym_chr := h.inverse
  sym_range := by
    intro c hc
    obtain ⟨s, hs, hs', rfl⟩ := h.surjective wf hsym hc
    rw [h.inverse s hs hs']
    exact ⟨hs, hs'⟩
  chr_sym := by
    intro c hc
    obtain ⟨s, hs, hs', rfl⟩ := h.surjective wf hsym hc
    rw [h.inverse s hs hs']
  freq_pos := by
    intro s hs hs'
    have := wf.freq_pos s hs hs'
    rw [h.freq s hs hs']
    omega
  sorted := by
    intro s hs hs'
    have hsorted := wf.sorted s hs hs'
    have hhead := h.head
    rw [h.freq s hs (by omega), h.freq (s + 1) (by omega) (by omega)]
    by_cases heq : s + 1 = p
    · subst heq
      rw [Nat.add_sub_cancel] at hhead
      rw [if_pos rfl]
      omega
    · rw [if_neg heq]
      omega
  cum_step := by
    intro s hs hs'
    have hstep := wf.cum_step s hs hs'
    have hle := h.le
    rcases Nat.eq_or_lt_of_le hs' with rfl | hlt
    · rw [h.cum _ hs hs', h.freq _ hs hs', hstep, Ppm0.cumAt_symCount, Ppm0.cumAt_symCount]
      by_cases heq : 257 = p
      · rw [if_pos heq, if_pos (by omega)]
      · rw [if_neg heq, if_neg (by omega)]
    · rw [h.cum s hs hs', h.cum (s + 1) (by omega) (by omega), h.freq s hs hs', hstep]
      rcases Nat.lt_trichotomy s p with hp | hp | hp
      · rw [if_pos (by omega), if_neg (by omega), if_pos (by omega)]
        omega
      · rw [if_pos (by omega), if_pos hp, if_neg (by omega)]
        omega
      · rw [if_neg (by omega), if_neg (by omega), if_neg (by omega)]
        omega
  origin := by rw [h.rest 0 (Or.inl h.pos), wf.origin]
  origin_cum := h.origin_cum
  scale_eq := by
    rw [h.scale, wf.scale_eq, h.cum 1 (by omega) (by omega), if_pos h.pos]

end Promoted

end Update

/-! ### The search -/

theorem findSymLoop_spec (ppm : Ppm0) (count : Nat) {left : Nat} :
    ∀ {sym : Nat}, 1 ≤ sym → sym + left = 258 → (∀ s, 1 ≤ s → s < sym → count < ppm.cumAt s) →
      ∃ t, findSymLoop ppm count left sym = .ok t ∧ 1 ≤ t ∧ t ≤ 258 ∧
        (∀ s, 1 ≤ s → s < t → count < ppm.cumAt s) ∧ ppm.cumAt t ≤ count := by
  induction left with
  | zero =>
      intro sym hsym hleft hbelow
      obtain rfl : sym = 258 := by omega
      exact ⟨258, rfl, by omega, by omega, hbelow, by simp⟩
  | succ left ih =>
      intro sym hsym hleft hbelow
      rw [findSymLoop, dachPpm0Cumfreq_eq (by omega), ok_bind]
      by_cases hgt : ppm.cumAt sym > count
      · rw [if_pos hgt]
        refine ih (by omega) (by omega) fun s hs hs' => ?_
        rcases Nat.eq_or_lt_of_le (Nat.le_of_lt_succ hs') with rfl | hlt
        · exact hgt
        · exact hbelow s hs hlt
      · rw [if_neg hgt]
        exact ⟨sym, rfl, hsym, by omega, hbelow, by omega⟩

/-- `dach_ppm0_find_sym` returns the symbol whose part of the scale holds the count. -/
theorem dachPpm0FindSym_spec {ppm : Ppm0} (wf : ppm.WF) {count : Nat} (hcount : count < ppm.scale) :
    ∃ sym, dachPpm0FindSym ppm count = .ok sym ∧ 1 ≤ sym ∧ sym ≤ 257 ∧
      ppm.cumAt (sym + 1) ≤ count ∧ count < ppm.cumAt sym := by
  obtain ⟨t, hloop, ht, ht', hbelow, hstop⟩ := findSymLoop_spec ppm count
    (Nat.le_refl 1) (show 1 + 257 = 258 from rfl) fun s hs hs' => absurd hs (Nat.not_le_of_lt hs')
  have hne : t ≠ 1 := by
    rintro rfl
    rw [← wf.scale_eq] at hstop
    omega
  refine ⟨t - 1, ?_, by omega, by omega, ?_, hbelow _ (by omega) (by omega)⟩
  · simp only [dachPpm0FindSym, show dachSymCount - 1 = 257 from rfl, hloop, ok_bind,
      cassert_pos _ (show t - 1 ≠ 0 by omega), pure_eq_ok]
  · rw [Nat.sub_add_cancel ht]
    exact hstop

/-- Only one symbol's part of the scale holds a count. -/
theorem Ppm0.WF.sym_unique {ppm : Ppm0} (wf : ppm.WF) {count s t : Nat} (hs : 1 ≤ s)
    (hs' : s ≤ 257) (ht : 1 ≤ t) (ht' : t ≤ 257) (hlo : ppm.cumAt (s + 1) ≤ count)
    (hhi : count < ppm.cumAt s) (hlo' : ppm.cumAt (t + 1) ≤ count) (hhi' : count < ppm.cumAt t) :
    s = t := by
  rcases Nat.lt_trichotomy s t with hlt | heq | hlt
  · have := wf.cum_gap (s := s + 1) (t := t) (by omega) (by omega) (by omega)
    omega
  · exact heq
  · have := wf.cum_gap (s := t + 1) (t := s) (by omega) (by omega) (by omega)
    omega

/-! ### Runs of updates -/

/-- Calls of `update` with these symbols, one after the other. -/
def updateSyms (ppm : Ppm0) : List Nat → Except Abort Ppm0
  | [] => .ok ppm
  | sym :: syms => do
      let (_, ppm) ← dachPpm0Update ppm sym
      updateSyms ppm syms

/-- What the tables say to their users after `m` updates. -/
structure Ppm0.Ranking (ppm : Ppm0) (m : Nat) : Prop where
  bijOn : Set.BijOn ppm.symToChr (Set.Icc 1 257) (Set.Icc 0 256)
  invOn : Set.InvOn ppm.chrToSym ppm.symToChr (Set.Icc 1 257) (Set.Icc 0 256)
  freq_pos : ∀ s ∈ Set.Icc 1 257, 1 ≤ dachGetFreq ppm s
  freq_anti : AntitoneOn (dachGetFreq ppm) (Set.Icc 1 257)
  cumfreq : ∀ s ∈ Set.Icc 1 257,
    dachPpm0Cumfreq ppm s = .ok (∑ t ∈ Finset.Icc s 257, dachGetFreq ppm t)
  cumfreq_ends : dachPpm0Cumfreq ppm 0 = .ok 0 ∧ dachPpm0Cumfreq ppm 258 = .ok 0
  scale : ppm.scale = 257 + m ∧ dachPpm0Cumfreq ppm 1 = .ok ppm.scale

/-- Character 256 ranks last and has never been counted. -/
def Ppm0.Reserved (ppm : Ppm0) : Prop :=
  ppm.symToChr 257 = 256 ∧ dachGetFreq ppm 257 = 1

/-- Every symbol was looked up for a byte at the time of its update. -/
def SymsOfBytes (ppm : Ppm0) : List Nat → Prop
  | [] => True
  | sym :: syms => (∃ c : UInt8, dachChrToSym ppm c.toNat = .ok sym) ∧
      ∀ scale ppm', dachPpm0Update ppm sym = .ok (scale, ppm') → SymsOfBytes ppm' syms

theorem Ppm0.WF.ranking {ppm : Ppm0} (wf : ppm.WF) {m : Nat} (hscale : ppm.scale = 257 + m) :
    ppm.Ranking m where
  bijOn := by
    refine ⟨fun s hs => ⟨Nat.zero_le _, wf.chr_le s hs.1 hs.2⟩, ?_, ?_⟩
    · intro s hs t ht heq
      exact wf.symToChr_inj hs.1 hs.2 ht.1 ht.2 heq
    · intro c hc
      exact ⟨ppm.chrToSym c, wf.sym_range c hc.2, wf.chr_sym c hc.2⟩
  invOn := ⟨fun s hs => wf.sym_chr s hs.1 hs.2, fun c hc => wf.chr_sym c hc.2⟩
  freq_pos := fun s hs => wf.freq_pos s hs.1 hs.2
  freq_anti := wf.freq_anti
  cumfreq := by
    intro s hs
    obtain ⟨hs, hs'⟩ := hs
    rw [dachPpm0Cumfreq_eq (by omega), wf.cum_eq_sum hs (by omega)]
    rfl
  cumfreq_ends := by
    rw [dachPpm0Cumfreq_eq (by omega), dachPpm0Cumfreq_eq (by omega), wf.cumAt_zero]
    exact ⟨rfl, rfl⟩
  scale := by
    rw [dachPpm0Cumfreq_eq (by omega), wf.scale_eq.symm]
    exact ⟨hscale, rfl⟩

theorem dachChrToSym_eq {ppm : Ppm0} {c : Nat} (hc : c ≤ 255) :
    dachChrToSym ppm c = .ok (ppm.chrToSym c) := by
  rw [dachChrToSym, cassert_pos _ hc]
  rfl

theorem dachSymToChr_eq {ppm : Ppm0} {sym : Nat} (hsym : sym ≤ 258) :
    dachSymToChr ppm sym = .ok (ppm.symToChr sym) := by
  rw [dachSymToChr, cassert_pos _ (show sym ≤ dachSymCount from hsym)]
  rfl

/-- While character 256 ranks last, the symbol of a byte is one of 1..256. -/
theorem Ppm0.WF.sym_of_byte {ppm : Ppm0} (wf : ppm.WF) (hres : ppm.Reserved) {c : Nat}
    (hc : c ≤ 255) : 1 ≤ ppm.chrToSym c ∧ ppm.chrToSym c ≤ 256 := by
  obtain ⟨hlo, hhi⟩ := wf.sym_range c (by omega)
  refine ⟨hlo, ?_⟩
  have hne : ppm.chrToSym c ≠ 257 := by
    intro heq
    have hchr := wf.chr_sym c (by omega)
    rw [heq, hres.1] at hchr
    omega
  omega

/-- Updating one of the symbols 1..256 leaves character 256 alone. -/
theorem Promoted.reserved {old ppm : Ppm0} {sym p : Nat} (h : Promoted old sym p ppm)
    (hsym : sym ≤ 256) (hres : old.Reserved) : ppm.Reserved := by
  have hle := h.le
  constructor
  · rw [h.rest 257 (by omega), hres.1]
  · rw [h.freq 257 (by omega) (by omega), if_neg (by omega), hres.2]

/-- The conditions under which one more update cannot wrap a counter. -/
theorem Ppm0.WF.update_counted {ppm : Ppm0} (wf : ppm.WF) {sym : Nat} (hsym : 1 ≤ sym)
    (hsym' : sym ≤ 257) (hscale : ppm.scale ≤ 2 ^ 32 + 254) :
    ∃ ppm' p, dachPpm0Update ppm sym = .ok (ppm'.scale, ppm') ∧ Promoted ppm sym p ppm' ∧
      Counted ppm sym p ppm' := by
  have hfreq := wf.freq_le_scale hsym hsym'
  exact dachPpm0Update_counted wf hsym hsym' (by omega) (by omega)

theorem Ppm0.WF.update {ppm : Ppm0} (wf : ppm.WF) {sym : Nat} (hsym : 1 ≤ sym) (hsym' : sym ≤ 257)
    (hscale : ppm.scale ≤ 2 ^ 32 + 254) :
    ∃ ppm' p, dachPpm0Update ppm sym = .ok (ppm'.scale, ppm') ∧ Promoted ppm sym p ppm' := by
  obtain ⟨ppm', p, hrun, h, _⟩ := wf.update_counted hsym hsym' hscale
  exact ⟨ppm', p, hrun, h⟩

theorem updateSyms_spec {syms : List Nat} : ∀ {ppm : Ppm0}, ppm.WF →
    ppm.scale + syms.length ≤ 2 ^ 32 + 255 → (∀ s ∈ syms, 1 ≤ s ∧ s ≤ 257) →
      ∃ ppm', updateSyms ppm syms = .ok ppm' ∧ ppm'.WF ∧ ppm'.scale = ppm.scale + syms.length ∧
        (ppm.Reserved → SymsOfBytes ppm syms → ppm'.Reserved) := by
  induction syms with
  | nil =>
      intro ppm wf _ _
      exact ⟨ppm, rfl, wf, rfl, fun hres _ => hres⟩
  | cons sym syms ih =>
      intro ppm wf hlen hsyms
      rw [List.length_cons] at hlen
      obtain ⟨hsym, hsym'⟩ := hsyms sym (by simp)
      obtain ⟨mid, p, hupdate, h⟩ := wf.update hsym hsym' (by omega)
      have hscale := h.scale
      obtain ⟨ppm', hrun, wf', hscale', hres'⟩ := ih (h.wf wf hsym') (by omega)
        fun s hs => hsyms s (by simp [hs])
      refine ⟨ppm', ?_, wf', ?_, ?_⟩
      · rw [updateSyms, hupdate, ok_bind]
        exact hrun
      · rw [hscale', hscale, List.length_cons]
        omega
      · intro hres hbytes
        obtain ⟨⟨c, hc⟩, hrest⟩ := hbytes
        have hc255 : c.toNat ≤ 255 := Nat.le_of_lt_succ c.toNat_lt
        rw [dachChrToSym_eq hc255, Except.ok.injEq] at hc
        have hsym256 : sym ≤ 256 := by
          rw [← hc]
          exact (wf.sym_of_byte hres hc255).2
        exact hres' (h.reserved hsym256 hres) (hrest _ _ hupdate)

theorem FreshTables.reserved {ppm : Ppm0} (h : FreshTables ppm) : ppm.Reserved := by
  refine ⟨h.chr 257 (by omega) (by omega), ?_⟩
  rw [dachGetFreq, h.chr 257 (by omega) (by omega), h.freq _ (by omega)]

/-- The adaptive model is a ranking after every sequence of updates the counters can hold, and while
    only bytes are updated it keeps character 256 last. -/
theorem dachPpm0New_updates (syms : List Nat) (hlen : syms.length ≤ 2 ^ 32 - 2)
    (hsyms : ∀ s ∈ syms, 1 ≤ s ∧ s ≤ 257) :
    ∃ new ppm, dachPpm0New = .ok new ∧ updateSyms new syms = .ok ppm ∧
      ppm.Ranking syms.length ∧
      (SymsOfBytes new syms → ppm.Reserved ∧
        ∀ c ≤ 255, ∃ sym, dachChrToSym ppm c = .ok sym ∧ 1 ≤ sym ∧ sym ≤ 256) := by
  obtain ⟨new, hnew, fresh⟩ := dachPpm0New_fresh
  obtain ⟨ppm, hrun, wf, hscale, hres⟩ := updateSyms_spec fresh.wf
    (by rw [fresh.scale_eq]; omega) hsyms
  rw [fresh.scale_eq] at hscale
  refine ⟨new, ppm, hnew, hrun, wf.ranking hscale, fun hbytes => ?_⟩
  have hreserved := hres fresh.reserved hbytes
  exact ⟨hreserved, fun c hc => ⟨_, dachChrToSym_eq hc, wf.sym_of_byte hreserved hc⟩⟩

/-- One update with the symbol of byte 66. -/
theorem dachPpm0New_updates_byte :
    ∃ new ppm, dachPpm0New = .ok new ∧ updateSyms new [67] = .ok ppm ∧ ppm.Ranking 1 ∧
      ppm.Reserved := by
  obtain ⟨new, ppm, hnew, hrun, hranking, hbytes⟩ :=
    dachPpm0New_updates [67] (by decide) (by decide)
  obtain ⟨fresh, hfresh, tables⟩ := dachPpm0New_fresh
  obtain rfl : new = fresh := ok_unique hnew hfresh
  have hsym : dachChrToSym new (66 : UInt8).toNat = .ok 67 := by
    rw [dachChrToSym_eq (by decide), tables.sym _ (by decide)]
    rfl
  exact ⟨new, ppm, hnew, hrun, hranking, (hbytes ⟨⟨66, hsym⟩, fun _ _ _ => trivial⟩).1⟩

end Dach
