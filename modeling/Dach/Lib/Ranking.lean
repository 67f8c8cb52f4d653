/-
Module: Dach.Lib.Ranking
Layer: Lib
Purpose: A ranking of letters that is a function of what has been seen: more frequent letters first, of
  equally frequent ones the one whose last occurrence is longer ago, and letters never seen in their own
  order. A table that moves every letter it sees to the head of its frequency class holds this ranking,
  and the ranking divides a total into one slice for each letter.
Imports: Dach.Lib.IntervalCoder
Trusted boundary: none
Main exports: Ranking.lastSeen, Ranking.Precedes, precedes_iff, Ranking.position, Ranking.Ranks,
  Ranks.step, Ranks.position_eq, Ranks.behind_eq, Ranking.sliceOf, Ranking.HistorySlice
-/
import Dach.Lib.IntervalCoder

namespace Ranking

variable {α : Type} [LinearOrder α]

/-! ### The order -/

/-- The place of the last occurrence, counted from 1; 0 for a letter that was never seen. -/
def lastSeen (history : List α) (a : α) : Nat :=
  history.length - history.reverse.idxOf a

theorem lastSeen_le (history : List α) (a : α) : lastSeen history a ≤ history.length :=
  Nat.sub_le _ _

theorem lastSeen_concat_self (history : List α) (x : α) :
    lastSeen (history ++ [x]) x = history.length + 1 := by
  simp [lastSeen]

theorem lastSeen_concat_of_ne (history : List α) {x a : α} (hne : a ≠ x) :
    lastSeen (history ++ [x]) a = lastSeen history a := by
  simp [lastSeen, List.idxOf_cons_ne _ (Ne.symm hne)]

/-- What letters are compared by: how often they were seen, then how long ago, then themselves. -/
def rankKey (history : List α) (a : α) : ℕᵒᵈ ×ₗ (ℕ ×ₗ α) :=
  toLex (OrderDual.toDual (history.count a), toLex (lastSeen history a, a))

/-- The first letter ranks before the second. -/
def Precedes (history : List α) (a b : α) : Prop :=
  rankKey history a < rankKey history b

instance (history : List α) (a b : α) : Decidable (Precedes history a b) :=
  inferInstanceAs (Decidable (_ < _))

theorem precedes_iff {history : List α} {a b : α} :
    Precedes history a b ↔ history.count b < history.count a ∨ history.count a = history.count b ∧
      (lastSeen history a < lastSeen history b ∨ lastSeen history a = lastSeen history b ∧ a < b) := by
  simp [Precedes, rankKey, Prod.Lex.toLex_lt_toLex]

theorem precedes_asymm {history : List α} {a b : α} (h : Precedes history a b) :
    ¬ Precedes history b a :=
  lt_asymm h

theorem Precedes.trans {history : List α} {a b c : α} (h : Precedes history a b)
    (h' : Precedes history b c) : Precedes history a c :=
  lt_trans h h'

/-- A letter that was never seen ranks after every letter that comes before it in their own order. -/
theorem precedes_of_unseen {history : List α} {a b : α} (hb : b ∉ history) (hlt : a < b) :
    Precedes history a b := by
  have hcount := List.count_eq_zero_of_not_mem hb
  have hlast : lastSeen history b = 0 := by
    rw [lastSeen, List.idxOf_of_notMem (by simpa using hb), List.length_reverse, Nat.sub_self]
  rw [precedes_iff, hcount, hlast]
  rcases Nat.eq_zero_or_pos (history.count a) with hzero | hpos
  · right
    have hnot : a ∉ history := List.count_eq_zero.mp hzero
    rw [lastSeen, List.idxOf_of_notMem (by simpa using hnot), List.length_reverse, Nat.sub_self]
    exact ⟨hzero, Or.inr ⟨rfl, hlt⟩⟩
  · exact Or.inl hpos

theorem Precedes.count_le {history : List α} {a b : α} (h : Precedes history a b) :
    history.count b ≤ history.count a := by
  rcases precedes_iff.mp h with hlt | ⟨heq, _⟩
  · exact Nat.le_of_lt hlt
  · exact Nat.le_of_eq heq.symm

/-- Seeing a letter does not change how two others rank. -/
theorem precedes_concat_of_ne {history : List α} {x a b : α} (ha : a ≠ x) (hb : b ≠ x) :
    Precedes (history ++ [x]) a b ↔ Precedes history a b := by
  rw [precedes_iff, precedes_iff, lastSeen_concat_of_ne history ha, lastSeen_concat_of_ne history hb]
  simp [List.count_append, Ne.symm ha, Ne.symm hb]

/-- The letter just seen ranks before every one that was seen no more often. -/
theorem precedes_concat_self {history : List α} {x b : α} (hb : b ≠ x)
    (hcount : history.count b ≤ history.count x) : Precedes (history ++ [x]) x b := by
  rw [precedes_iff]
  left
  simp [List.count_append, Ne.symm hb]
  omega

/-- It ranks after every one that was seen more often. -/
theorem precedes_concat_last {history : List α} {x a : α} (ha : a ≠ x)
    (hcount : history.count x < history.count a) : Precedes (history ++ [x]) a x := by
  have hlast := lastSeen_le history a
  rw [precedes_iff, lastSeen_concat_self, lastSeen_concat_of_ne history ha]
  simp [List.count_append, Ne.symm ha]
  omega

/-! ### A table in this order -/

/-- How many letters of the alphabet rank up to and with this one. -/
def position (S : Finset α) (history : List α) (a : α) : Nat :=
  1 + (S.filter fun b => Precedes history b a).card

/-- The counts, each one more than the occurrences, of the letters that rank after this one. -/
def behind (S : Finset α) (history : List α) (a : α) : Nat :=
  ∑ b ∈ S with Precedes history a b, (history.count b + 1)

/-- The counts of the whole alphabet. -/
def total (S : Finset α) (history : List α) : Nat :=
  ∑ b ∈ S, (history.count b + 1)

/-- The places `1..n` hold the letters of the alphabet in their order. -/
structure Ranks (S : Finset α) (history : List α) (n : Nat) (letterAt : Nat → α) : Prop where
  mem : ∀ s, 1 ≤ s → s ≤ n → letterAt s ∈ S
  onto : ∀ a ∈ S, ∃ s, 1 ≤ s ∧ s ≤ n ∧ letterAt s = a
  lt : ∀ s t, 1 ≤ s → s < t → t ≤ n → Precedes history (letterAt s) (letterAt t)

/-- Moving the letter at `q` up to `p`, the first place with its count, keeps the order when the letter
    is seen. -/
theorem Ranks.step {S : Finset α} {history : List α} {n p q : Nat} {before after : Nat → α}
    (h : Ranks S history n before) (hp : 1 ≤ p) (hpq : p ≤ q) (hq : q ≤ n)
    (moved : after p = before q) (lowered : ∀ s, p < s → s ≤ q → after s = before (s - 1))
    (kept : ∀ s, s < p ∨ q < s → after s = before s)
    (tie : history.count (before p) = history.count (before q))
    (head : p = 1 ∨ history.count (before q) < history.count (before (p - 1))) :
    Ranks S (history ++ [before q]) n after := by
  -- where the letters of the new table stood before
  have hsource : ∀ s, 1 ≤ s → s ≤ n → s ≠ p →
      ∃ s', 1 ≤ s' ∧ s' ≤ n ∧ s' ≠ q ∧ after s = before s' ∧ (s < p ∧ s' = s ∨
        p < s ∧ p ≤ s' ∧ (s ≤ q ∧ s' = s - 1 ∨ q < s ∧ s' = s)) := by
    intro s hs hs' hne
    by_cases hmid : p < s ∧ s ≤ q
    · exact ⟨s - 1, by omega, by omega, by omega, lowered s hmid.1 hmid.2, by omega⟩
    · exact ⟨s, hs, hs', by omega, kept s (by omega), by omega⟩
  have hinj : ∀ s t, 1 ≤ s → s ≤ n → 1 ≤ t → t ≤ n → s ≠ t → before s ≠ before t := by
    intro s t hs hs' ht ht' hne heq
    rcases Nat.lt_or_gt_of_ne hne with hlt | hlt
    · have hprec := h.lt s t hs hlt ht'
      rw [heq] at hprec
      exact precedes_asymm hprec hprec
    · have hprec := h.lt t s ht hlt hs'
      rw [heq] at hprec
      exact precedes_asymm hprec hprec
  have hanti : ∀ s t, 1 ≤ s → s ≤ t → t ≤ n →
      history.count (before t) ≤ history.count (before s) := by
    intro s t hs hst ht
    rcases Nat.eq_or_lt_of_le hst with rfl | hlt
    · exact Nat.le_refl _
    · exact (h.lt s t hs hlt ht).count_le
  refine ⟨?_, ?_, ?_⟩
  · intro s hs hs'
    by_cases hsp : s = p
    · rw [hsp, moved]
      exact h.mem q (by omega) hq
    · obtain ⟨s', h1, h2, _, heq, _⟩ := hsource s hs hs' hsp
      rw [heq]
      exact h.mem s' h1 h2
  · intro a ha
    obtain ⟨s, hs, hs', rfl⟩ := h.onto a ha
    by_cases hsq : s = q
    · exact ⟨p, hp, by omega, by rw [moved, hsq]⟩
    · by_cases hmid : p ≤ s ∧ s < q
      · refine ⟨s + 1, by omega, by omega, ?_⟩
        rw [lowered (s + 1) (by omega) (by omega), Nat.add_sub_cancel]
      · exact ⟨s, hs, hs', kept s (by omega)⟩
  · intro s t hs hst ht
    by_cases hsp : s = p
    · -- the letter just seen against one behind it
      obtain ⟨t', h1, h2, hne, heq, hcases⟩ := hsource t (by omega) ht (by omega)
      rw [hsp, moved, heq]
      apply precedes_concat_self (hinj t' q h1 h2 (by omega) hq hne)
      rw [← tie]
      exact hanti p t' hp (by omega) h2
    · by_cases htp : t = p
      · -- one before it against the letter just seen
        rw [htp, moved, kept s (by omega)]
        apply precedes_concat_last (hinj s q hs (by omega) (by omega) hq (by omega))
        rcases head with rfl | hlt
        · omega
        · exact Nat.lt_of_lt_of_le hlt (hanti s (p - 1) hs (by omega) (by omega))
      · -- two others
        obtain ⟨s', hs1, hs2, hsne, hseq, hscases⟩ := hsource s hs (by omega) hsp
        obtain ⟨t', ht1, ht2, htne, hteq, htcases⟩ := hsource t (by omega) ht htp
        rw [hseq, hteq, precedes_concat_of_ne (hinj s' q hs1 hs2 (by omega) hq hsne)
          (hinj t' q ht1 ht2 (by omega) hq htne)]
        exact h.lt s' t' hs1 (by omega) ht2

/-- A table that nothing was seen by holds the letters in their own order. -/
theorem Ranks.nil {S : Finset α} {n : Nat} {letterAt : Nat → α}
    (mem : ∀ s, 1 ≤ s → s ≤ n → letterAt s ∈ S)
    (onto : ∀ a ∈ S, ∃ s, 1 ≤ s ∧ s ≤ n ∧ letterAt s = a)
    (lt : ∀ s t, 1 ≤ s → s < t → t ≤ n → letterAt s < letterAt t) : Ranks S [] n letterAt where
  mem := mem
  onto := onto
  lt := by
    intro s t hs hst ht
    rw [precedes_iff]
    simpa [lastSeen] using lt s t hs hst ht

namespace Ranks

variable {S : Finset α} {history : List α} {n : Nat} {letterAt : Nat → α}

theorem inj (h : Ranks S history n letterAt) {s t : Nat} (hs : 1 ≤ s) (hs' : s ≤ n) (ht : 1 ≤ t)
    (ht' : t ≤ n) (heq : letterAt s = letterAt t) : s = t := by
  rcases Nat.lt_trichotomy s t with hlt | rfl | hlt
  · have hprec := h.lt s t hs hlt ht'
    rw [heq] at hprec
    exact absurd hprec (precedes_asymm hprec)
  · rfl
  · have hprec := h.lt t s ht hlt hs'
    rw [heq] at hprec
    exact absurd hprec (precedes_asymm hprec)

theorem precedes_iff_lt (h : Ranks S history n letterAt) {s t : Nat} (hs : 1 ≤ s) (hs' : s ≤ n)
    (ht : 1 ≤ t) (ht' : t ≤ n) : Precedes history (letterAt s) (letterAt t) ↔ s < t := by
  constructor
  · intro hprec
    rcases Nat.lt_trichotomy s t with hlt | rfl | hlt
    · exact hlt
    · exact absurd hprec (precedes_asymm hprec)
    · exact absurd hprec (precedes_asymm (h.lt t s ht hlt hs'))
  · intro hlt
    exact h.lt s t hs hlt ht'

/-- The letters at a range of places. -/
theorem filter_eq (h : Ranks S history n letterAt) (P : α → Prop) [DecidablePred P] (lo hi : Nat)
    (hlo : 1 ≤ lo) (hhi : hi ≤ n + 1)
    (hP : ∀ t, 1 ≤ t → t ≤ n → (P (letterAt t) ↔ lo ≤ t ∧ t < hi)) :
    S.filter P = (Finset.Ico lo hi).image letterAt := by
  ext a
  rw [Finset.mem_filter, Finset.mem_image]
  constructor
  · rintro ⟨ha, hprop⟩
    obtain ⟨t, ht, ht', rfl⟩ := h.onto a ha
    exact ⟨t, Finset.mem_Ico.mpr ((hP t ht ht').mp hprop), rfl⟩
  · rintro ⟨t, ht, rfl⟩
    rw [Finset.mem_Ico] at ht
    exact ⟨h.mem t (by omega) (by omega), (hP t (by omega) (by omega)).mpr ht⟩

theorem injOn (h : Ranks S history n letterAt) {lo hi : Nat} (hlo : 1 ≤ lo) (hhi : hi ≤ n + 1) :
    Set.InjOn letterAt (Finset.Ico lo hi) := by
  intro s hs t ht heq
  rw [Finset.mem_coe, Finset.mem_Ico] at hs ht
  exact h.inj (by omega) (by omega) (by omega) (by omega) heq

/-- A letter stands at its position. -/
theorem position_eq (h : Ranks S history n letterAt) {s : Nat} (hs : 1 ≤ s) (hs' : s ≤ n) :
    position S history (letterAt s) = s := by
  rw [position, h.filter_eq _ 1 s (Nat.le_refl 1) (by omega) fun t ht ht' => by
      rw [h.precedes_iff_lt ht ht' hs hs']
      omega,
    Finset.card_image_of_injOn (h.injOn (Nat.le_refl 1) (by omega)), Nat.card_Ico]
  omega

/-- The counts behind a letter are those at the places behind its own. -/
theorem behind_eq (h : Ranks S history n letterAt) {s : Nat} (hs : 1 ≤ s) (hs' : s ≤ n) :
    behind S history (letterAt s)
      = ∑ t ∈ Finset.Ico (s + 1) (n + 1), (history.count (letterAt t) + 1) := by
  rw [behind, h.filter_eq _ (s + 1) (n + 1) (by omega) (Nat.le_refl _) fun t ht ht' => by
      rw [h.precedes_iff_lt hs hs' ht ht']
      omega,
    Finset.sum_image (h.injOn (by omega) (Nat.le_refl _))]

theorem total_eq (h : Ranks S history n letterAt) :
    total S history = ∑ t ∈ Finset.Ico 1 (n + 1), (history.count (letterAt t) + 1) := by
  have hall : S = (Finset.Ico 1 (n + 1)).image letterAt := by
    rw [← h.filter_eq (fun _ => True) 1 (n + 1) (Nat.le_refl 1) (Nat.le_refl _) fun t ht ht' => by
      simp only [true_iff]
      omega, Finset.filter_true]
  rw [total, hall, Finset.sum_image (h.injOn (Nat.le_refl 1) (Nat.le_refl _))]

end Ranks

/-! ### The slices of the ranking -/

open IntervalCoder in
/-- The share of a letter: as much as it was seen and one more, above the shares of all that rank
    after it. -/
def sliceOf (S : Finset α) (history : List α) {a : α} (ha : a ∈ S) : Slice where
  lo := behind S history a
  hi := behind S history a + (history.count a + 1)
  scale := total S history
  lt := Nat.lt_add_of_pos_right (Nat.succ_pos _)
  le := by
    have hnot : a ∉ S.filter fun b => Precedes history a b := by
      intro hmem
      have hprec := (Finset.mem_filter.mp hmem).2
      exact precedes_asymm hprec hprec
    have hinsert := Finset.sum_insert (f := fun b => history.count b + 1) hnot
    rw [behind, Nat.add_comm, ← hinsert]
    apply Finset.sum_le_sum_of_subset
    exact Finset.insert_subset ha (Finset.filter_subset _ _)

/-- The slices lie in the order of the ranks, the first letter's on top. -/
theorem sliceOf_hi_le {S : Finset α} {history : List α} {a b : α} (ha : a ∈ S) (hb : b ∈ S)
    (h : Precedes history a b) : (sliceOf S history hb).hi ≤ (sliceOf S history ha).lo := by
  have hnot : b ∉ S.filter fun c => Precedes history b c := by
    intro hmem
    have hprec := (Finset.mem_filter.mp hmem).2
    exact precedes_asymm hprec hprec
  have hinsert := Finset.sum_insert (f := fun c => history.count c + 1) hnot
  show behind S history b + (history.count b + 1) ≤ behind S history a
  rw [behind, Nat.add_comm, ← hinsert]
  apply Finset.sum_le_sum_of_subset
  refine Finset.insert_subset (Finset.mem_filter.mpr ⟨hb, h⟩) ?_
  intro c hc
  obtain ⟨hmem, hprec⟩ := Finset.mem_filter.mp hc
  exact Finset.mem_filter.mpr ⟨hmem, h.trans hprec⟩

/-- The adaptive model whose state is what was seen: the letter `b`, as `letter b` of the alphabet, has
    the slice its rank gives it, and is then seen. -/
structure HistorySlice {β : Type} (S : Finset α) (letter : β → α) (history : List α) (b : β)
    (s : IntervalCoder.Slice) (history' : List α) : Prop where
  slice : ∃ hb : letter b ∈ S, s = sliceOf S history hb
  seen : history' = history ++ [letter b]

theorem HistorySlice.functional {β : Type} {S : Finset α} {letter : β → α} {history : List α} {b : β}
    {s s' : IntervalCoder.Slice} {h₁ h₂ : List α} (one : HistorySlice S letter history b s h₁)
    (two : HistorySlice S letter history b s' h₂) : s = s' ∧ h₁ = h₂ := by
  obtain ⟨_, rfl⟩ := one.slice
  obtain ⟨_, rfl⟩ := two.slice
  exact ⟨rfl, one.seen.trans two.seen.symm⟩

end Ranking
