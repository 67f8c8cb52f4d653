/-
Module: Dach.Proofs.String
Layer: Proofs
Purpose: `dach_find_prev_substr` finds the longest earlier occurrence. The inner loop measures the common
  beginning of the two ends of the slab, the outer one keeps the first start with the longest, and
  neither reads outside the slab.
Imports: Dach.Core.String, Dach.Lib.Search
Trusted boundary: none
Main exports: matchLen, Matching, matchLoop_spec, Sliding, slidePass_next, PrevOccurrence, LongestPrev,
  dachFindPrevSubstr_longest
-/
import Dach.Core.String
import Dach.Lib.Search

namespace Dach

open Search

/-! ### One start -/

/-- How far the slab from `s` on, up to `pos`, agrees with the slab from `pos` on. -/
def matchLen (slab : List UInt8) (pos s : Nat) : Nat :=
  commonLen ((slab.take pos).drop s) (slab.drop pos)

section Start

variable {slab : List UInt8} {pos : Nat} {s : PrevSearch}

theorem getElem?_back (slab : List UInt8) (pos s i : Nat) :
    ((slab.take pos).drop s)[i]? = if s + i < pos then slab[s + i]? else none := by
  rw [List.getElem?_drop, List.getElem?_take]

/-- The characters that agree are in the slab, and below the two limits. -/
theorem matchLen_agree {s i : Nat} (h : i < matchLen slab pos s) :
    s + i < pos ∧ pos + i < slab.length ∧ ∃ c, slab[s + i]? = some c ∧ slab[pos + i]? = some c := by
  rcases getElem?_of_lt_commonLen h with ⟨c, hback, hfront⟩
  rw [getElem?_back] at hback
  rw [List.getElem?_drop] at hfront
  rcases List.getElem?_eq_some_iff.mp hfront with ⟨hlt, _⟩
  split at hback
  · rename_i hpos
    exact ⟨hpos, hlt, c, hback, hfront⟩
  · cases hback

/-- Below the limits, the characters behind them differ. -/
theorem matchLen_differ {s : Nat} (hpos : s + matchLen slab pos s < pos) {c d : UInt8}
    (hback : slab[s + matchLen slab pos s]? = some c)
    (hfront : slab[pos + matchLen slab pos s]? = some d) : c ≠ d := by
  apply ne_of_getElem?_commonLen
  · rw [getElem?_back]
    exact (if_pos hpos).trans hback
  · rw [List.getElem?_drop]
    exact hfront

theorem slabAt_eq {i : Nat} {c : UInt8} (h : slab[i]? = some c) : slabAt slab i = .ok c := by
  rw [slabAt, h]

/-- The inner loop for one start, with this many characters to go. -/
structure Matching (slab : List UInt8) (pos start : Nat) (best : Substr) (left : Nat)
    (s : PrevSearch) : Prop where
  sub : s.sub = best
  slide : s.slide = start
  back : s.b = start + s.n
  front : s.f = pos + s.n
  total : s.n + left = matchLen slab pos start

/-- With no character to go the limits are reached, or the next two characters differ. -/
theorem matchPass_break {start : Nat} {best : Substr} (h : Matching slab pos start best 0 s) :
    matchPass slab slab.length pos s = .ok none := by
  have hn : s.n = matchLen slab pos start := h.total
  have hback := h.back
  have hfront := h.front
  rw [hn] at hback hfront
  rw [matchPass, hback, hfront]
  split
  · rename_i hlimits
    obtain ⟨c, hc⟩ : ∃ c, slab[start + matchLen slab pos start]? = some c :=
      ⟨_, List.getElem?_eq_getElem (by omega)⟩
    obtain ⟨d, hd⟩ : ∃ d, slab[pos + matchLen slab pos start]? = some d :=
      ⟨_, List.getElem?_eq_getElem hlimits.2⟩
    rw [slabAt_eq hc, slabAt_eq hd, ok_bind, ok_bind, if_neg (matchLen_differ hlimits.1 hc hd)]
    rfl
  · rfl

/-- A character that agrees is counted. -/
theorem matchPass_next (hsize : slab.length < 2 ^ 32) {start left : Nat} {best : Substr}
    (hstart : start < pos) (h : Matching slab pos start best (left + 1) s) :
    ∃ t, matchPass slab slab.length pos s = .ok (some t) ∧ Matching slab pos start best left t := by
  have htotal := h.total
  have hback := h.back
  have hfront := h.front
  rcases matchLen_agree (show s.n < matchLen slab pos start by omega) with ⟨hpos, hend, c, hc, hd⟩
  rw [← hback] at hpos hc
  rw [← hfront] at hend hd
  refine ⟨{ s with b := s.b + 1, f := s.f + 1, n := s.n + 1 }, ?_, ?_⟩
  · rw [matchPass, if_pos ⟨hpos, hend⟩, slabAt_eq hc, slabAt_eq hd, ok_bind, ok_bind, if_pos rfl,
      u32_of_lt (by omega), u32_of_lt (by omega), u32_of_lt (by omega)]
    rfl
  · constructor
    · exact h.sub
    · exact h.slide
    · show s.b + 1 = start + (s.n + 1)
      omega
    · show s.f + 1 = pos + (s.n + 1)
      omega
    · show s.n + 1 + left = _
      omega

/-- The inner loop counts the characters that agree. -/
theorem matchLoop_spec (hsize : slab.length < 2 ^ 32) {start : Nat} (hstart : start < pos)
    (hs : s.slide = start) (hb : s.b = start) (hf : s.f = pos) :
    ∃ t, Loop.forever .loopForever (matchPass slab slab.length pos) (pos + 1) { s with n := 0 }
        = .ok (matchLen slab pos start, t) ∧
      t.n = matchLen slab pos start ∧ t.sub = s.sub ∧ t.slide = start := by
  have hfew : matchLen slab pos start < pos + 1 := by
    by_contra hlt
    have hfar := (matchLen_agree (show pos < matchLen slab pos start by omega)).1
    omega
  have hbegin : Matching slab pos start s.sub (matchLen slab pos start) { s with n := 0 } :=
    ⟨rfl, hs, hb, hf, Nat.zero_add _⟩
  rcases Loop.forever_countdown .loopForever (matchPass slab slab.length pos)
    (fun _ => matchPass_break) (fun _ _ => matchPass_next hsize hstart) hfew hbegin with ⟨t, hloop, ht⟩
  exact ⟨t, hloop, ht.total, ht.sub, ht.slide⟩

end Start

/-! ### All starts -/

/-- The outer loop, with this many starts to go: the ones it has seen begin at `lo`. -/
structure Sliding (slab : List UInt8) (pos lo left : Nat) (s : PrevSearch) : Prop where
  back : s.b = s.slide
  front : s.f = pos
  lower : lo ≤ s.slide
  total : s.slide + left = pos
  best : FirstBest (matchLen slab pos) lo s.slide s.sub.pos s.sub.len

/-- One start more. -/
theorem slidePass_next {slab : List UInt8} {pos lo left : Nat} (hsize : slab.length < 2 ^ 32)
    (hpos : pos < 2 ^ 32) {s : PrevSearch} (h : Sliding slab pos lo (left + 1) s) :
    ∃ t, slidePass slab slab.length pos s = .ok (some t) ∧ Sliding slab pos lo left t := by
  have htotal := h.total
  have hlower := h.lower
  have hslide : s.slide < pos := by omega
  have hnext : u32 (s.slide + 1) = s.slide + 1 := u32_of_lt (by omega)
  rcases matchLoop_spec hsize hslide rfl h.back h.front with ⟨t, hloop, hn, hsub, ht⟩
  have hpass : slidePass slab slab.length pos s = .ok (some { t with
      sub := if t.n > t.sub.len then { len := t.n, pos := t.slide } else t.sub
      slide := s.slide + 1, b := s.slide + 1, f := pos }) := by
    rw [slidePass, if_pos (by rw [h.back]; exact hslide), hloop, ok_bind]
    simp only [ht, hnext, pure_eq_ok]
  refine ⟨_, hpass, rfl, rfl, Nat.le_succ_of_le hlower, ?_, ?_⟩
  · show s.slide + 1 + left = pos
    omega
  · show FirstBest _ lo (s.slide + 1) (if t.n > t.sub.len then _ else t.sub).pos
      (if t.n > t.sub.len then _ else t.sub).len
    rw [hn, hsub, ht]
    by_cases hbetter : matchLen slab pos s.slide > s.sub.len
    · rw [if_pos hbetter]
      exact h.best.replace hlower hbetter
    · rw [if_neg hbetter]
      exact h.best.keep (Nat.le_of_not_lt hbetter)

/-- There is no start at the position itself. -/
theorem slidePass_break {slab : List UInt8} {pos lo : Nat} {s : PrevSearch}
    (h : Sliding slab pos lo 0 s) : slidePass slab slab.length pos s = .ok none := by
  have hend : ¬ s.b < pos := by
    rw [h.back.trans h.total]
    exact Nat.lt_irrefl pos
  rw [slidePass, if_neg hend]
  rfl

/-- The outer loop finds the first start with the longest match. -/
theorem dachFindPrevSubstr_spec {slab : List UInt8} {pos : Nat} (hsize : slab.length < 2 ^ 32)
    (hpos : pos < 2 ^ 32) (dist : Nat) :
    ∃ sub, dachFindPrevSubstr slab slab.length pos dist = .ok (0, sub) ∧
      FirstBest (matchLen slab pos) (pos - dist) pos sub.pos sub.len := by
  have hb : (if dist > pos then 0 else pos - dist) = pos - dist := by
    split <;> omega
  have hbegin : Sliding slab pos (pos - dist) (pos - (pos - dist))
      { sub := { pos := 0, len := 0 }, b := pos - dist, f := pos, n := 0, slide := pos - dist } :=
    ⟨rfl, rfl, Nat.le_refl _, Nat.add_sub_cancel' (Nat.sub_le pos dist), FirstBest.empty _ _⟩
  have hfew : pos - (pos - dist) < pos + 1 := Nat.lt_succ_of_le (Nat.sub_le pos _)
  rcases Loop.forever_countdown .loopForever (slidePass slab slab.length pos)
    (fun _ => slidePass_break) (fun _ _ => slidePass_next hsize hpos) hfew hbegin with ⟨t, hloop, ht⟩
  refine ⟨t.sub, ?_, ?_⟩
  · simp only [dachFindPrevSubstr, hb, hloop, ok_bind, pure_eq_ok]
  · have hbest := ht.best
    rw [show t.slide = pos from ht.total] at hbest
    exact hbest

/-! ### The longest earlier occurrence -/

/-- The `n` bytes from `pos` on are also the ones from `s` on. The start lies before `pos`, at most
    `dist` away, and its bytes end there. -/
structure PrevOccurrence (slab : List UInt8) (pos dist s n : Nat) : Prop where
  near : pos - dist ≤ s
  before : s < pos
  apart : s + n ≤ pos
  inside : pos + n ≤ slab.length
  same : (slab.drop s).take n = (slab.drop pos).take n

/-- The lengths of the occurrences at one start are those up to its match length. -/
theorem prevOccurrence_iff {slab : List UInt8} {pos dist s n : Nat} (hn : 0 < n) :
    PrevOccurrence slab pos dist s n ↔ pos - dist ≤ s ∧ s < pos ∧ n ≤ matchLen slab pos s := by
  have hslice : s + n ≤ pos → ((slab.take pos).drop s).take n = (slab.drop s).take n := by
    intro hle
    rw [List.drop_take, List.take_take, Nat.min_eq_left (Nat.le_sub_of_add_le' hle)]
  rw [matchLen, le_commonLen_iff, List.length_drop, List.length_take, List.length_drop]
  constructor
  · intro h
    have hapart := h.apart
    have hinside := h.inside
    refine ⟨h.near, h.before, by omega, by omega, ?_⟩
    rw [hslice hapart]
    exact h.same
  · rintro ⟨hnear, hbefore, hback, hfront, hsame⟩
    have hapart : s + n ≤ pos := by omega
    rw [hslice hapart] at hsame
    exact ⟨hnear, hbefore, hapart, by omega, hsame⟩

/-- What the search is for: the greatest length of an occurrence, and the first start that has it. Both
    are 0 when nothing that starts at `pos` has occurred before. -/
structure LongestPrev (slab : List UInt8) (pos dist : Nat) (sub : Substr) : Prop where
  greatest : 0 < sub.len → IsGreatest {n | ∃ s, PrevOccurrence slab pos dist s n} sub.len
  leftmost : 0 < sub.len → IsLeast {s | PrevOccurrence slab pos dist s sub.len} sub.pos
  none_longer : sub.len = 0 → ∀ s n, PrevOccurrence slab pos dist s n → n = 0
  none_pos : sub.len = 0 → sub.pos = 0

/-- The first best match length is the longest earlier occurrence. -/
theorem LongestPrev.of_firstBest {slab : List UInt8} {pos dist : Nat} {sub : Substr}
    (h : FirstBest (matchLen slab pos) (pos - dist) pos sub.pos sub.len) :
    LongestPrev slab pos dist sub where
  greatest := by
    intro hlen
    have hbest := h.isGreatest (Nat.ne_of_gt hlen)
    constructor
    · rcases hbest.1 with ⟨s, hlo, hhi, hle⟩
      exact ⟨s, (prevOccurrence_iff hlen).mpr ⟨hlo, hhi, hle⟩⟩
    · rintro n ⟨s, hocc⟩
      rcases Nat.eq_zero_or_pos n with rfl | hn
      · exact Nat.zero_le _
      · exact hbest.2 ⟨s, (prevOccurrence_iff hn).mp hocc⟩
  leftmost := by
    intro hlen
    have hfirst := h.isLeast (Nat.ne_of_gt hlen)
    constructor
    · exact (prevOccurrence_iff hlen).mpr hfirst.1
    · intro s hocc
      exact hfirst.2 ((prevOccurrence_iff hlen).mp hocc)
  none_longer := by
    intro hlen s n hocc
    by_contra hn
    rcases (prevOccurrence_iff (Nat.pos_of_ne_zero hn)).mp hocc with ⟨hlo, hhi, hle⟩
    exact hn (Nat.le_zero.mp (hle.trans ((h.upper s hlo hhi).trans_eq hlen)))
  none_pos := h.absent

/-- `dach_find_prev_substr` returns for every slab, position and distance. It has found the longest
    earlier occurrence, and has read nothing outside the slab. -/
theorem dachFindPrevSubstr_longest (slab : List UInt8) (pos dist : Nat) (hsize : slab.length < 2 ^ 32)
    (hpos : pos < 2 ^ 32) :
    ∃ sub, dachFindPrevSubstr slab slab.length pos dist = .ok (0, sub) ∧
      LongestPrev slab pos dist sub := by
  rcases dachFindPrevSubstr_spec hsize hpos dist with ⟨sub, hrun, hbest⟩
  exact ⟨sub, hrun, .of_firstBest hbest⟩

/-- The second of three equal bytes: the one before it, cut at the position. -/
theorem dachFindPrevSubstr_longest_three :
    ∃ sub, dachFindPrevSubstr [65, 65, 65] 3 1 1 = .ok (0, sub) ∧ LongestPrev [65, 65, 65] 1 1 sub :=
  dachFindPrevSubstr_longest [65, 65, 65] 1 1 (by decide) (by decide)

example : dachFindPrevSubstr [97, 98, 99, 97, 98, 99, 97, 98] 8 3 8
    = .ok (0, { pos := 0, len := 3 }) := by
  decide

end Dach
