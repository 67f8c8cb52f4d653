/-
Module: Dach.Lib.IntervalDecoder
Layer: Lib
Purpose: What a code value means to a decoder that is told how many letters to expect. Every letter has a
  slice of the interval, and so has a mark that no text contains; the code value selects the slices one
  after the other. The last letter is given out as soon as it is selected, and where the mark is selected
  last a pad letter is given out in its place.
Imports: Dach.Lib.IntervalCoder
Trusted boundary: none
Main exports: IntervalCoder.DecodeEnd, IntervalCoder.Decoding, Decoding.Decodes, decodes_letters_iff,
  Codes.concat_inv, decodes_text_iff
-/
import Dach.Lib.IntervalCoder

namespace IntervalCoder

/-- The last letter of a coded text. -/
theorem Codes.concat_inv {σ α : Type} {q : Nat} {M : σ → α → Slice → σ → Prop} {s u : σ} {f h : Frame}
    {pre : List α} {a : α} (codes : Codes q M s f (pre ++ [a]) u h) :
    ∃ t g sl, Codes q M s f pre t g ∧ M t a sl u ∧ 2 * sl.scale ≤ q + 2 ∧ Encodes q g sl h := by
  induction pre generalizing s f with
  | nil =>
      cases codes with
      | cons letter fits head tail =>
          cases tail
          exact ⟨_, _, _, .nil _ _, letter, fits, head⟩
  | cons b pre ih =>
      cases codes with
      | cons letter fits head tail =>
          obtain ⟨t, g, sl, hpre, hlast⟩ := ih tail
          exact ⟨t, g, sl, .cons letter fits head hpre, hlast⟩

/-- How decoding ends: with all letters, at the mark, or where the code value is not known far enough. -/
inductive DecodeEnd (α : Type) where
  | letters (as : List α)
  | reserved
  | exhausted

/-- The end of a decoding whose first letter is `a`. -/
def DecodeEnd.cons {α : Type} (a : α) : DecodeEnd α → DecodeEnd α
  | .letters as => .letters (a :: as)
  | .reserved => .reserved
  | .exhausted => .exhausted

/-- The adaptive model of a decoder: the slices of the letters, the slice of the mark, and the pad. -/
structure Decoding (σ α : Type) where
  letter : σ → α → Slice → σ → Prop
  mark : σ → Slice → Prop
  pad : α

namespace Decoding

variable {σ α : Type} (D : Decoding σ α) (q : Nat) (d : CodeValue) (Known : Nat → Prop)

/-- The code value `d`, known to the shifts in `Known`, is decoded from the state and the frame into the
    given number of letters. -/
inductive Decodes : σ → Frame → Nat → DecodeEnd α → Prop where
  | last {s t : σ} {f : Frame} {a : α} {sl : Slice} (letter : D.letter s a sl t)
      (fits : 2 * sl.scale ≤ q + 2) (within : d.Within (f.narrow sl)) :
      Decodes s f 1 (.letters [a])
  | lastMark {s : σ} {f : Frame} {sl : Slice} (mark : D.mark s sl) (fits : 2 * sl.scale ≤ q + 2)
      (within : d.Within (f.narrow sl)) : Decodes s f 1 (.letters [D.pad])
  | mark {s : σ} {f : Frame} {n : Nat} {sl : Slice} (mark : D.mark s sl)
      (fits : 2 * sl.scale ≤ q + 2) (within : d.Within (f.narrow sl)) :
      Decodes s f (n + 2) .reserved
  | short {s t : σ} {f g : Frame} {n : Nat} {a : α} {sl : Slice} (letter : D.letter s a sl t)
      (fits : 2 * sl.scale ≤ q + 2) (within : d.Within (f.narrow sl)) (head : Encodes q f sl g)
      (unknown : ¬ Known g.shifts) : Decodes s f (n + 2) .exhausted
  | more {s t : σ} {f g : Frame} {n : Nat} {a : α} {sl : Slice} {e : DecodeEnd α}
      (letter : D.letter s a sl t) (fits : 2 * sl.scale ≤ q + 2) (within : d.Within (f.narrow sl))
      (head : Encodes q f sl g) (known : Known g.shifts) (tail : Decodes t g (n + 1) e) :
      Decodes s f (n + 2) (e.cons a)

variable {D q d Known}

/-- What the last letter of a text asks of the code value: its slice holds it, or the letter is the pad
    and the slice of the mark does. -/
def LastSelected (D : Decoding σ α) (q : Nat) (d : CodeValue) (s : σ) (f : Frame) (a : α) : Prop :=
  (∃ sl t, D.letter s a sl t ∧ 2 * sl.scale ≤ q + 2 ∧ d.Within (f.narrow sl)) ∨
    a = D.pad ∧ ∃ sl, D.mark s sl ∧ 2 * sl.scale ≤ q + 2 ∧ d.Within (f.narrow sl)

theorem Decodes.letters_exists {s : σ} {f : Frame} {n : Nat} {e : DecodeEnd α}
    (run : Decodes D q d Known s f n e) : ∀ {as : List α}, e = .letters as → Known f.shifts →
      ∃ pre a t g, as = pre ++ [a] ∧ n = pre.length + 1 ∧ Codes q D.letter s f pre t g ∧
        Known g.shifts ∧ LastSelected D q d t g a := by
  induction run with
  | @last s t f a sl letter fits within =>
      intro as has known
      cases has
      exact ⟨[], a, s, f, rfl, rfl, .nil s f, known, Or.inl ⟨sl, t, letter, fits, within⟩⟩
  | @lastMark s f sl mark fits within =>
      intro as has known
      cases has
      exact ⟨[], D.pad, s, f, rfl, rfl, .nil s f, known, Or.inr ⟨rfl, sl, mark, fits, within⟩⟩
  | mark => intro as has; cases has
  | short => intro as has; cases has
  | @more s t f g n a sl e letter fits within head known tail ih =>
      intro as has _
      cases e with
      | letters later =>
          cases has
          obtain ⟨pre, b, u, h, rfl, hn, hcodes, hknown, hlast⟩ := ih rfl known
          exact ⟨a :: pre, b, u, h, rfl, congrArg Nat.succ hn, .cons letter fits head hcodes,
            hknown, hlast⟩
      | reserved => cases has
      | exhausted => cases has

theorem LastSelected.within {s : σ} {f : Frame} {a : α} (h : LastSelected D q d s f a)
    (hf : f.Normal q) : d.Within f := by
  rcases h with ⟨sl, _, _, _, hwithin⟩ | ⟨_, sl, _, _, hwithin⟩
  · exact within_of_narrow hf.valid.1 hwithin
  · exact within_of_narrow hf.valid.1 hwithin

theorem LastSelected.decodes {s : σ} {f : Frame} {a : α} (h : LastSelected D q d s f a) :
    Decodes D q d Known s f 1 (.letters [a]) := by
  rcases h with ⟨sl, t, letter, fits, hwithin⟩ | ⟨rfl, sl, mark, fits, hwithin⟩
  · exact .last letter fits hwithin
  · exact .lastMark mark fits hwithin

theorem decodes_of_codes {s t : σ} {f g : Frame} {pre : List α} {a : α} {m : Nat}
    (hq : 4 * q ≤ 2 ^ (m + 1)) (hknown : ∀ {k l}, k ≤ l → Known l → Known k)
    (codes : Codes q D.letter s f pre t g) (hlast : LastSelected D q d t g a) :
    f.Normal q → Known g.shifts → Decodes D q d Known s f (pre.length + 1) (.letters (pre ++ [a])) := by
  induction codes with
  | nil s f =>
      intro _ _
      exact hlast.decodes
  | @cons s mid t f f' g b pre sl letter fits head tail ih =>
      intro hf known
      have hnormal := head.normal hf fits
      have hshifts := (tail.shifts_le hnormal hq).1
      have hwithin := tail.within hnormal (hlast.within (tail.normal hnormal))
      exact .more letter fits ((head.within_iff hf fits).mp hwithin) head (hknown hshifts known)
        (ih hlast hnormal known)

/-- A text is decoded exactly when the frame of all its letters but the last is known, and the code value
    selects the last one there. -/
theorem decodes_letters_iff {s : σ} {f : Frame} {n m : Nat} {w : List α} (hf : f.Normal q)
    (hq : 4 * q ≤ 2 ^ (m + 1)) (hknown : ∀ {k l}, k ≤ l → Known l → Known k) (known : Known f.shifts) :
    Decodes D q d Known s f n (.letters w) ↔
      ∃ pre a t g, w = pre ++ [a] ∧ n = pre.length + 1 ∧ Codes q D.letter s f pre t g ∧
        Known g.shifts ∧ LastSelected D q d t g a := by
  constructor
  · intro run
    exact run.letters_exists rfl known
  · rintro ⟨pre, a, t, g, rfl, rfl, hcodes, hlate, hlast⟩
    exact decodes_of_codes hq hknown hcodes hlast hf hlate

/-- A code value at or above the last frame of a text is decoded to the text exactly when it lies in that
    frame, provided the mark has the lowest slice. -/
theorem decodes_text_iff {s u : σ} {f h : Frame} {m : Nat} {pre : List α} {a : α} (hf : f.Normal q)
    (hq : 4 * q ≤ 2 ^ (m + 1)) (hknown : ∀ {k l}, k ≤ l → Known l → Known k)
    (hletter : ∀ {s a sl t sl' t'}, D.letter s a sl t → D.letter s a sl' t' → sl = sl' ∧ t = t')
    (hmark : ∀ {t g}, Codes q D.letter s f pre t g → ∀ {sl ml}, D.letter t a sl u → D.mark t ml →
      ml.hi ≤ sl.lo ∧ ml.scale = sl.scale)
    (codes : Codes q D.letter s f (pre ++ [a]) u h) (known : Known h.shifts) (habove : d.Above h) :
    Decodes D q d Known s f (pre.length + 1) (.letters (pre ++ [a])) ↔ d.Within h := by
  obtain ⟨t, g, sl, hpre, letter, fits, head⟩ := codes.concat_inv
  have hnormal := hpre.normal hf
  have hshifts := (hpre.shifts_le hf hq).1
  have hlast := (head.shifts_le hnormal fits hq).1
  rw [decodes_letters_iff hf hq hknown (hknown (hshifts.trans hlast) known), head.within_iff hnormal fits]
  constructor
  · rintro ⟨pre', a', t', g', heq, -, hpre', -, hselected⟩
    obtain ⟨rfl, hsingle⟩ := List.append_inj' heq rfl
    cases hsingle
    obtain ⟨rfl, rfl⟩ := Codes.deterministic (M := D.letter) hletter hpre' hpre
    rcases hselected with ⟨sl', _, letter', _, hwithin⟩ | ⟨_, ml, mark, fits', hwithin⟩
    · obtain ⟨rfl, _⟩ := hletter letter' letter
      exact hwithin
    · -- the mark ends where the letter begins, at the latest
      obtain ⟨hle, hscale⟩ := hmark hpre letter mark
      have hge := hnormal.range_ge
      have hwidth := Frame.narrow_width (f := g') (s := ml) (by omega)
      have hbottom := Nat.zero_le (g'.range * ml.lo / ml.scale)
      have hbelow : g'.range * ml.hi / ml.scale ≤ g'.range * sl.lo / sl.scale := by
        rw [hscale]
        exact Nat.div_le_div_right (Nat.mul_le_mul_left _ hle)
      have hlow := (head.above_iff hnormal fits).mp habove
      have hhigh := hwithin.2
      simp only [CodeValue.Above, Frame.lower, Frame.upper, Frame.narrow] at hlow hhigh
      omega
  · intro hwithin
    exact ⟨pre, a, t, g, rfl, rfl, hpre, hknown hlast known, Or.inl ⟨sl, u, letter, fits, hwithin⟩⟩

end Decoding

end IntervalCoder
