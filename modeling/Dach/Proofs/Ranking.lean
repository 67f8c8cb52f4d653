/-
Module: Dach.Proofs.Ranking
Layer: Proofs
Purpose: The tables of the adaptive model as a function of the bytes fed to it, and with that the encoded
  file as the arithmetic code of an abstract model that knows no tables.
Imports: Dach.Lib.Ranking, Dach.Proofs.Profile, Dach.Proofs.Lockstep
Trusted boundary: none
Main exports: chars, Ppm0.RankedBy, RankedBy.update, updateBytes_ranking, CharSlice, Codes.rankedBy,
  encode_refines
-/
import Dach.Lib.Ranking
import Dach.Proofs.Profile
import Dach.Proofs.Lockstep

namespace Dach

open IntervalCoder Ranking

/-- The characters of the model: the bytes and the reserved one. -/
def chars : Finset Nat := Finset.range (dachSymCount - 1)

theorem mem_chars {c : Nat} : c ∈ chars ↔ c ≤ 256 :=
  Finset.mem_range.trans Nat.lt_succ_iff

theorem toNat_mem_chars (c : UInt8) : c.toNat ∈ chars :=
  mem_chars.mpr (by have := c.toNat_lt; omega)

/-! ### The tables and the history -/

/-- The tables stand where the characters seen put them. -/
structure Ppm0.RankedBy (ppm : Ppm0) (history : List Nat) : Prop where
  wf : ppm.WF
  reserved : ppm.Reserved
  freq : ∀ c ≤ 256, ppm.freq c = history.count c + 1
  ranks : Ranks chars history 257 ppm.symToChr

theorem Ppm0.WF.onto {ppm : Ppm0} (wf : ppm.WF) :
    ∀ c ∈ chars, ∃ s, 1 ≤ s ∧ s ≤ 257 ∧ ppm.symToChr s = c := by
  intro c hc
  have hrange := wf.sym_range c (mem_chars.mp hc)
  exact ⟨ppm.chrToSym c, hrange.1, hrange.2, wf.chr_sym c (mem_chars.mp hc)⟩

theorem FreshTables.rankedBy {ppm : Ppm0} (fresh : FreshTables ppm) : ppm.RankedBy [] where
  wf := fresh.wf
  reserved := fresh.reserved
  freq := fresh.freq
  ranks := by
    refine Ranks.nil ?_ fresh.wf.onto ?_
    · intro s hs hs'
      exact mem_chars.mpr (fresh.wf.chr_le s hs hs')
    · intro s t hs hst ht
      rw [fresh.chr s hs (by omega), fresh.chr t (by omega) ht]
      omega

namespace Ppm0.RankedBy

variable {ppm : Ppm0} {history : List Nat}

theorem getFreq (h : ppm.RankedBy history) {s : Nat} (hs : 1 ≤ s) (hs' : s ≤ 257) :
    dachGetFreq ppm s = history.count (ppm.symToChr s) + 1 :=
  h.freq _ (h.wf.chr_le s hs hs')

/-- An update leads to the tables of the longer history. -/
theorem update (h : ppm.RankedBy history) {sym : Nat} (hsym : 1 ≤ sym) (hsym' : sym ≤ 256)
    (hscale : ppm.scale ≤ 2 ^ 32 + 254) :
    ∃ ppm', dachPpm0Update ppm sym = .ok (ppm'.scale, ppm') ∧
      ppm'.RankedBy (history ++ [ppm.symToChr sym]) := by
  obtain ⟨ppm', p, hupdate, hpro, hcount⟩ := h.wf.update_counted hsym (by omega) hscale
  have hpos := hpro.pos
  have hle := hpro.le
  refine ⟨ppm', hupdate, hpro.wf h.wf (by omega), hpro.reserved hsym' h.reserved, ?_, ?_⟩
  · intro c hc
    rw [hcount.freq, List.count_append, List.count_singleton]
    by_cases heq : c = ppm.symToChr sym
    · subst heq
      rw [Function.update_self, h.getFreq hsym (by omega)]
      simp
    · rw [Function.update_of_ne heq, h.freq c hc]
      simp [Ne.symm heq]
  · -- the letter goes to the first place of its frequency class
    refine h.ranks.step hpos hle (by omega) hpro.here hpro.passed hpro.rest ?_ ?_
    · have htie := hcount.tie p (Nat.le_refl p) hle
      rw [h.getFreq hpos (by omega), h.getFreq hsym (by omega)] at htie
      omega
    · rcases hpro.head with hone | hlt
      · exact Or.inl hone
      · by_cases hp : p = 1
        · exact Or.inl hp
        · right
          have htie := hcount.tie p (Nat.le_refl p) hle
          rw [htie, h.getFreq hsym (by omega), h.getFreq (by omega) (by omega)] at hlt
          omega

theorem chrToSym_eq (h : ppm.RankedBy history) {c : Nat} (hc : c ≤ 256) :
    ppm.chrToSym c = position chars history c := by
  have hrange := h.wf.sym_range c hc
  have hposition := h.ranks.position_eq hrange.1 hrange.2
  rw [h.wf.chr_sym c hc] at hposition
  exact hposition.symm

theorem position_range (h : ppm.RankedBy history) {c : Nat} (hc : c ≤ 256) :
    1 ≤ position chars history c ∧ position chars history c ≤ 257 := by
  rw [← h.chrToSym_eq hc]
  exact h.wf.sym_range c hc

/-- The cumulative count behind a place. -/
theorem cumAt_succ (h : ppm.RankedBy history) {c : Nat} (hc : c ≤ 256) :
    ppm.cumAt (position chars history c + 1) = behind chars history c := by
  have hrange := h.position_range hc
  have hchr : ppm.symToChr (position chars history c) = c := by
    rw [← h.chrToSym_eq hc, h.wf.chr_sym c hc]
  have hbehind := h.ranks.behind_eq hrange.1 hrange.2
  rw [hchr] at hbehind
  rw [hbehind, h.wf.cum_eq_sum (by omega) (by omega)]
  apply Finset.sum_congr rfl
  intro t ht
  rw [Finset.mem_Ico] at ht
  exact h.getFreq (by omega) (by omega)

theorem cumAt (h : ppm.RankedBy history) {c : Nat} (hc : c ≤ 256) :
    ppm.cumAt (position chars history c) = behind chars history c + (history.count c + 1) := by
  have hrange := h.position_range hc
  have hchr : ppm.symToChr (position chars history c) = c := by
    rw [← h.chrToSym_eq hc, h.wf.chr_sym c hc]
  rw [h.wf.cum_step _ hrange.1 hrange.2, h.cumAt_succ hc, h.getFreq hrange.1 hrange.2, hchr, Nat.add_comm]

theorem scale (h : ppm.RankedBy history) : ppm.scale = total chars history := by
  rw [h.wf.scale_eq, h.wf.cum_eq_sum (Nat.le_refl 1) (by omega), h.ranks.total_eq]
  apply Finset.sum_congr rfl
  intro t ht
  rw [Finset.mem_Ico] at ht
  exact h.getFreq (by omega) (by omega)

end Ppm0.RankedBy

/-- A run of bytes leads to the tables of their history. -/
theorem updateBytes_rankedBy (data : List UInt8) : ∀ {ppm : Ppm0} {history : List Nat},
    ppm.RankedBy history → ppm.scale + data.length ≤ 2 ^ 32 + 255 →
      ∃ ppm', updateBytes ppm data = .ok ppm' ∧
        ppm'.RankedBy (history ++ data.map UInt8.toNat) ∧ ppm'.scale = ppm.scale + data.length := by
  induction data with
  | nil =>
      intro ppm history h _
      refine ⟨ppm, rfl, ?_, rfl⟩
      rw [List.map_nil, List.append_nil]
      exact h
  | cons c data ih =>
      intro ppm history h hlen
      rw [List.length_cons] at hlen
      have hc : c.toNat ≤ 255 := Nat.le_of_lt_succ c.toNat_lt
      obtain ⟨hsym, hsym'⟩ := h.wf.sym_of_byte h.reserved hc
      obtain ⟨mid, hupdate, hmid⟩ := h.update hsym hsym' (by omega)
      obtain ⟨_, hupdate', hfed⟩ := feed_byte h.wf h.reserved (by omega) c
      obtain rfl := (Prod.ext_iff.mp (ok_unique hupdate hupdate')).2
      have hscale : mid.scale = ppm.scale + 1 := hfed.scale
      rw [h.wf.chr_sym _ (by omega)] at hmid
      obtain ⟨ppm', hrun, hlast, hlater⟩ := ih hmid (by omega)
      refine ⟨ppm', ?_, ?_, ?_⟩
      · rw [updateBytes, dachChrToSym_eq hc, ok_bind, hupdate, ok_bind]
        exact hrun
      · rw [List.map_cons, List.append_cons]
        exact hlast
      · rw [hlater, hscale, List.length_cons]
        omega

/-- The ranking a model holds after any bytes: every character stands at its position in the order of
    the bytes fed (more frequent first, then the one whose last occurrence is longer ago, then the
    smaller one), and its cumulative count is its own and those of all behind it. -/
theorem updateBytes_ranking (data : List UInt8) (hlen : data.length ≤ 2 ^ 32 - 2) :
    ∃ new ppm, dachPpm0New = .ok new ∧ updateBytes new data = .ok ppm ∧
      (∀ c ≤ 255, dachChrToSym ppm c = .ok (position chars (data.map UInt8.toNat) c)) ∧
      (∀ c ≤ 256, dachSymToChr ppm (position chars (data.map UInt8.toNat) c) = .ok c) ∧
      (∀ c ≤ 256, dachPpm0Cumfreq ppm (position chars (data.map UInt8.toNat) c)
        = .ok (behind chars (data.map UInt8.toNat) c + ((data.map UInt8.toNat).count c + 1))) ∧
      ppm.scale = total chars (data.map UInt8.toNat) := by
  obtain ⟨new, hnew, fresh⟩ := dachPpm0New_fresh
  obtain ⟨ppm, hrun, h, _⟩ := updateBytes_rankedBy data fresh.rankedBy
    (by rw [fresh.scale_eq]; omega)
  rw [List.nil_append] at h
  refine ⟨new, ppm, hnew, hrun, ?_, ?_, ?_, h.scale⟩
  · intro c hc
    rw [dachChrToSym_eq hc, h.chrToSym_eq (by omega)]
  · intro c hc
    have hrange := h.position_range hc
    rw [dachSymToChr_eq (by omega), ← h.chrToSym_eq hc, h.wf.chr_sym c hc]
  · intro c hc
    have hrange := h.position_range hc
    rw [dachPpm0Cumfreq_eq (by omega), h.cumAt hc]

/-- After "aba": `a`, seen twice, is first, `b` second, and every other byte keeps its order. -/
theorem updateBytes_ranking_aba : ∃ new ppm, dachPpm0New = .ok new ∧
    updateBytes new [97, 98, 97] = .ok ppm ∧
    dachSymToChr ppm (position chars [97, 98, 97] 98) = .ok 98 := by
  obtain ⟨new, ppm, hnew, hrun, _, hchr, _⟩ := updateBytes_ranking [97, 98, 97] (by decide)
  exact ⟨new, ppm, hnew, hrun, hchr 98 (by decide)⟩

/-! ### The code of the abstract model -/

/-- The model whose state is the list of the characters coded so far. -/
def CharSlice : List Nat → UInt8 → Slice → List Nat → Prop :=
  HistorySlice chars UInt8.toNat

theorem CharSlice.functional {history h₁ h₂ : List Nat} {c : UInt8} {s s' : Slice}
    (one : CharSlice history c s h₁) (two : CharSlice history c s' h₂) : s = s' ∧ h₁ = h₂ :=
  HistorySlice.functional one two

/-- Coding a byte with the tables is coding it with the history. -/
theorem ByteSlice.charSlice {mod mod' : Ppm0} {history : List Nat} {c : UInt8} {s : Slice}
    (h : ByteSlice mod c s mod') (ranked : mod.RankedBy history) (hfits : 2 * s.scale ≤ 2 ^ 30 + 2) :
    CharSlice history c s (history ++ [c.toNat]) ∧ mod'.RankedBy (history ++ [c.toNat]) := by
  have hc : c.toNat ≤ 255 := Nat.le_of_lt_succ c.toNat_lt
  obtain ⟨hsym, hsym'⟩ := ranked.wf.sym_of_byte ranked.reserved hc
  have hscale := h.scale
  refine ⟨⟨⟨toNat_mem_chars c, ?_⟩, rfl⟩, ?_⟩
  · refine Slice.ext ?_ ?_ ?_
    · rw [h.lo, ranked.chrToSym_eq (by omega), ranked.cumAt_succ (by omega)]
      rfl
    · rw [h.hi, ranked.chrToSym_eq (by omega), ranked.cumAt (by omega)]
      rfl
    · rw [hscale, ranked.scale]
      rfl
  · obtain ⟨next, hupdate, hnext⟩ := ranked.update hsym hsym' (by omega)
    obtain rfl := (Prod.ext_iff.mp (ok_unique h.update hupdate)).2
    rw [ranked.wf.chr_sym _ (by omega)] at hnext
    exact hnext

/-- The intervals of the tables are those of the history. -/
theorem Codes.rankedBy {mod mod' : Ppm0} {f g : Frame} {data : List UInt8}
    (run : Codes (2 ^ 30) ByteSlice mod f data mod' g) : ∀ {history : List Nat},
    mod.RankedBy history →
      Codes (2 ^ 30) CharSlice history f data (history ++ data.map UInt8.toNat) g ∧
        mod'.RankedBy (history ++ data.map UInt8.toNat) := by
  induction run with
  | nil s f =>
      intro history ranked
      rw [List.map_nil, List.append_nil]
      exact ⟨.nil _ _, ranked⟩
  | @cons s mid t f f₁ g c data sl letter fits head tail ih =>
      intro history ranked
      obtain ⟨hslice, hmid⟩ := letter.charSlice ranked fits
      obtain ⟨hcodes, hlast⟩ := ih hmid
      rw [List.map_cons, List.append_cons]
      exact ⟨.cons hslice fits head hcodes, hlast⟩

/-- The file `encode` writes, from its bytes alone: the length, and the words that end the code of the
    bytes under the abstract model. No other words do. -/
theorem encode_refines (host : Host) (data : List UInt8) (hpos : 1 ≤ data.length)
    (hlen : data.length ≤ 2 ^ 27) (content : List UInt8) :
    encode host data = .ok content ↔ ∃ g words,
      Codes (2 ^ 30) CharSlice [] (Frame.start (2 ^ 30)) data (data.map UInt8.toNat) g ∧
        Stopped g words ∧ content = u32Bytes host.order data.length ++ wordBytes host words := by
  obtain ⟨mod, mod', g, words, hnew, hcodes, hstopped, _, hencode⟩ := encode_exact host data hpos hlen
  obtain ⟨mod₀, hnew₀, fresh⟩ := dachPpm0New_fresh
  obtain rfl := ok_unique hnew hnew₀
  obtain ⟨hchars, _⟩ := Codes.rankedBy hcodes fresh.rankedBy
  constructor
  · intro hrun
    exact ⟨g, words, hchars, hstopped, ok_unique hrun hencode⟩
  · rintro ⟨g', words', hchars', hstopped', rfl⟩
    obtain rfl := (Codes.deterministic (M := CharSlice) CharSlice.functional hchars hchars').2
    rw [hencode, hstopped.unique hstopped']

/-- The file of four bytes of three values. -/
theorem encode_refines_four : ∃ g words,
    Codes (2 ^ 30) CharSlice [] (Frame.start (2 ^ 30)) [1, 0, 2, 1] [1, 0, 2, 1] g ∧ Stopped g words ∧
      [4, 0, 0, 0, 8, 1, 255, 254, 0, 0, 0, 0] = u32Bytes .little 4 ++ wordBytes littleHost words := by
  have hencode : encode littleHost [1, 0, 2, 1] = .ok [4, 0, 0, 0, 8, 1, 255, 254, 0, 0, 0, 0] := by
    decide +kernel
  exact (encode_refines littleHost [1, 0, 2, 1] (by decide) (by decide) _).mp hencode

end Dach
