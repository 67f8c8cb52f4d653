/-
Module: Dach.Proofs.Profile
Layer: Proofs
Purpose: What an update does to every character and position, and what a run of updates leaves of the
  order of its bytes. The frequency of a character counts its occurrences, so a sorted table reads the
  same by position for every order of the same bytes.
Imports: Dach.Proofs.Ppm0
Trusted boundary: none
Main exports: MovedToHead, dachPpm0Update_movesToHead, updateBytes, updateBytes_spec,
  updateBytes_profile
-/
import Dach.Proofs.Ppm0

namespace Dach

/-! ### One update -/

/-- An update of `sym` from `old` to `ppm` in terms of characters, where `p` is the head of the
    frequency class of `sym`. -/
structure MovedToHead (old : Ppm0) (sym p : Nat) (ppm : Ppm0) : Prop where
  moved : ppm.symToChr p = old.symToChr sym ∧
    ppm.freq (old.symToChr sym) = dachGetFreq old sym + 1
  lowered : ∀ s, p ≤ s → s < sym → ppm.symToChr (s + 1) = old.symToChr s ∧
    ppm.freq (old.symToChr s) = dachGetFreq old s
  kept : ∀ s, 1 ≤ s → s ≤ 257 → s < p ∨ sym < s → ppm.symToChr s = old.symToChr s ∧
    ppm.freq (old.symToChr s) = dachGetFreq old s
  counted : ∀ s, 1 ≤ s → s ≤ p → ∃ cf, dachPpm0Cumfreq old s = .ok cf ∧
    dachPpm0Cumfreq ppm s = .ok (cf + 1)
  uncounted : ∀ s, p < s → s ≤ 258 → dachPpm0Cumfreq ppm s = dachPpm0Cumfreq old s

section Update

variable {old ppm : Ppm0} {sym p : Nat}

/-- The head of the class is its least position, since frequencies never increase with the position. -/
theorem Counted.isLeast (c : Counted old sym p ppm) (h : Promoted old sym p ppm) (wf : old.WF)
    (hsym : sym ≤ 257) :
    IsLeast {s | s ∈ Set.Icc 1 257 ∧ dachGetFreq old s = dachGetFreq old sym} p := by
  have hpos := h.pos
  have hle := h.le
  have htie := c.tie p (Nat.le_refl p) hle
  refine ⟨⟨⟨hpos, by omega⟩, htie⟩, ?_⟩
  rintro s ⟨⟨hs, hs'⟩, hfreq⟩
  by_contra hlt
  -- the position above the head is more frequent, and so is every one before it
  have habove : dachGetFreq old p < dachGetFreq old (p - 1) := h.head.resolve_left (by omega)
  have hge : dachGetFreq old (p - 1) ≤ dachGetFreq old s :=
    wf.freq_anti ⟨hs, hs'⟩ ⟨by omega, by omega⟩ (by omega)
  omega

theorem Counted.movedToHead (c : Counted old sym p ppm) (h : Promoted old sym p ppm) (wf : old.WF)
    (hsym : 1 ≤ sym) (hsym' : sym ≤ 257) : MovedToHead old sym p ppm := by
  have hpos := h.pos
  have hle := h.le
  have hother : ∀ s, 1 ≤ s → s ≤ 257 → s ≠ sym →
      ppm.freq (old.symToChr s) = dachGetFreq old s := by
    intro s hs hs' hne
    rw [c.freq, Function.update_of_ne]
    · rfl
    · intro heq
      exact hne (wf.symToChr_inj hs hs' hsym hsym' heq)
  refine ⟨⟨h.here, ?_⟩, ?_, ?_, ?_, ?_⟩
  · rw [c.freq, Function.update_self]
  · intro s hs hs'
    refine ⟨?_, hother s (by omega) (by omega) (by omega)⟩
    rw [h.passed (s + 1) (by omega) (by omega), Nat.add_sub_cancel]
  · intro s hs hs' hside
    exact ⟨h.rest s hside, hother s hs hs' (by omega)⟩
  · intro s hs hs'
    refine ⟨old.cumAt s, dachPpm0Cumfreq_eq (by omega), ?_⟩
    rw [dachPpm0Cumfreq_eq (by omega), h.cum s hs (by omega), if_pos hs']
  · intro s hs hs'
    rw [dachPpm0Cumfreq_eq hs', dachPpm0Cumfreq_eq hs']
    rcases Nat.eq_or_lt_of_le hs' with rfl | hlt
    · rw [Ppm0.cumAt_symCount, Ppm0.cumAt_symCount]
    · rw [h.cum s (by omega) (by omega), if_neg (by omega), Nat.add_zero]

end Update

/-- An update moves its symbol to the head of its frequency class and touches nothing else, in every
    state the counters can hold. -/
theorem dachPpm0Update_movesToHead (syms : List Nat) (hlen : syms.length ≤ 2 ^ 32 - 3)
    (hsyms : ∀ s ∈ syms, 1 ≤ s ∧ s ≤ 257) (sym : Nat) (hsym : 1 ≤ sym) (hsym' : sym ≤ 257) :
    ∃ new old p ppm, dachPpm0New = .ok new ∧ updateSyms new syms = .ok old ∧
      IsLeast {s | s ∈ Set.Icc 1 257 ∧ dachGetFreq old s = dachGetFreq old sym} p ∧
      dachPpm0Update old sym = .ok (ppm.scale, ppm) ∧ MovedToHead old sym p ppm := by
  obtain ⟨new, hnew, fresh⟩ := dachPpm0New_fresh
  obtain ⟨old, hrun, wf, hscale, _⟩ := updateSyms_spec fresh.wf
    (by rw [fresh.scale_eq]; omega) hsyms
  rw [fresh.scale_eq] at hscale
  obtain ⟨ppm, p, hupdate, h, c⟩ := wf.update_counted hsym hsym' (by omega)
  exact ⟨new, old, p, ppm, hnew, hrun, c.isLeast h wf hsym', hupdate, c.movedToHead h wf hsym hsym'⟩

/-- After three updates, the symbols that were never counted begin at the third position. -/
theorem dachPpm0Update_movesToHead_third : ∃ new old ppm, dachPpm0New = .ok new ∧
    updateSyms new [3, 1, 3] = .ok old ∧
    IsLeast {s | s ∈ Set.Icc 1 257 ∧ dachGetFreq old s = dachGetFreq old 5} 3 ∧
    dachPpm0Update old 5 = .ok (ppm.scale, ppm) ∧ MovedToHead old 5 3 ppm := by
  obtain ⟨new, old, p, ppm, hnew, hold, hleast, hupdate, hmoved⟩ :=
    dachPpm0Update_movesToHead [3, 1, 3] (by decide) (by decide) 5 (by decide) (by decide)
  have hfreq : (dachPpm0New >>= fun new => updateSyms new [3, 1, 3]).map
      (fun old => (dachGetFreq old 1, dachGetFreq old 2, dachGetFreq old 3, dachGetFreq old 5))
        = .ok (3, 2, 1, 1) := by
    decide +kernel
  rw [hnew, ok_bind, hold] at hfreq
  obtain ⟨hone, hrest⟩ := Prod.ext_iff.mp (Except.ok.inj hfreq)
  obtain ⟨htwo, hrest⟩ := Prod.ext_iff.mp hrest
  obtain ⟨hthree, hsym⟩ := Prod.ext_iff.mp hrest
  -- the first two positions belong to other classes
  have hle : p ≤ 3 := hleast.2 ⟨⟨by decide, by decide⟩, hthree.trans hsym.symm⟩
  obtain ⟨⟨hpos, _⟩, hp⟩ := hleast.1
  obtain rfl : p = 3 := by
    by_contra hne
    obtain rfl | rfl : p = 1 ∨ p = 2 := by omega
    · exact absurd (hone.symm.trans (hp.trans hsym)) (by decide)
    · exact absurd (htwo.symm.trans (hp.trans hsym)) (by decide)
  exact ⟨new, old, ppm, hnew, hold, hleast, hupdate, hmoved⟩

/-! ### Runs of bytes -/

/-- Feed bytes to the model: `update(chr_to_sym(byte))`, one after the other. -/
def updateBytes (ppm : Ppm0) : List UInt8 → Except Abort Ppm0
  | [] => .ok ppm
  | c :: data => do
      let sym ← dachChrToSym ppm c.toNat
      let (_, ppm) ← dachPpm0Update ppm sym
      updateBytes ppm data

/-- What feeding bytes leads to: every character has been counted as often as it occurs. -/
structure Fed (ppm : Ppm0) (data : List UInt8) (ppm' : Ppm0) : Prop where
  wf : ppm'.WF
  reserved : ppm'.Reserved
  scale : ppm'.scale = ppm.scale + data.length
  freq : ∀ c, ppm'.freq c = ppm.freq c + (data.map UInt8.toNat).count c

/-- Feeding one byte counts its character. -/
theorem feed_byte {ppm : Ppm0} (wf : ppm.WF) (hres : ppm.Reserved) (hscale : ppm.scale ≤ 2 ^ 32 + 254)
    (c : UInt8) : ∃ ppm', dachPpm0Update ppm (ppm.chrToSym c.toNat) = .ok (ppm'.scale, ppm') ∧
      Fed ppm [c] ppm' := by
  have hc : c.toNat ≤ 255 := Nat.le_of_lt_succ c.toNat_lt
  obtain ⟨hsym, hsym'⟩ := wf.sym_of_byte hres hc
  have hchr := wf.chr_sym c.toNat (by omega)
  obtain ⟨ppm', p, hupdate, h, hcount⟩ := wf.update_counted hsym (by omega) hscale
  refine ⟨ppm', hupdate, h.wf wf (by omega), h.reserved hsym' hres, h.scale, fun d => ?_⟩
  rw [hcount.freq, hchr, dachGetFreq, hchr, List.map_singleton]
  by_cases hd : d = c.toNat
  · subst hd
    rw [Function.update_self, List.count_singleton_self]
  · rw [Function.update_of_ne hd, List.count_eq_zero_of_not_mem (by simpa using hd), Nat.add_zero]

/-- Feeding bytes returns while the counters can hold the result. -/
theorem updateBytes_spec (data : List UInt8) : ∀ {ppm : Ppm0}, ppm.WF → ppm.Reserved →
    ppm.scale + data.length ≤ 2 ^ 32 + 255 →
      ∃ ppm', updateBytes ppm data = .ok ppm' ∧ Fed ppm data ppm' := by
  induction data with
  | nil =>
      intro ppm wf hres _
      exact ⟨ppm, rfl, wf, hres, rfl, fun _ => rfl⟩
  | cons c data ih =>
      intro ppm wf hres hlen
      rw [List.length_cons] at hlen
      obtain ⟨mid, hupdate, hfed⟩ := feed_byte wf hres (by omega) c
      have hscale : mid.scale = ppm.scale + 1 := hfed.scale
      obtain ⟨ppm', hrun, hlater⟩ := ih hfed.wf hfed.reserved (by omega)
      refine ⟨ppm', ?_, hlater.wf, hlater.reserved, ?_, fun d => ?_⟩
      · rw [updateBytes, dachChrToSym_eq (Nat.le_of_lt_succ c.toNat_lt), ok_bind, hupdate, ok_bind]
        exact hrun
      · rw [hlater.scale, hscale, List.length_cons]
        omega
      · rw [hlater.freq, hfed.freq, Nat.add_assoc, ← List.count_append, ← List.map_append]
        rfl

/-! ### The profile -/

/-- The frequencies by position are those of the characters 0..256, in another order. -/
theorem Ppm0.WF.freq_perm {ppm : Ppm0} (wf : ppm.WF) :
    ((List.range' 1 257).map (dachGetFreq ppm)).Perm ((List.range 257).map ppm.freq) := by
  have hchrs : ((List.range' 1 257).map ppm.symToChr).Perm (List.range 257) := by
    refine (List.perm_ext_iff_of_nodup ?_ List.nodup_range).mpr fun c => ?_
    · refine List.Nodup.map_on ?_ List.nodup_range'
      intro s hs t ht heq
      rw [List.mem_range'_1] at hs ht
      exact wf.symToChr_inj hs.1 (by omega) ht.1 (by omega) heq
    · rw [List.mem_map, List.mem_range]
      constructor
      · rintro ⟨s, hs, rfl⟩
        rw [List.mem_range'_1] at hs
        exact Nat.lt_succ_of_le (wf.chr_le s hs.1 (by omega))
      · intro hc
        have hrange := wf.sym_range c (by omega)
        refine ⟨ppm.chrToSym c, ?_, wf.chr_sym c (by omega)⟩
        rw [List.mem_range'_1]
        omega
  have hmap := hchrs.map ppm.freq
  rw [List.map_map] at hmap
  exact hmap

theorem Ppm0.WF.freq_pairwise {ppm : Ppm0} (wf : ppm.WF) :
    ((List.range' 1 257).map (dachGetFreq ppm)).Pairwise (· ≥ ·) := by
  rw [List.pairwise_map]
  refine (List.pairwise_lt_range' (s := 1) (n := 257)).imp_of_mem ?_
  intro s t hs ht hlt
  rw [List.mem_range'_1] at hs ht
  exact wf.freq_anti ⟨hs.1, by omega⟩ ⟨ht.1, by omega⟩ (Nat.le_of_lt hlt)

/-- Tables with the same frequency for every character have the same frequency and the same cumulative
    count at every position. -/
theorem Ppm0.WF.profile_eq {ppm ppm' : Ppm0} (wf : ppm.WF) (wf' : ppm'.WF)
    (hfreq : ∀ c ≤ 256, ppm.freq c = ppm'.freq c) {s : Nat} (hs : 1 ≤ s) (hs' : s ≤ 257) :
    dachGetFreq ppm s = dachGetFreq ppm' s ∧ ppm.cumAt s = ppm'.cumAt s := by
  have htable : (List.range 257).map ppm.freq = (List.range 257).map ppm'.freq := by
    apply List.map_congr_left
    intro c hc
    exact hfreq c (Nat.le_of_lt_succ (List.mem_range.mp hc))
  have hperm := wf.freq_perm
  rw [htable] at hperm
  have hlist := List.Perm.eq_of_pairwise (fun _ _ _ _ hge hle => Nat.le_antisymm hle hge) wf.freq_pairwise
    wf'.freq_pairwise (hperm.trans wf'.freq_perm.symm)
  have hall : ∀ t, 1 ≤ t → t ≤ 257 → dachGetFreq ppm t = dachGetFreq ppm' t := by
    intro t ht ht'
    exact List.map_inj_left.mp hlist t (List.mem_range'_1.mpr ⟨ht, by omega⟩)
  refine ⟨hall s hs hs', ?_⟩
  rw [wf.cum_eq_sum hs (by omega), wf'.cum_eq_sum hs (by omega)]
  apply Finset.sum_congr rfl
  intro t ht
  rw [Finset.mem_Ico] at ht
  exact hall t (by omega) (by omega)

/-- What the tables of two models have in common: every character's frequency, the scale, and the
    frequency and the cumulative count of every position. -/
structure SameProfile (ppm ppm' : Ppm0) : Prop where
  freq : ∀ c ≤ 256, ppm.freq c = ppm'.freq c
  scale : ppm.scale = ppm'.scale
  position : ∀ s, 1 ≤ s → s ≤ 257 → dachGetFreq ppm s = dachGetFreq ppm' s
  cumfreq : ∀ s, 1 ≤ s → s ≤ 257 → ∃ cf, dachPpm0Cumfreq ppm s = .ok cf ∧
    dachPpm0Cumfreq ppm' s = .ok cf

/-- Fresh models fed with the same bytes in different orders count every byte as often as it occurs,
    and agree on the scale and on every cumulative count. -/
theorem updateBytes_profile (data data' : List UInt8) (hperm : data.Perm data')
    (hlen : data.length ≤ 2 ^ 32 - 2) :
    ∃ new ppm ppm', dachPpm0New = .ok new ∧ updateBytes new data = .ok ppm ∧
      updateBytes new data' = .ok ppm' ∧ (∀ c : UInt8, ppm.freq c.toNat = 1 + data.count c) ∧
      ppm.freq 256 = 1 ∧ SameProfile ppm ppm' := by
  obtain ⟨new, hnew, fresh⟩ := dachPpm0New_fresh
  have hscale := fresh.scale_eq
  obtain ⟨ppm, hrun, h⟩ := updateBytes_spec data fresh.wf fresh.reserved (by omega)
  obtain ⟨ppm', hrun', h'⟩ := updateBytes_spec data' fresh.wf fresh.reserved
    (by rw [← hperm.length_eq]; omega)
  have hfreq : ∀ c ≤ 256, ppm.freq c = ppm'.freq c := by
    intro c _
    rw [h.freq, h'.freq, (hperm.map UInt8.toNat).count_eq]
  refine ⟨new, ppm, ppm', hnew, hrun, hrun', ?_, ?_, hfreq, ?_, ?_, ?_⟩
  · intro c
    have hc := c.toNat_lt
    rw [h.freq, fresh.freq _ (by omega), List.count_map_of_injective _ _ fun _ _ => UInt8.toNat_inj.mp]
  · rw [h.freq, fresh.freq _ (Nat.le_refl _), List.count_eq_zero_of_not_mem]
    rintro hmem
    obtain ⟨c, _, hc⟩ := List.mem_map.mp hmem
    have := c.toNat_lt
    omega
  · rw [h.scale, h'.scale, hperm.length_eq]
  · exact fun s hs hs' => (h.wf.profile_eq h'.wf hfreq hs hs').1
  · intro s hs hs'
    refine ⟨ppm.cumAt s, dachPpm0Cumfreq_eq (by omega), ?_⟩
    rw [dachPpm0Cumfreq_eq (by omega), (h.wf.profile_eq h'.wf hfreq hs hs').2]

/-- The order does show in the tables: of two different bytes the first one fed ranks first. -/
theorem updateBytes_first {new ppm : Ppm0} (fresh : FreshTables new) {c d : UInt8} (hne : c ≠ d)
    (hrun : updateBytes new [c, d] = .ok ppm) : ppm.symToChr 1 = c.toNat := by
  have hc := c.toNat_lt
  have hd := d.toNat_lt
  have hone : ∀ s, 1 ≤ s → s ≤ 257 → dachGetFreq new s = 1 := by
    intro s hs hs'
    rw [dachGetFreq, fresh.chr s hs hs', fresh.freq _ (by omega)]
  -- the first byte moves to the head of the only class there is
  have hsym : 1 ≤ new.chrToSym c.toNat ∧ new.chrToSym c.toNat ≤ 257 := fresh.wf.sym_range _ (by omega)
  obtain ⟨mid, p, hupdate, h, hcount⟩ := fresh.wf.update_counted hsym.1 hsym.2
    (by rw [fresh.scale_eq]; omega)
  have hleast : p ≤ 1 := (hcount.isLeast h fresh.wf hsym.2).2
    ⟨⟨by omega, by omega⟩, by rw [hone 1 (by omega) (by omega), hone _ hsym.1 hsym.2]⟩
  have hp : p = 1 := Nat.le_antisymm hleast h.pos
  have hwf := h.wf fresh.wf hsym.2
  have hhead : mid.symToChr 1 = c.toNat := by
    rw [← hp, h.here, fresh.wf.chr_sym _ (by omega)]
  have hfirst : dachGetFreq mid 1 = 2 := by
    rw [h.freq 1 (by omega) (by omega), hone 1 (by omega) (by omega), if_pos hp.symm]
  -- the second byte stays below it
  have hsym' : 1 ≤ mid.chrToSym d.toNat ∧ mid.chrToSym d.toNat ≤ 257 := hwf.sym_range _ (by omega)
  have hother : mid.chrToSym d.toNat ≠ 1 := by
    intro heq
    have hchr := hwf.chr_sym d.toNat (by omega)
    rw [heq, hhead] at hchr
    exact hne (UInt8.toNat_inj.mp hchr)
  obtain ⟨last, q, hupdate', h', hcount'⟩ := hwf.update_counted hsym'.1 hsym'.2
    (by rw [h.scale, fresh.scale_eq]; omega)
  have hq : q ≠ 1 := by
    rintro rfl
    have htie := hcount'.tie 1 (Nat.le_refl 1) hsym'.1
    rw [hfirst, h.freq _ hsym'.1 hsym'.2, hone _ hsym'.1 hsym'.2, hp, if_neg hother] at htie
    cases htie
  have hpos := h'.pos
  simp only [updateBytes, dachChrToSym_eq (Nat.le_of_lt_succ hc), dachChrToSym_eq
    (Nat.le_of_lt_succ hd), hupdate, hupdate', ok_bind] at hrun
  cases hrun
  rw [h'.rest 1 (by omega), hhead]

/-- Two bytes in both orders: the profiles agree and the rankings do not. -/
theorem updateBytes_profile_two : ∃ new ppm ppm', dachPpm0New = .ok new ∧
    updateBytes new [97, 98] = .ok ppm ∧ updateBytes new [98, 97] = .ok ppm' ∧
    SameProfile ppm ppm' ∧ ppm.symToChr 1 ≠ ppm'.symToChr 1 := by
  obtain ⟨new, ppm, ppm', hnew, hrun, hrun', _, _, hsame⟩ :=
    updateBytes_profile [97, 98] [98, 97] (List.Perm.swap _ _ _) (by decide)
  obtain ⟨new', hnew', fresh⟩ := dachPpm0New_fresh
  obtain rfl : new = new' := ok_unique hnew hnew'
  refine ⟨new, ppm, ppm', hnew, hrun, hrun', hsame, ?_⟩
  rw [updateBytes_first fresh (by decide) hrun, updateBytes_first fresh (by decide) hrun']
  decide

end Dach
