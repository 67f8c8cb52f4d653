/-
Module: Dach.Proofs.FileSize
Layer: Proofs
Purpose: How long the file is that the encode command writes. The shifts of the coder are bounded from
  both sides for every rounding loss the length leaves room for, and with that the bytes of the file by
  the number of different bytes in the input, and the sizes for two orders of the same bytes by each other.
Imports: Dach.Lib.CountBounds, Dach.Proofs.Compression, Dach.Proofs.Lockstep
Trusted boundary: none
Main exports: Codes.shifts_bound, encode_size_le, Codes.shifts_bound_below, encode_size_ideal,
  encode_size_perm
-/
import Dach.Lib.CountBounds
import Dach.Proofs.Compression
import Dach.Proofs.Lockstep

namespace Dach

open IntervalCoder

open scoped Nat

/-- The products of the widths and of the totals, before a fresh model has coded a text and behind it. -/
theorem Codes.products {mod mod' : Ppm0} {g : Frame} {data : List UInt8} (fresh : FreshTables mod)
    (run : Codes (2 ^ 30) ByteSlice mod (Frame.start (2 ^ 30)) data mod' g) :
    mod.widths = 1 ∧ mod.totals = 256 ! ∧ mod'.widths = ∏ c : UInt8, (data.count c)! ∧
      mod'.totals = (256 + data.length)! := by
  have hscale : mod.scale = 257 := fresh.scale_eq
  have hfed : Fed mod data mod' := Codes.fed run ⟨fresh.wf, fresh.reserved⟩
  have htotals : mod'.totals = (256 + data.length)! := by
    rw [Ppm0.totals, hfed.scale, hscale, Nat.sub_add_comm (by omega)]
  have htotals₀ : mod.totals = 256 ! := by rw [Ppm0.totals, hscale]
  exact ⟨fresh.widths, htotals₀, hfed.widths_fresh fresh, htotals⟩

/-- The shifts of a coded text, for slices that fit `m` times into the range throughout. -/
theorem Codes.shifts_bound {m : Nat} (hm : 2 ≤ m) {mod mod' : Ppm0} {g : Frame} {data : List UInt8}
    (fresh : FreshTables mod) (run : Codes (2 ^ 30) ByteSlice mod (Frame.start (2 ^ 30)) data mod' g)
    (hfits : m * (257 + data.length) ≤ 2 ^ 30 + 2 + m) :
    2 ^ g.shifts * (m - 1) ^ data.length * 256 ! * ∏ c : UInt8, (data.count c)!
      ≤ m ^ data.length * (256 + data.length)! := by
  have hranked : mod.Ranked := ⟨fresh.wf, fresh.reserved⟩
  have hstart : (Frame.start (2 ^ 30)).Normal (2 ^ 30) := Frame.start_normal (by norm_num)
  have hfits' : m * (mod.scale + data.length) ≤ 2 ^ 30 + 2 + m := by
    rw [fresh.scale_eq]
    exact hfits
  obtain ⟨hwidths₀, htotals₀, hwidths, htotals⟩ := Codes.products fresh run
  have hcost := Codes.cost byteSlice_counting hm run hranked hstart hfits'
  have hwide : (Frame.start (2 ^ 30)).range = 2 ^ 32 := rfl
  have hrange := range_le (run.normal hstart).valid
  rw [hwidths, hwidths₀, htotals, htotals₀, hwide] at hcost
  refine Nat.le_of_mul_le_mul_left ?_ (Nat.two_pow_pos 32)
  calc 2 ^ 32 * (2 ^ g.shifts * (m - 1) ^ data.length * 256 ! * ∏ c : UInt8, (data.count c)!)
      = 2 ^ g.shifts * (m - 1) ^ data.length * 2 ^ 32 * ((∏ c : UInt8, (data.count c)!) * 256 !) := by
        ring
    _ ≤ 2 ^ 0 * m ^ data.length * g.range * (1 * (256 + data.length)!) := hcost
    _ = g.range * (m ^ data.length * (256 + data.length)!) := by ring
    _ ≤ 2 ^ 32 * (m ^ data.length * (256 + data.length)!) := Nat.mul_le_mul_right _ hrange

theorem two_pow_le_factorial : 2 ^ 1683 ≤ 256 ! := by
  decide +kernel

/-- The shifts against the number of different bytes: at most `j` bits a byte for `2 ^ j` of them, what
    rounding loses, and what the model takes to learn the counts. -/
theorem Codes.shifts_le_alphabet {k j l e : Nat} (hk : 1 ≤ k) (he : 2 ^ e ≤ 256 !) {mod mod' : Ppm0} {g : Frame}
    {data : List UInt8} (fresh : FreshTables mod)
    (run : Codes (2 ^ 30) ByteSlice mod (Frame.start (2 ^ 30)) data mod' g)
    (hfits : (k + 1) * (257 + data.length) ≤ 2 ^ 30 + 2 + (k + 1))
    (halphabet : data.toFinset.card ≤ 2 ^ j) (hlog : data.length + 256 ≤ 2 ^ l) :
    g.shifts + e ≤ j * data.length + (3 * data.length / (2 * k) + 1) + 256 * l := by
  have hbound := Codes.shifts_bound (by omega) fresh run hfits
  rw [Nat.add_sub_cancel] at hbound
  have hcounts := Counts.factorial_length_le data halphabet
  have hlast := Counts.factorial_add_le hlog
  have hloss := Counts.succ_pow_le hk data.length
  have hpos : 0 < k ^ data.length * ∏ c : UInt8, (data.count c)! := by positivity
  refine (Nat.pow_le_pow_iff_right (Nat.one_lt_two)).mp ?_
  refine Nat.le_of_mul_le_mul_right ?_ hpos
  calc 2 ^ (g.shifts + e) * (k ^ data.length * ∏ c : UInt8, (data.count c)!)
      = 2 ^ g.shifts * k ^ data.length * 2 ^ e * ∏ c : UInt8, (data.count c)! := by ring
    _ ≤ 2 ^ g.shifts * k ^ data.length * 256 ! * ∏ c : UInt8, (data.count c)! := by
        gcongr
    _ ≤ (k + 1) ^ data.length * (256 + data.length)! := hbound
    _ ≤ (2 ^ (3 * data.length / (2 * k) + 1) * k ^ data.length) *
          (((2 ^ j) ^ data.length * ∏ c : UInt8, (data.count c)!) * 2 ^ (256 * l)) :=
        Nat.mul_le_mul hloss (hlast.trans (Nat.mul_le_mul_right _ hcounts))
    _ = 2 ^ (j * data.length + (3 * data.length / (2 * k) + 1) + 256 * l) *
          (k ^ data.length * ∏ c : UInt8, (data.count c)!) := by
        rw [← pow_mul]
        ring

/-- The size of an encoded file: for an input with at most `2 ^ j` different bytes it has at most `j` bits
    for each, the loss by rounding, which is less than `3 / 2` bits for as many bytes as the last total
    goes into `2 ^ 30`, and at most 256 bits for each doubling of the length. -/
theorem encode_size_le (host : Host) (data : List UInt8) (hpos : 1 ≤ data.length)
    (hlen : data.length ≤ 2 ^ 27) (j : Nat) (halphabet : data.toFinset.card ≤ 2 ^ j) :
    ∃ content, encode host data = .ok content ∧
      8 * content.length + 1616 ≤ j * data.length
        + 3 * data.length / (2 * (2 ^ 30 / (257 + data.length) - 1))
        + 256 * Nat.clog 2 (data.length + 256) := by
  obtain ⟨mod, mod', g, words, hnew, hcodes, hstopped, _, hencode⟩ := encode_exact host data hpos hlen
  obtain ⟨mod₀, hnew₀, fresh⟩ := dachPpm0New_fresh
  obtain rfl := ok_unique hnew hnew₀
  refine ⟨_, hencode, ?_⟩
  have hroom : 2 ≤ 2 ^ 30 / (257 + data.length) := by
    rw [Nat.le_div_iff_mul_le (by omega)]
    omega
  have hfits : (2 ^ 30 / (257 + data.length) - 1 + 1) * (257 + data.length)
      ≤ 2 ^ 30 + 2 + (2 ^ 30 / (257 + data.length) - 1 + 1) := by
    rw [Nat.sub_add_cancel (by omega)]
    have := Nat.div_mul_le_self (2 ^ 30) (257 + data.length)
    omega
  have hshifts := Codes.shifts_le_alphabet (by omega) two_pow_le_factorial fresh hcodes hfits
    halphabet (Nat.le_pow_clog (by omega) (data.length + 256))
  have hshort := hstopped.length_lt
  rw [length_encoded]
  omega

/-- The bound for five times the same byte. -/
theorem encode_size_le_five : ∃ content, encode littleHost [65, 65, 65, 65, 65] = .ok content ∧
    8 * content.length + 1616 ≤ 0 * 5 + 3 * 5 / (2 * (2 ^ 30 / (257 + 5) - 1))
      + 256 * Nat.clog 2 (5 + 256) :=
  encode_size_le littleHost [65, 65, 65, 65, 65] (by decide) (by decide) 0 (by decide)

/-! ### The size from both sides -/

/-- The shifts of a coded text are no fewer than its counts ask for. -/
theorem Codes.shifts_bound_below {m : Nat} (hm : 2 ≤ m) {mod mod' : Ppm0} {g : Frame} {data : List UInt8}
    (fresh : FreshTables mod) (run : Codes (2 ^ 30) ByteSlice mod (Frame.start (2 ^ 30)) data mod' g)
    (hfits : m * (257 + data.length) ≤ 2 ^ 30 + 2 + m) :
    m ^ data.length * (256 + data.length)!
      ≤ 2 ^ (g.shifts + 2) * (m + 1) ^ data.length * (256 ! * ∏ c : UInt8, (data.count c)!) := by
  have hranked : mod.Ranked := ⟨fresh.wf, fresh.reserved⟩
  have hstart : (Frame.start (2 ^ 30)).Normal (2 ^ 30) := Frame.start_normal (by norm_num)
  have hfits' : m * (mod.scale + data.length) ≤ 2 ^ 30 + 2 + m := by
    rw [fresh.scale_eq]
    exact hfits
  obtain ⟨hwidths₀, htotals₀, hwidths, htotals⟩ := Codes.products fresh run
  have hcost := Codes.cost_ge byteSlice_counting hm run hranked hstart hfits'
  have hwide : (Frame.start (2 ^ 30)).range = 2 ^ 32 := rfl
  have hrange : 2 ^ 30 ≤ g.range := Nat.le_of_add_right_le (run.normal hstart).range_ge
  rw [hwidths, hwidths₀, htotals, htotals₀, hwide] at hcost
  refine Nat.le_of_mul_le_mul_left ?_ (Nat.two_pow_pos 30)
  calc 2 ^ 30 * (m ^ data.length * (256 + data.length)!)
      ≤ g.range * (m ^ data.length * (256 + data.length)!) := Nat.mul_le_mul_right _ hrange
    _ = 2 ^ 0 * m ^ data.length * g.range * (1 * (256 + data.length)!) := by ring
    _ ≤ 2 ^ g.shifts * (m + 1) ^ data.length * 2 ^ 32 * ((∏ c : UInt8, (data.count c)!) * 256 !) := hcost
    _ = 2 ^ 30 * (2 ^ (g.shifts + 2) * (m + 1) ^ data.length *
          (256 ! * ∏ c : UInt8, (data.count c)!)) := by ring

/-- How often the scale of a file fits into the range of the coder. -/
def roundingRoom (n : Nat) : Nat := 2 ^ 30 / (257 + n)

theorem roundingRoom_spec {n : Nat} (hlen : n ≤ 2 ^ 27) :
    3 ≤ roundingRoom n ∧ roundingRoom n * (257 + n) ≤ 2 ^ 30 + 2 + roundingRoom n := by
  constructor
  · rw [roundingRoom, Nat.le_div_iff_mul_le (by omega)]
    omega
  · rw [roundingRoom, Nat.add_assoc]
    exact (Nat.div_mul_le_self (2 ^ 30) (257 + n)).trans (Nat.le_add_right _ _)

section Bounds

variable {mod mod' : Ppm0} {g : Frame} {words : List Nat} {data : List UInt8}

/-- The bits of a stopped file are no more than the ideal code has, up to its header and its end. -/
theorem Stopped.size_above (h : Stopped g words) (fresh : FreshTables mod)
    (run : Codes (2 ^ 30) ByteSlice mod (Frame.start (2 ^ 30)) data mod' g) (hlen : data.length ≤ 2 ^ 27) :
    2 ^ (32 + 32 * words.length) * (roundingRoom data.length - 1) ^ data.length *
        (256 ! * ∏ c : UInt8, (data.count c)!)
      ≤ 2 ^ 66 * roundingRoom data.length ^ data.length * (256 + data.length)! := by
  obtain ⟨hroom, hfits⟩ := roundingRoom_spec hlen
  generalize roundingRoom data.length = k at hroom hfits ⊢
  have habove := Codes.shifts_bound (by omega) fresh run hfits
  have hshort := h.length_lt
  have hbits : 2 ^ (32 + 32 * words.length) ≤ 2 ^ (g.shifts + 66) :=
    Nat.pow_le_pow_right (by omega) (by omega)
  calc 2 ^ (32 + 32 * words.length) * (k - 1) ^ data.length * (256 ! * ∏ c : UInt8, (data.count c)!)
      ≤ 2 ^ (g.shifts + 66) * (k - 1) ^ data.length * (256 ! * ∏ c : UInt8, (data.count c)!) := by
        gcongr
    _ = 2 ^ 66 * (2 ^ g.shifts * (k - 1) ^ data.length * 256 ! * ∏ c : UInt8, (data.count c)!) := by
        ring
    _ ≤ 2 ^ 66 * (k ^ data.length * (256 + data.length)!) := Nat.mul_le_mul_left _ habove
    _ = 2 ^ 66 * k ^ data.length * (256 + data.length)! := by ring

theorem Stopped.size_below (h : Stopped g words) (fresh : FreshTables mod)
    (run : Codes (2 ^ 30) ByteSlice mod (Frame.start (2 ^ 30)) data mod' g) (hlen : data.length ≤ 2 ^ 27) :
    2 ^ 33 * roundingRoom data.length ^ data.length * (256 + data.length)!
      ≤ 2 ^ (32 + 32 * words.length) * (roundingRoom data.length + 1) ^ data.length *
        (256 ! * ∏ c : UInt8, (data.count c)!) := by
  obtain ⟨hroom, hfits⟩ := roundingRoom_spec hlen
  generalize roundingRoom data.length = k at hroom hfits ⊢
  have hbelow := Codes.shifts_bound_below (by omega) fresh run hfits
  have hlong := h.length_ge
  have hbits : 2 ^ (g.shifts + 35) ≤ 2 ^ (32 + 32 * words.length) :=
    Nat.pow_le_pow_right (by omega) (by omega)
  calc 2 ^ 33 * k ^ data.length * (256 + data.length)!
      = 2 ^ 33 * (k ^ data.length * (256 + data.length)!) := by ring
    _ ≤ 2 ^ 33 * (2 ^ (g.shifts + 2) * (k + 1) ^ data.length *
          (256 ! * ∏ c : UInt8, (data.count c)!)) := Nat.mul_le_mul_left _ hbelow
    _ = 2 ^ (g.shifts + 35) * (k + 1) ^ data.length * (256 ! * ∏ c : UInt8, (data.count c)!) := by
        ring
    _ ≤ 2 ^ (32 + 32 * words.length) * (k + 1) ^ data.length *
          (256 ! * ∏ c : UInt8, (data.count c)!) := by
        gcongr

end Bounds

/-- The bits of a file of so many words. -/
theorem fileBits (host : Host) (n : Nat) (words : List Nat) :
    8 * (u32Bytes host.order n ++ wordBytes host words).length = 32 + 32 * words.length := by
  rw [length_encoded]
  omega

/-- The size of an encoded file is that of the ideal adaptive code for its counts, up to four bytes for the
    header, 34 bits at its end, and what is lost or won by rounding. -/
theorem encode_size_ideal (host : Host) (data : List UInt8) (hpos : 1 ≤ data.length)
    (hlen : data.length ≤ 2 ^ 27) :
    ∃ content, encode host data = .ok content ∧
      2 ^ (8 * content.length) * (roundingRoom data.length - 1) ^ data.length *
          (256 ! * ∏ c : UInt8, (data.count c)!)
        ≤ 2 ^ 66 * roundingRoom data.length ^ data.length * (256 + data.length)! ∧
      2 ^ 33 * roundingRoom data.length ^ data.length * (256 + data.length)!
        ≤ 2 ^ (8 * content.length) * (roundingRoom data.length + 1) ^ data.length *
          (256 ! * ∏ c : UInt8, (data.count c)!) := by
  obtain ⟨mod, mod', g, words, hnew, hcodes, hstopped, _, hencode⟩ := encode_exact host data hpos hlen
  obtain ⟨mod₀, hnew₀, fresh⟩ := dachPpm0New_fresh
  obtain rfl := ok_unique hnew hnew₀
  refine ⟨_, hencode, ?_, ?_⟩
  · rw [fileBits]
    exact hstopped.size_above fresh hcodes hlen
  · rw [fileBits]
    exact hstopped.size_below fresh hcodes hlen

/-- The two bounds for the file of seven bytes of three values. -/
theorem encode_size_ideal_seven : ∃ content,
    encode littleHost [65, 66, 65, 67, 66, 65, 65] = .ok content ∧
      2 ^ (8 * content.length) * (roundingRoom 7 - 1) ^ 7 *
          (256 ! * ∏ c : UInt8, ([65, 66, 65, 67, 66, 65, 65].count c)!)
        ≤ 2 ^ 66 * roundingRoom 7 ^ 7 * (256 + 7)! ∧
      2 ^ 33 * roundingRoom 7 ^ 7 * (256 + 7)!
        ≤ 2 ^ (8 * content.length) * (roundingRoom 7 + 1) ^ 7 *
          (256 ! * ∏ c : UInt8, ([65, 66, 65, 67, 66, 65, 65].count c)!) := by
  have hseven := encode_size_ideal littleHost [65, 66, 65, 67, 66, 65, 65] (by decide) (by decide)
  rw [show ([65, 66, 65, 67, 66, 65, 65] : List UInt8).length = 7 from rfl] at hseven
  exact hseven

/-! ### Two orders of the same bytes -/

/-- Two sizes between the same bounds. -/
theorem size_le_of_bounds {k n ideal counts size size' : Nat} (hk : 2 ≤ k) (hcounts : 0 < counts)
    (habove : 2 ^ size * (k - 1) ^ n * counts ≤ 2 ^ 66 * k ^ n * ideal)
    (hbelow : 2 ^ 33 * k ^ n * ideal ≤ 2 ^ size' * (k + 1) ^ n * counts) :
    size ≤ size' + 35 + 3 * n / (2 * k) + 3 * n / (2 * (k - 1)) := by
  have hup := Counts.succ_pow_le (k := k) (by omega) n
  have hdown := Counts.succ_pow_le (k := k - 1) (by omega) n
  rw [Nat.sub_add_cancel (by omega : 1 ≤ k)] at hdown
  generalize 3 * n / (2 * k) = above at hup ⊢
  generalize 3 * n / (2 * (k - 1)) = below at hdown ⊢
  have hpos : 0 < (k - 1) ^ n * counts := Nat.mul_pos (Nat.pow_pos (by omega)) hcounts
  have hpow : 2 ^ (size + 33) ≤ 2 ^ (size' + 66 + (above + 1) + (below + 1)) := by
    refine Nat.le_of_mul_le_mul_right ?_ hpos
    calc 2 ^ (size + 33) * ((k - 1) ^ n * counts)
        = 2 ^ 33 * (2 ^ size * (k - 1) ^ n * counts) := by ring
      _ ≤ 2 ^ 33 * (2 ^ 66 * k ^ n * ideal) := Nat.mul_le_mul_left _ habove
      _ = 2 ^ 66 * (2 ^ 33 * k ^ n * ideal) := by ring
      _ ≤ 2 ^ 66 * (2 ^ size' * (k + 1) ^ n * counts) := Nat.mul_le_mul_left _ hbelow
      _ ≤ 2 ^ 66 * (2 ^ size' * (2 ^ (above + 1) * (2 ^ (below + 1) * (k - 1) ^ n)) * counts) := by
          have hboth := hup.trans (Nat.mul_le_mul_left _ hdown)
          gcongr
      _ = 2 ^ (size' + 66 + (above + 1) + (below + 1)) * ((k - 1) ^ n * counts) := by ring
  have := (Nat.pow_le_pow_iff_right (by omega : 1 < 2)).mp hpow
  omega

/-- Up to 16384 bytes nothing is lost or won by rounding. -/
theorem roundingRoom_short {n : Nat} (hshort : n ≤ 2 ^ 14) :
    3 * n / (2 * roundingRoom n) = 0 ∧ 3 * n / (2 * (roundingRoom n - 1)) = 0 := by
  have hroom : 2 ^ 15 ≤ roundingRoom n := by
    rw [roundingRoom, Nat.le_div_iff_mul_le (by omega)]
    omega
  constructor
  · exact Nat.div_eq_of_lt (by omega)
  · exact Nat.div_eq_of_lt (by omega)

/-- The order of the bytes hardly matters: two files with the same bytes in different orders are encoded
    to nearly the same size, and up to 16384 bytes to sizes at most one word apart. -/
theorem encode_size_perm (host : Host) (data data' : List UInt8) (hperm : data.Perm data')
    (hpos : 1 ≤ data.length) (hlen : data.length ≤ 2 ^ 27) :
    ∃ content content', encode host data = .ok content ∧ encode host data' = .ok content' ∧
      8 * content.length ≤ 8 * content'.length + 35 + 3 * data.length / (2 * roundingRoom data.length)
        + 3 * data.length / (2 * (roundingRoom data.length - 1)) ∧
      (data.length ≤ 2 ^ 14 → content.length ≤ content'.length + 4) := by
  have hlength := hperm.length_eq
  obtain ⟨mod, modA, g, words, hnew, hcodes, hstopped, _, hencode⟩ := encode_exact host data hpos hlen
  obtain ⟨mod', modB, g', words', hnew', hcodes', hstopped', _, hencode'⟩ :=
    encode_exact host data' (by omega) (by omega)
  obtain ⟨mod₀, hnew₀, fresh⟩ := dachPpm0New_fresh
  obtain rfl := ok_unique hnew hnew₀
  obtain rfl := ok_unique hnew' hnew
  have habove := hstopped.size_above fresh hcodes hlen
  have hbelow := hstopped'.size_below fresh hcodes' (by omega)
  -- both orders have the same counts
  rw [← hlength, Finset.prod_congr rfl fun c _ => by rw [← hperm.count_eq c]] at hbelow
  have hcounts : 0 < 256 ! * ∏ c : UInt8, (data.count c)! := by positivity
  have hsize := size_le_of_bounds (Nat.le_of_succ_le (roundingRoom_spec hlen).1) hcounts habove hbelow
  refine ⟨_, _, hencode, hencode', ?_, ?_⟩
  · rw [fileBits, fileBits]
    exact hsize
  · intro hshort
    obtain ⟨hwon, hlost⟩ := roundingRoom_short hshort
    rw [length_encoded, length_encoded]
    omega

/-- Two orders of two bytes. -/
theorem encode_size_perm_two : ∃ content content', encode littleHost [65, 66] = .ok content ∧
    encode littleHost [66, 65] = .ok content' ∧ content.length ≤ content'.length + 4 := by
  obtain ⟨content, content', hencode, hencode', _, hshort⟩ := encode_size_perm littleHost [65, 66] [66, 65]
    (List.Perm.swap 66 65 []) (by decide) (by decide)
  exact ⟨content, content', hencode, hencode', hshort (by decide)⟩

end Dach
