import Mathlib.Data.FinEnum
import Mathlib.Logic.Function.Iterate
import Mathlib.Tactic.Common
import LogStore.Checksum

/-! The algebra of the checksum. A step of the register is linear over exclusive or and loses
nothing, so the register at the start and the bytes contribute separately, and a change inside
four adjacent bytes changes the checksum. What it cannot tell is a change of length: two strings
whose lengths differ by a power of two have the same checksum behind exactly one word. -/

namespace LogStore.Checksum

/-! One step. -/

theorem low_eq_one_iff (r : UInt32) : r &&& 1 = 1 ↔ r.toNat % 2 = 1 := by
  rw [← UInt32.toNat_inj, UInt32.toNat_and, UInt32.toNat_one, Nat.and_one_is_mod]

theorem shift_even {r : UInt32} (h : r.toNat % 2 = 0) : shift r = r >>> 1 := by
  rw [shift, if_neg]
  rw [low_eq_one_iff]
  omega

theorem shift_odd {r : UInt32} (h : r.toNat % 2 = 1) : shift r = (r >>> 1) ^^^ 0xEDB88320 := by
  rw [shift, if_pos ((low_eq_one_iff r).mpr h)]

theorem shift_xor (a b : UInt32) : shift (a ^^^ b) = shift a ^^^ shift b := by
  have hlow : (a ^^^ b).toNat % 2 = (a.toNat + b.toNat) % 2 := by
    rw [UInt32.toNat_xor]
    have := @Nat.xor_mod_two_eq_one a.toNat b.toNat
    omega
  rcases Nat.mod_two_eq_zero_or_one a.toNat with ha | ha <;>
    rcases Nat.mod_two_eq_zero_or_one b.toNat with hb | hb
  · rw [shift_even ha, shift_even hb, shift_even (by omega), UInt32.shiftRight_xor]
  · rw [shift_even ha, shift_odd hb, shift_odd (by omega), UInt32.shiftRight_xor, UInt32.xor_assoc]
  · rw [shift_odd ha, shift_even hb, shift_odd (by omega), UInt32.shiftRight_xor]
    ac_rfl
  · -- the polynomial is taken off both, and cancels
    rw [shift_odd ha, shift_odd hb, shift_even (by omega), UInt32.shiftRight_xor, UInt32.xor_assoc,
      UInt32.xor_comm (b >>> 1), ← UInt32.xor_assoc 0xEDB88320, UInt32.xor_self, UInt32.zero_xor]

theorem toNat_shiftRight_one (r : UInt32) : (r >>> 1).toNat = r.toNat / 2 := by
  rw [UInt32.toNat_shiftRight]
  exact Nat.shiftRight_eq_div_pow r.toNat 1

/-- The polynomial has its highest bit, which a register that has moved down has not. -/
theorem eq_zero_of_shift {r : UInt32} (h : shift r = 0) : r = 0 := by
  have hr := r.toNat_lt
  have hhalf := toNat_shiftRight_one r
  rcases Nat.mod_two_eq_zero_or_one r.toNat with hlow | hlow
  · rw [shift_even hlow] at h
    rw [h] at hhalf
    apply UInt32.toNat_inj.mp
    change r.toNat = 0
    change 0 = r.toNat / 2 at hhalf
    omega
  · rw [shift_odd hlow, UInt32.xor_eq_zero_iff] at h
    rw [h] at hhalf
    change 0xEDB88320 = r.toNat / 2 at hhalf
    omega

theorem shift_injective : Function.Injective shift := by
  intro a b h
  apply UInt32.xor_eq_zero_iff.mp
  apply eq_zero_of_shift
  rw [shift_xor, h, UInt32.xor_self]

/-- The bits of the polynomial below this one, added up. -/
def sumOfBits (n : Nat) : Bool :=
  (List.range n).foldl (fun b i => b ^^ (0xEDB88320 : Nat).testBit i) false

/-- The polynomial has an even number of ones, so no register but zero stays what it is. -/
theorem eq_zero_of_shift_eq {r : UInt32} (h : shift r = r) : r = 0 := by
  have hr := r.toNat_lt
  rcases Nat.mod_two_eq_zero_or_one r.toNat with hlow | hlow
  · rw [shift_even hlow] at h
    have hhalf := toNat_shiftRight_one r
    rw [h] at hhalf
    apply UInt32.toNat_inj.mp
    change r.toNat = 0
    omega
  · rw [shift_odd hlow] at h
    have hstep : ∀ i, r.toNat.testBit (i + 1) =
        (r.toNat.testBit i ^^ (0xEDB88320 : Nat).testBit i) := by
      intro i
      have hbit := congrArg (fun w : UInt32 => w.toNat.testBit i) h
      simp only [UInt32.toNat_xor, toNat_shiftRight_one, Nat.testBit_xor,
        ← Nat.testBit_succ] at hbit
      rw [← hbit, Bool.xor_assoc, show (0xEDB88320 : UInt32).toNat = 0xEDB88320 from rfl,
        Bool.xor_self, Bool.xor_false]
    -- from the lowest bit, which is one, the bits lead to one beyond the highest
    have hwalk : ∀ n, r.toNat.testBit n = (r.toNat.testBit 0 ^^ sumOfBits n) := by
      intro n
      induction n with
      | zero => exact (Bool.xor_false _).symm
      | succ n ih =>
        rw [hstep, ih, sumOfBits, sumOfBits, List.range_succ, List.foldl_append, List.foldl_cons,
          List.foldl_nil, Bool.xor_assoc]
    have hlast := hwalk 32
    have heven : sumOfBits 32 = false := by decide +kernel
    rw [Nat.testBit_lt_two_pow hr, heven, Nat.testBit_zero, hlow] at hlast
    cases hlast

/-! Many steps. -/

theorem iterate_shift_xor (n : Nat) (a b : UInt32) :
    shift^[n] (a ^^^ b) = shift^[n] a ^^^ shift^[n] b :=
  Function.Semiconj₂.iterate shift_xor n a b

theorem iterate_shift_injective (n : Nat) : Function.Injective shift^[n] :=
  shift_injective.iterate n

theorem toNat_iterate_shift {n : Nat} {r : UInt32} (h : 2 ^ n ∣ r.toNat) :
    (shift^[n] r).toNat = r.toNat / 2 ^ n := by
  induction n generalizing r with
  | zero => exact (Nat.div_one _).symm
  | succ n ih =>
    obtain ⟨m, hm⟩ := h
    have heven : r.toNat % 2 = 0 := by
      rw [hm, Nat.pow_succ, Nat.mul_comm (2 ^ n), Nat.mul_assoc, Nat.mul_mod_right]
    have hhalf : (shift r).toNat = 2 ^ n * m := by
      rw [shift_even heven, toNat_shiftRight_one, hm, Nat.pow_succ, Nat.mul_comm (2 ^ n),
        Nat.mul_assoc, Nat.mul_div_cancel_left _ (by decide)]
    rw [Function.iterate_succ_apply, ih ⟨m, hhalf⟩, hhalf, hm,
      Nat.mul_div_cancel_left _ (Nat.two_pow_pos n), Nat.mul_div_cancel_left _ (Nat.two_pow_pos _)]

/-! Bytes and words. -/

theorem absorb_eq (r : UInt32) (b : UInt8) : absorb r b = shift^[8] (r ^^^ b.toUInt32) := rfl

/-- The register at the start and the bytes contribute separately. -/
theorem run_eq_xor (r : UInt32) (bs : Bytes) :
    run r bs = shift^[8 * bs.length] r ^^^ run 0 bs := by
  induction bs generalizing r with
  | nil => exact (UInt32.xor_zero).symm
  | cons b bs ih =>
    have hone : absorb r b = shift^[8] r ^^^ absorb 0 b := by
      rw [absorb_eq, absorb_eq, iterate_shift_xor, UInt32.zero_xor]
    calc run r (b :: bs) = shift^[8 * bs.length] (absorb r b) ^^^ run 0 bs := ih (absorb r b)
      _ = shift^[8 * bs.length] (shift^[8] r) ^^^
            (shift^[8 * bs.length] (absorb 0 b) ^^^ run 0 bs) := by
        rw [hone, iterate_shift_xor, UInt32.xor_assoc]
      _ = shift^[8 * (b :: bs).length] r ^^^ run 0 (b :: bs) := by
        rw [← ih (absorb 0 b), ← Function.iterate_add_apply]
        rfl

theorem run_injective (bs : Bytes) : Function.Injective (run · bs) := by
  intro a b h
  apply iterate_shift_injective (8 * bs.length)
  apply (UInt32.xor_left_inj (run 0 bs)).mp
  rw [← run_eq_xor, ← run_eq_xor]
  exact h

/-- A word enters the register by its lowest byte; what is left of the word has moved down. -/
theorem iterate_shift_xor_word (r w : UInt32) :
    shift^[8] (r ^^^ w) = absorb r w.toUInt8 ^^^ w >>> 8 := by
  have hsplit : w = w.toUInt8.toUInt32 ^^^ (w >>> 8) <<< 8 := by
    apply UInt32.eq_of_toBitVec_eq
    ext i hi
    simp [-UInt32.toUInt32_toUInt8]
    grind
  have hhigh : ((w >>> 8) <<< 8).toNat = 2 ^ 8 * (w.toNat / 2 ^ 8) := by
    have := w.toNat_lt
    rw [UInt32.toNat_shiftLeft, UInt32.toNat_shiftRight, Nat.shiftLeft_eq,
      Nat.shiftRight_eq_div_pow]
    change w.toNat / 2 ^ 8 * 2 ^ 8 % 2 ^ 32 = _
    omega
  have hmove : shift^[8] ((w >>> 8) <<< 8) = w >>> 8 := by
    apply UInt32.toNat_inj.mp
    rw [toNat_iterate_shift (hhigh ▸ Nat.dvd_mul_right ..), hhigh,
      Nat.mul_div_cancel_left _ (by decide), UInt32.toNat_shiftRight, Nat.shiftRight_eq_div_pow]
    rfl
  calc shift^[8] (r ^^^ w) = shift^[8] (r ^^^ w.toUInt8.toUInt32 ^^^ (w >>> 8) <<< 8) := by
        rw [UInt32.xor_assoc, ← hsplit]
    _ = absorb r w.toUInt8 ^^^ w >>> 8 := by rw [iterate_shift_xor, hmove, absorb_eq]

theorem shiftRight_shiftRight (w : UInt32) {m n : Nat} (h : m + n < 32) :
    w >>> UInt32.ofNat m >>> UInt32.ofNat n = w >>> UInt32.ofNat (m + n) := by
  apply UInt32.toNat_inj.mp
  have hs : UInt32.size = 2 ^ 32 := rfl
  simp only [UInt32.toNat_shiftRight, UInt32.toNat_ofNat_of_lt' (show m < UInt32.size by omega),
    UInt32.toNat_ofNat_of_lt' (show n < UInt32.size by omega),
    UInt32.toNat_ofNat_of_lt' (show m + n < UInt32.size by omega),
    Nat.mod_eq_of_lt (show m < 32 by omega), Nat.mod_eq_of_lt (show n < 32 by omega),
    Nat.mod_eq_of_lt h, Nat.shiftRight_add]

/-- Four bytes enter the register as one word. -/
theorem run_wordBytes (r w : UInt32) : run r (wordBytes w) = shift^[32] (r ^^^ w) := by
  have h16 : w >>> 8 >>> 8 = w >>> 16 := shiftRight_shiftRight w (m := 8) (n := 8) (by decide)
  have h24 : w >>> 16 >>> 8 = w >>> 24 := shiftRight_shiftRight w (m := 16) (n := 8) (by decide)
  have hgone : w >>> 24 >>> 8 = 0 := by
    have hw := w.toNat_lt
    apply UInt32.toNat_inj.mp
    simp only [UInt32.toNat_shiftRight, Nat.shiftRight_eq_div_pow]
    change w.toNat / 2 ^ 24 / 2 ^ 8 = 0
    omega
  calc run r (wordBytes w)
      = absorb (absorb (absorb (absorb r w.toUInt8) (w >>> 8).toUInt8) (w >>> 16).toUInt8)
          (w >>> 24).toUInt8 := rfl
    _ = shift^[8] (shift^[8] (shift^[8] (shift^[8] (r ^^^ w)))) := by
        rw [iterate_shift_xor_word, iterate_shift_xor_word, h16, iterate_shift_xor_word, h24,
          iterate_shift_xor_word, hgone, UInt32.xor_zero]
    _ = shift^[32] (r ^^^ w) := by
        rw [← Function.iterate_add_apply, ← Function.iterate_add_apply,
          ← Function.iterate_add_apply]

theorem wordBytes_injective : Function.Injective wordBytes := by
  intro v w h
  have hrun := congrArg (run 0) h
  rw [run_wordBytes, run_wordBytes, UInt32.zero_xor, UInt32.zero_xor] at hrun
  exact iterate_shift_injective 32 hrun

theorem exists_wordBytes {bs : Bytes} (h : bs.length = 4) : ∃ w, bs = wordBytes w := by
  match bs with
  | [a, b, c, d] => exact ⟨wordOf a b c d, (wordBytes_wordOf a b c d).symm⟩

/-! What is told, and what is not. -/

/-- Four bytes, or fewer, are told by the register that they lead to. -/
theorem eq_of_run_eq {r : UInt32} {as bs : Bytes} (hlen : as.length = bs.length)
    (hfour : as.length ≤ 4) (h : run r as = run r bs) : as = bs := by
  -- zeros behind both make words of them
  let zeros : Bytes := List.replicate (4 - as.length) 0
  have hzeros : zeros.length = 4 - as.length := List.length_replicate
  obtain ⟨v, hv⟩ : ∃ v, as ++ zeros = wordBytes v :=
    exists_wordBytes (by rw [List.length_append]; omega)
  obtain ⟨w, hw⟩ : ∃ w, bs ++ zeros = wordBytes w :=
    exists_wordBytes (by rw [List.length_append]; omega)
  have hpadded : run r (as ++ zeros) = run r (bs ++ zeros) := by
    rw [run_append, run_append, h]
  rw [hv, hw, run_wordBytes, run_wordBytes] at hpadded
  have hvw : v = w := (UInt32.xor_right_inj r).mp (iterate_shift_injective 32 hpadded)
  rw [← hvw, ← hv] at hw
  exact (List.append_cancel_right hw).symm

theorem crc32_inj {as bs : Bytes} :
    crc32 as = crc32 bs ↔ run 0xFFFFFFFF as = run 0xFFFFFFFF bs :=
  UInt32.xor_left_inj _

/-- A change inside four adjacent bytes changes the checksum. -/
theorem eq_of_crc32_eq {before as bs after : Bytes} (hlen : as.length = bs.length)
    (hfour : as.length ≤ 4) (h : crc32 (before ++ as ++ after) = crc32 (before ++ bs ++ after)) :
    as = bs := by
  rw [crc32_inj] at h
  simp only [run_append] at h
  exact eq_of_run_eq hlen hfour (run_injective after h)

/-- What a register and the same register some steps later differ by. -/
def drift (n : Nat) (r : UInt32) : UInt32 := r ^^^ shift^[n] r

theorem drift_xor (n : Nat) (a b : UInt32) : drift n (a ^^^ b) = drift n a ^^^ drift n b := by
  rw [drift, iterate_shift_xor, drift, drift]
  ac_rfl

theorem drift_drift (n : Nat) (r : UInt32) : drift n (drift n r) = drift (n + n) r := by
  rw [drift, drift, drift, iterate_shift_xor, ← Function.iterate_add_apply, UInt32.xor_assoc,
    ← UInt32.xor_assoc (shift^[n] r), UInt32.xor_self, UInt32.zero_xor]

theorem drift_one_injective : Function.Injective (drift 1) := by
  intro a b h
  apply UInt32.xor_eq_zero_iff.mp
  apply eq_zero_of_shift_eq
  have hzero : drift 1 (a ^^^ b) = 0 := by rw [drift_xor, h, UInt32.xor_self]
  exact (UInt32.xor_eq_zero_iff.mp hzero).symm

theorem drift_two_pow_injective (k : Nat) : Function.Injective (drift (2 ^ k)) := by
  induction k with
  | zero => exact drift_one_injective
  | succ k ih =>
    have hsquare : drift (2 ^ (k + 1)) = drift (2 ^ k) ∘ drift (2 ^ k) := by
      funext r
      rw [Function.comp_apply, drift_drift, Nat.pow_succ, Nat.mul_two]
    rw [hsquare]
    exact ih.comp ih

theorem xor_eq_xor_iff {a b c d : UInt32} : a ^^^ c = b ^^^ d ↔ b ^^^ a = c ^^^ d := by
  have hsum : a ^^^ c ^^^ (b ^^^ d) = b ^^^ a ^^^ (c ^^^ d) := by ac_rfl
  rw [← UInt32.xor_eq_zero_iff, hsum, UInt32.xor_eq_zero_iff]

/-- Strings whose lengths differ by a power of two have the same checksum behind exactly one
word. -/
theorem existsUnique_crc32_eq {as bs : Bytes} {k : Nat} (h : as.length = bs.length + 2 ^ k) :
    ∃! t : UInt32, crc32 (wordBytes t ++ as) = crc32 (wordBytes t ++ bs) := by
  let f : UInt32 → UInt32 := fun t =>
    shift^[8 * bs.length + 32] (drift (2 ^ (k + 3)) (0xFFFFFFFF ^^^ t))
  have hf : Function.Bijective f := by
    rw [← Finite.injective_iff_bijective]
    intro t t' heq
    have hdrift := drift_two_pow_injective (k + 3) (iterate_shift_injective _ heq)
    exact (UInt32.xor_right_inj _).mp hdrift
  have hiff : ∀ t, crc32 (wordBytes t ++ as) = crc32 (wordBytes t ++ bs) ↔
      f t = run 0 as ^^^ run 0 bs := by
    intro t
    have hlen : 8 * as.length + 32 = 8 * bs.length + 32 + 2 ^ (k + 3) := by
      rw [h, Nat.pow_add]
      omega
    have hft : f t = shift^[8 * bs.length + 32] (0xFFFFFFFF ^^^ t) ^^^
        shift^[8 * as.length + 32] (0xFFFFFFFF ^^^ t) := by
      simp only [f, drift]
      rw [iterate_shift_xor, ← Function.iterate_add_apply, ← hlen]
    rw [crc32_inj, run_append, run_append, run_wordBytes, run_eq_xor _ as, run_eq_xor _ bs,
      ← Function.iterate_add_apply, ← Function.iterate_add_apply, hft]
    exact xor_eq_xor_iff
  obtain ⟨t, ht, hunique⟩ := hf.existsUnique (run 0 as ^^^ run 0 bs)
  exact ⟨t, (hiff t).mpr ht, fun t' ht' => hunique t' ((hiff t').mp ht')⟩

end LogStore.Checksum
