import Mathlib.Data.List.Basic
import Mathlib.Tactic.Common
import LogStore.Proofs.Checksum
import LogStore.Proofs.Log.Canonical

/-! A single bit of a length turned over. Where it makes a record run past the end of the bytes,
reading asks whether another such turn would make it whole, and then calls it damaged: it asks no
more and no less than whether the bytes with that bit turned can be read. Where it makes a record
shorter, only the checksum can tell, and there is one timestamp with which it does not. -/

namespace LogStore

/-! Bits of numbers, words and bytes. -/

theorem xor_two_pow_of_clear {n j : Nat} (h : n.testBit j = false) : n ^^^ 2 ^ j = n + 2 ^ j := by
  induction j generalizing n with
  | zero =>
    have heven : n % 2 = 0 := by simpa using h
    have hdiv := @Nat.xor_div_two n 1
    have hmod := @Nat.xor_mod_two_eq_one n 1
    rw [show 1 / 2 = 0 from rfl, Nat.xor_zero] at hdiv
    rw [Nat.pow_zero]
    omega
  | succ j ih =>
    rw [Nat.testBit_succ] at h
    have hdiv := @Nat.xor_div_two n (2 ^ (j + 1))
    have hmod := @Nat.xor_mod_two_eq_one n (2 ^ (j + 1))
    have hhalf : 2 ^ (j + 1) / 2 = 2 ^ j := by omega
    rw [hhalf, ih h] at hdiv
    omega

/-- The bytes with one bit turned over. Bits are counted from the front, those of a byte from its
lowest. -/
def flipBit (i : Nat) (bs : Bytes) : Bytes :=
  bs.modify (i / 8) (· ^^^ 1 <<< UInt8.ofNat (i % 8))

def bitAt (i : Nat) (bs : Bytes) : Bool := (bs.getD (i / 8) 0).toNat.testBit (i % 8)

theorem flipBit_append {i : Nat} {as : Bytes} (h : 8 * as.length ≤ i) (bs : Bytes) :
    flipBit i (as ++ bs) = as ++ flipBit (i - 8 * as.length) bs := by
  induction as generalizing i with
  | nil => rfl
  | cons a as ih =>
    rw [List.length_cons] at h
    have hdiv : i / 8 = (i - 8) / 8 + 1 := by omega
    have hmod : i % 8 = (i - 8) % 8 := by omega
    have hstep : flipBit i (a :: (as ++ bs)) = a :: flipBit (i - 8) (as ++ bs) := by
      rw [flipBit, flipBit, hdiv, hmod, List.modify_succ_cons]
    rw [List.cons_append, hstep, ih (by omega), List.length_cons,
      show i - 8 - 8 * as.length = i - 8 * (as.length + 1) by omega, List.cons_append]

theorem bitAt_append {i : Nat} {as : Bytes} (h : 8 * as.length ≤ i) (bs : Bytes) :
    bitAt i (as ++ bs) = bitAt (i - 8 * as.length) bs := by
  have hdiv : i / 8 - as.length = (i - 8 * as.length) / 8 := by omega
  have hmod : i % 8 = (i - 8 * as.length) % 8 := by omega
  rw [bitAt, bitAt, List.getD_eq_getElem?_getD, List.getD_eq_getElem?_getD,
    List.getElem?_append_right (by omega), hdiv, hmod]

theorem toUInt8_one_shiftLeft : ∀ j < 32, ∀ k < 4,
    ((1 : UInt32) <<< UInt32.ofNat j >>> UInt32.ofNat (8 * k)).toUInt8 =
      if j / 8 = k then 1 <<< UInt8.ofNat (j % 8) else 0 := by
  decide

theorem flipBit_wordBytes {j : Nat} (hj : j < 32) (w : UInt32) (rest : Bytes) :
    flipBit j (wordBytes w ++ rest) = wordBytes (w ^^^ 1 <<< UInt32.ofNat j) ++ rest := by
  have h0 := toUInt8_one_shiftLeft j hj 0 (by decide)
  have h1 := toUInt8_one_shiftLeft j hj 1 (by decide)
  have h2 := toUInt8_one_shiftLeft j hj 2 (by decide)
  have h3 := toUInt8_one_shiftLeft j hj 3 (by decide)
  have hk : j / 8 < 4 := by omega
  unfold flipBit
  generalize j / 8 = k at *
  obtain rfl | rfl | rfl | rfl : k = 0 ∨ k = 1 ∨ k = 2 ∨ k = 3 := by omega
  all_goals simp_all [wordBytes, UInt32.shiftRight_xor]

theorem toNat_getD_wordBytes (w : UInt32) {k : Nat} (hk : k < 4) :
    ((wordBytes w).getD k 0).toNat = (w.toNat >>> (8 * k)) % 2 ^ 8 := by
  obtain rfl | rfl | rfl | rfl : k = 0 ∨ k = 1 ∨ k = 2 ∨ k = 3 := by omega
  all_goals simp [wordBytes]

theorem bitAt_wordBytes {j : Nat} (hj : j < 32) (w : UInt32) (rest : Bytes) :
    bitAt j (wordBytes w ++ rest) = w.toNat.testBit j := by
  have hk : j / 8 < 4 := by omega
  have hget : (wordBytes w ++ rest).getD (j / 8) 0 = (wordBytes w).getD (j / 8) 0 := by
    rw [List.getD_eq_getElem?_getD, List.getElem?_append_left (by rw [wordBytes_length]; exact hk),
      List.getD_eq_getElem?_getD]
  rw [bitAt, hget, toNat_getD_wordBytes w hk, Nat.testBit_mod_two_pow, Nat.testBit_shiftRight,
    Nat.div_add_mod, decide_eq_true (Nat.mod_lt j (by decide)), Bool.true_and]

theorem toNat_one_shiftLeft {j : Nat} (hj : j < 32) :
    (1 <<< UInt32.ofNat j : UInt32).toNat = 2 ^ j := by
  have hs : UInt32.size = 2 ^ 32 := rfl
  rw [UInt32.toNat_shiftLeft, UInt32.toNat_ofNat_of_lt' (by omega), Nat.mod_eq_of_lt hj,
    UInt32.toNat_one, Nat.shiftLeft_eq, Nat.one_mul,
    Nat.mod_eq_of_lt (Nat.pow_lt_pow_right (by decide) hj)]

theorem toNat_flip_of_clear {j : Nat} (hj : j < 32) {w : UInt32} (h : w.toNat.testBit j = false) :
    (w ^^^ 1 <<< UInt32.ofNat j).toNat = w.toNat + 2 ^ j := by
  rw [UInt32.toNat_xor, toNat_one_shiftLeft hj, xor_two_pow_of_clear h]

theorem testBit_flip {j : Nat} (hj : j < 32) (w : UInt32) :
    (w ^^^ 1 <<< UInt32.ofNat j).toNat.testBit j = !w.toNat.testBit j := by
  rw [UInt32.toNat_xor, toNat_one_shiftLeft hj, Nat.testBit_xor, Nat.testBit_two_pow_self,
    Bool.xor_true]

namespace Header

/-- The header with one bit of a length turned over; the bits are those of the whole record, of
which the lengths are bits 64 to 127. -/
def flipLength (i : Nat) (h : Header) : Header :=
  if i < 96 then { h with keyLen := h.keyLen ^^^ 1 <<< UInt32.ofNat (i - 64) }
  else { h with valueLen := h.valueLen ^^^ 1 <<< UInt32.ofNat (i - 96) }

variable {i : Nat} {h : Header} {body : Bytes}

theorem crc_flipLength : (h.flipLength i).crc = h.crc := by
  unfold flipLength
  split <;> rfl

theorem flipLength_flipLength : (h.flipLength i).flipLength i = h := by
  unfold flipLength
  split
  · rw [UInt32.xor_assoc, UInt32.xor_self, UInt32.xor_zero]
  · rw [UInt32.xor_assoc, UInt32.xor_self, UInt32.xor_zero]

theorem mem_lengthFlips {h' : Header} :
    h' ∈ h.lengthFlips ↔ ∃ i, 64 ≤ i ∧ i < 128 ∧ h' = h.flipLength i := by
  simp only [lengthFlips, List.mem_append, List.mem_map, List.mem_range]
  constructor
  · rintro (⟨j, hj, rfl⟩ | ⟨j, hj, rfl⟩)
    · refine ⟨64 + j, by omega, by omega, ?_⟩
      rw [flipLength, if_pos (by omega), Nat.add_sub_cancel_left]
    · refine ⟨96 + j, by omega, by omega, ?_⟩
      rw [flipLength, if_neg (by omega), Nat.add_sub_cancel_left]
  · rintro ⟨i, hlo, hhi, rfl⟩
    by_cases hi : i < 96
    · exact .inl ⟨i - 64, by omega, by rw [flipLength, if_pos hi]⟩
    · exact .inr ⟨i - 96, by omega, by rw [flipLength, if_neg hi]⟩

theorem flipBit_bytes (hlo : 64 ≤ i) (hhi : i < 128) (h : Header) (body : Bytes) :
    flipBit i (h.bytes ++ body) = (h.flipLength i).bytes ++ body := by
  simp only [bytes, covered, List.append_assoc]
  rw [flipBit_append (by rw [wordBytes_length]; omega),
    flipBit_append (by simp only [wordBytes_length]; omega)]
  simp only [wordBytes_length]
  by_cases hi : i < 96
  · rw [flipBit_wordBytes (by omega), flipLength, if_pos hi]
    rfl
  · rw [flipBit_append (by rw [wordBytes_length]; omega), wordBytes_length,
      flipBit_wordBytes (by omega), flipLength, if_neg hi]
    rfl

theorem bitAt_bytes (hlo : 64 ≤ i) (hhi : i < 128) (h : Header) (body : Bytes) :
    bitAt i (h.bytes ++ body) =
      if i < 96 then h.keyLen.toNat.testBit (i - 64) else h.valueLen.toNat.testBit (i - 96) := by
  simp only [bytes, covered, List.append_assoc]
  rw [bitAt_append (by rw [wordBytes_length]; omega),
    bitAt_append (by simp only [wordBytes_length]; omega)]
  simp only [wordBytes_length]
  by_cases hi : i < 96
  · rw [bitAt_wordBytes (by omega), if_pos hi]
    rfl
  · rw [bitAt_append (by rw [wordBytes_length]; omega), wordBytes_length,
      bitAt_wordBytes (by omega), if_neg hi]
    rfl

theorem bitAt_flipLength (hlo : 64 ≤ i) (hhi : i < 128) (h : Header) (body : Bytes) :
    bitAt i ((h.flipLength i).bytes ++ body) = !bitAt i (h.bytes ++ body) := by
  rw [bitAt_bytes hlo hhi, bitAt_bytes hlo hhi]
  by_cases hi : i < 96
  · rw [if_pos hi, if_pos hi, flipLength, if_pos hi]
    exact testBit_flip (by omega) _
  · rw [if_neg hi, if_neg hi, flipLength, if_neg hi]
    exact testBit_flip (by omega) _

/-- Turning a bit on makes a record longer by what the bit stands for. -/
theorem bodyLen_flipLength_of_clear (hlo : 64 ≤ i) (hhi : i < 128)
    (hbit : bitAt i (h.bytes ++ body) = false) :
    (h.flipLength i).bodyLen = h.bodyLen + 2 ^ ((i - 64) % 32) := by
  rw [bitAt_bytes hlo hhi] at hbit
  by_cases hi : i < 96
  · rw [if_pos hi] at hbit
    rw [flipLength, if_pos hi, bodyLen, bodyLen, toNat_flip_of_clear (by omega) hbit,
      Nat.mod_eq_of_lt (by omega)]
    exact Nat.add_right_comm ..
  · rw [if_neg hi] at hbit
    rw [flipLength, if_neg hi, bodyLen, bodyLen, toNat_flip_of_clear (by omega) hbit,
      show (i - 64) % 32 = i - 96 by omega]
    exact (Nat.add_assoc ..).symm

theorem bodyLen_flipLength_of_set (hlo : 64 ≤ i) (hhi : i < 128)
    (hbit : bitAt i (h.bytes ++ body) = true) :
    h.bodyLen = (h.flipLength i).bodyLen + 2 ^ ((i - 64) % 32) := by
  have hclear : bitAt i ((h.flipLength i).bytes ++ body) = false := by
    rw [bitAt_flipLength hlo hhi, hbit, Bool.not_true]
  rw [← bodyLen_flipLength_of_clear hlo hhi hclear, flipLength_flipLength]

end Header

/-- Turning over one bit of a length makes these bytes start with a record. -/
def Mendable (b : Bytes) : Prop :=
  ∃ i, 64 ≤ i ∧ i < 128 ∧ ∃ r rest, Record.decode (flipBit i b) = (.ok r, rest)

namespace Record

variable {i : Nat} {h : Header} {body key value : Bytes}

theorem decode_flipBit (hlo : 64 ≤ i) (hhi : i < 128) (h : Header) (body : Bytes) :
    decode (flipBit i (h.bytes ++ body)) =
      ((h.flipLength i).toRecord (body.take (h.flipLength i).bodyLen),
        body.drop (h.flipLength i).bodyLen) := by
  rw [Header.flipBit_bytes hlo hhi, decode_header]

/-- The search for a bit to turn back finds one exactly where reading on from it would. -/
theorem any_fits_iff : h.lengthFlips.any (·.fits body) = true ↔ Mendable (h.bytes ++ body) := by
  simp only [List.any_eq_true, Header.fits_iff, Header.mem_lengthFlips]
  constructor
  · rintro ⟨-, ⟨i, hlo, hhi, rfl⟩, r, hr⟩
    exact ⟨i, hlo, hhi, r, _, by rw [decode_flipBit hlo hhi, hr]⟩
  · rintro ⟨i, hlo, hhi, r, rest, hr⟩
    rw [decode_flipBit hlo hhi] at hr
    exact ⟨_, ⟨i, hlo, hhi, rfl⟩, r, congrArg Prod.fst hr⟩

/-- A record that runs past the end of the bytes is damaged if it can be mended, and torn if not. -/
theorem decode_past_end (hpast : body.length < h.bodyLen) :
    (Mendable (h.bytes ++ body) → (decode (h.bytes ++ body)).1 =
      .error (.corruptRecord h.crc (Checksum.crc32 ((h.bytes ++ body).drop 4)))) ∧
    (¬ Mendable (h.bytes ++ body) → (decode (h.bytes ++ body)).1 =
      .error (.truncatedRecord (Header.size + h.bodyLen) (h.bytes ++ body).length)) := by
  rw [decode_header, List.take_of_length_le hpast.le, Header.toRecord_short hpast,
    List.length_append, Header.bytes_length, ← Header.checksum_eq]
  constructor
  · intro hmend
    rw [if_pos (any_fits_iff.mpr hmend)]
  · intro hmend
    rw [if_neg (mt any_fits_iff.mp hmend)]

theorem decode_grown {r : Record} (hr : r.Fits) (hlo : 64 ≤ i) (hhi : i < 128) {after : Bytes}
    (hpast : (r.key ++ r.value ++ after).length < (r.header.flipLength i).bodyLen) :
    ∃ y, (decode (flipBit i (r.bytes ++ after))).1 =
      .error (.corruptRecord r.header.crc y) := by
  have hflip : flipBit i (r.bytes ++ after) =
      (r.header.flipLength i).bytes ++ (r.key ++ r.value ++ after) := by
    rw [bytes, List.append_assoc, Header.flipBit_bytes hlo hhi, List.append_assoc]
  have hmend : Mendable ((r.header.flipLength i).bytes ++ (r.key ++ r.value ++ after)) := by
    refine ⟨i, hlo, hhi, r, after, ?_⟩
    rw [Header.flipBit_bytes hlo hhi, Header.flipLength_flipLength, ← List.append_assoc,
      ← bytes, decode_bytes hr]
  exact ⟨_, by rw [hflip, (decode_past_end hpast).1 hmend, Header.crc_flipLength]⟩

theorem decode_shrunk {r : Record} (hlo : 64 ≤ i) (hhi : i < 128)
    (hless : (r.header.flipLength i).bodyLen < (r.key ++ r.value).length) :
    (r.header.crc = (r.header.flipLength i).checksum
        ((r.key ++ r.value).take (r.header.flipLength i).bodyLen) →
      ∃ s rest, rest ≠ [] ∧ decode (flipBit i r.bytes) = (.ok s, rest)) ∧
    (r.header.crc ≠ (r.header.flipLength i).checksum
        ((r.key ++ r.value).take (r.header.flipLength i).bodyLen) →
      ∃ y, (decode (flipBit i r.bytes)).1 = .error (.corruptRecord r.header.crc y)) := by
  rw [bytes, decode_flipBit hlo hhi, Header.toRecord, if_neg (by rw [List.length_take]; omega),
    Header.crc_flipLength]
  constructor
  · intro hcrc
    rw [if_pos hcrc.symm]
    refine ⟨_, _, ?_, rfl⟩
    rw [ne_eq, List.drop_eq_nil_iff]
    omega
  · intro hcrc
    rw [if_neg (Ne.symm hcrc)]
    exact ⟨_, rfl⟩

/-- The timestamp has no part in the lengths. -/
theorem flipLength_header (i : Nat) (t : UInt32) (key value : Bytes) :
    (header ⟨t, key, value⟩).flipLength i =
      { (blankHeader ⟨0, key, value⟩).flipLength i with
        timestamp := t, crc := (header ⟨t, key, value⟩).crc } := by
  unfold Header.flipLength
  split <;> rfl

/-- Of the timestamps that a record can have, exactly one keeps the checksum from telling that a
length has shrunk. -/
theorem existsUnique_stamp {k : Nat}
    (hless : (key ++ value).length = ((header ⟨0, key, value⟩).flipLength i).bodyLen + 2 ^ k) :
    ∃! t, (header ⟨t, key, value⟩).crc = ((header ⟨t, key, value⟩).flipLength i).checksum
      ((key ++ value).take ((header ⟨t, key, value⟩).flipLength i).bodyLen) := by
  rw [flipLength_header] at hless
  generalize hg : (blankHeader ⟨0, key, value⟩).flipLength i = g at hless
  change (key ++ value).length = g.bodyLen + 2 ^ k at hless
  let as := wordBytes (UInt32.ofNat key.length) ++ wordBytes (UInt32.ofNat value.length) ++
    (key ++ value)
  let bs := wordBytes g.keyLen ++ wordBytes g.valueLen ++ (key ++ value).take g.bodyLen
  have hlen : as.length = bs.length + 2 ^ k := by
    have := Nat.two_pow_pos k
    simp only [as, bs, List.length_append, wordBytes_length, List.length_take] at hless ⊢
    omega
  have hsame : ∀ t, ((header ⟨t, key, value⟩).crc = ((header ⟨t, key, value⟩).flipLength i).checksum
      ((key ++ value).take ((header ⟨t, key, value⟩).flipLength i).bodyLen) ↔
      Checksum.crc32 (wordBytes t ++ as) = Checksum.crc32 (wordBytes t ++ bs)) := by
    intro t
    rw [flipLength_header, hg]
    simp only [header, blankHeader, Header.checksum, Header.covered, as, bs, List.append_assoc]
    rfl
  simpa only [hsame] using Checksum.existsUnique_crc32_eq hlen

theorem decode_flipped_clear {r : Record} (hr : r.Fits) (hlo : 64 ≤ i) (hhi : i < 128)
    (hclear : bitAt i r.bytes = false) :
    ∃ y, (decode (flipBit i r.bytes)).1 = .error (.corruptRecord r.header.crc y) := by
  have hgrown := Header.bodyLen_flipLength_of_clear hlo hhi hclear
  have hpast : (r.key ++ r.value ++ []).length < (r.header.flipLength i).bodyLen := by
    have := Nat.two_pow_pos ((i - 64) % 32)
    rw [hgrown, bodyLen_header hr, List.append_nil, List.length_append]
    omega
  have hdecode := decode_grown hr hlo hhi hpast
  rwa [List.append_nil] at hdecode

theorem bitAt_stamp (hlo : 64 ≤ i) (hhi : i < 128) (t : UInt32) (key value : Bytes) :
    bitAt i (bytes ⟨t, key, value⟩) = bitAt i (bytes ⟨0, key, value⟩) := by
  rw [bytes, Header.bitAt_bytes hlo hhi, bytes, Header.bitAt_bytes hlo hhi]
  rfl

/-- A record whose length has shrunk is read as another one with one timestamp, and with no
other. -/
theorem decode_flipped_set (hfits : ∀ t, Fits ⟨t, key, value⟩) (hlo : 64 ≤ i) (hhi : i < 128)
    (hset : bitAt i (bytes ⟨0, key, value⟩) = true) :
    ∃ t₀, ∀ t, (t ≠ t₀ → ∃ x y,
        (decode (flipBit i (bytes ⟨t, key, value⟩))).1 = .error (.corruptRecord x y)) ∧
      (t = t₀ → ∃ s rest, rest ≠ [] ∧
        decode (flipBit i (bytes ⟨t, key, value⟩)) = (.ok s, rest)) := by
  have hshrunk : ∀ t, (key ++ value).length =
      ((header ⟨t, key, value⟩).flipLength i).bodyLen + 2 ^ ((i - 64) % 32) := by
    intro t
    have hbit := (bitAt_stamp hlo hhi t key value).trans hset
    rw [List.length_append, ← bodyLen_header (hfits t)]
    exact Header.bodyLen_flipLength_of_set hlo hhi hbit
  obtain ⟨t₀, ht₀, hunique⟩ := existsUnique_stamp (hshrunk 0)
  refine ⟨t₀, fun t => ?_⟩
  have hless : ((header ⟨t, key, value⟩).flipLength i).bodyLen < (key ++ value).length := by
    have := Nat.two_pow_pos ((i - 64) % 32)
    have := hshrunk t
    omega
  obtain ⟨hread, hdamaged⟩ := decode_shrunk (r := ⟨t, key, value⟩) hlo hhi hless
  constructor
  · intro hne
    obtain ⟨y, hy⟩ := hdamaged fun hcrc => hne (hunique t hcrc)
    exact ⟨_, y, hy⟩
  · rintro rfl
    exact hread ht₀

end Record

/-- Where the lengths announce more than there is, a record is called damaged exactly if turning
over one bit of them would make the decoder read a record, and torn otherwise. So a length that
has grown past the end of a log is always found, whatever records follow. -/
theorem corrupt_iff_mendable :
    (∀ b : Bytes, 16 ≤ b.length → ∃ crc stamp keyLen valueLen : UInt32,
      b.take 16 = wordBytes crc ++ wordBytes stamp ++ wordBytes keyLen ++ wordBytes valueLen ∧
      (b.length < 16 + (keyLen.toNat + valueLen.toNat) →
        ((∃ x y rest, Record.decode b = (.error (.corruptRecord x y), rest)) ↔ Mendable b) ∧
        (Mendable b → (Record.decode b).1 =
          .error (.corruptRecord crc (Checksum.crc32 (b.drop 4)))) ∧
        (¬ Mendable b → (Record.decode b).1 =
          .error (.truncatedRecord (16 + (keyLen.toNat + valueLen.toNat)) b.length)))) ∧
    ∀ (before : List Record) (r : Record) (after : List Record) (i : Nat),
      (∀ s ∈ before ++ r :: after, s.Fits) → 64 ≤ i → i < 128 →
      (∃ h, Header.ofBytes? (flipBit i r.bytes) = some h ∧
        (r.bytes ++ logBytes after).length < 16 + h.bodyLen) →
      ∃ x y, Record.calls (before.length + 1) (logBytes before ++ flipBit i r.bytes ++
        logBytes after) = before.map .ok ++ [.error (.corruptRecord x y)] := by
  constructor
  · intro b hb
    obtain ⟨h, body, rfl⟩ := Header.exists_bytes (show Header.size ≤ b.length from hb)
    refine ⟨h.crc, h.timestamp, h.keyLen, h.valueLen, ?_, fun hpast => ?_⟩
    · refine (List.take_left' h.bytes_length).trans ?_
      simp only [Header.bytes, Header.covered, List.append_assoc]
    · have hshort : body.length < h.bodyLen := by
        rw [List.length_append, Header.bytes_length, Header.size] at hpast
        exact Nat.lt_of_add_lt_add_left hpast
      obtain ⟨hdamaged, htorn⟩ := Record.decode_past_end hshort
      refine ⟨⟨?_, fun hmend => ⟨_, _, _, Prod.ext (hdamaged hmend) rfl⟩⟩, hdamaged, htorn⟩
      rintro ⟨x, y, rest, hdecode⟩
      by_contra hmend
      rw [hdecode] at htorn
      cases htorn hmend
  · intro before r after i hfits hlo hhi hruns
    obtain ⟨h, hh, hpast⟩ := hruns
    have hr : r.Fits := hfits r (by simp)
    have hflip : h = r.header.flipLength i := by
      rw [Record.bytes, Header.flipBit_bytes hlo hhi, Header.ofBytes?_bytes] at hh
      exact (Option.some.inj hh).symm
    have hgrown : (r.key ++ r.value ++ logBytes after).length <
        (r.header.flipLength i).bodyLen := by
      rw [← hflip]
      simp only [Record.bytes, List.length_append, Header.bytes_length, Header.size] at hpast ⊢
      omega
    obtain ⟨y, hy⟩ := Record.decode_grown hr hlo hhi hgrown
    have hstep : flipBit i r.bytes ++ logBytes after = flipBit i (r.bytes ++ logBytes after) := by
      simp only [Record.bytes, List.append_assoc, Header.flipBit_bytes hlo hhi]
    refine ⟨r.header.crc, y, ?_⟩
    rw [List.append_assoc, Record.calls_logBytes_append fun s hs => hfits s (by simp [hs]), hstep,
      Record.calls, hy]
    rfl

/-- The first of two records announces a value 16 MiB longer than it is. -/
theorem corrupt_iff_mendable_first : ∃ x y,
    Record.calls 1 (flipBit 120 (Record.bytes ⟨1, [97], [49]⟩) ++ Record.bytes ⟨2, [98], [50]⟩) =
      [.error (.corruptRecord x y)] := by
  have hall := corrupt_iff_mendable.2 [] ⟨1, [97], [49]⟩ [⟨2, [98], [50]⟩] 120 (by decide)
    (by decide) (by decide) ⟨_, rfl, by decide⟩
  rwa [logBytes_nil, List.nil_append, logBytes_singleton] at hall

/-- A record with a bit of a length turned over is called damaged, and never torn. It is taken for
another record, a shorter one, in one case alone: the bit was set, and the timestamp is the one of
all timestamps with which the checksum of what is left is that of the whole. -/
theorem decode_flipped_length {key value : Bytes} {i : Nat} (hlo : 64 ≤ i) (hhi : i < 128) :
    ∃ t₀ : UInt32, ∀ t b, Record.encode ⟨t, key, value⟩ = .ok b →
      (¬ (bitAt i b = true ∧ t = t₀) →
        ∃ x y, (Record.decode (flipBit i b)).1 = .error (.corruptRecord x y)) ∧
      (bitAt i b = true ∧ t = t₀ → ∃ s front rest, s.encode = .ok front ∧ rest ≠ [] ∧
        flipBit i b = front ++ rest ∧ Record.decode (flipBit i b) = (.ok s, rest)) := by
  by_cases hfits : key.length < UInt32.size ∧ value.length < UInt32.size
  · have hbit := fun t => Record.bitAt_stamp hlo hhi t key value
    cases hzero : bitAt i (Record.bytes ⟨0, key, value⟩) with
    | false =>
      refine ⟨0, fun t b hb => ?_⟩
      obtain ⟨hr, rfl⟩ := Record.encode_eq_ok_iff.mp hb
      have hclear := (hbit t).trans hzero
      constructor
      · intro _
        obtain ⟨y, hy⟩ := Record.decode_flipped_clear hr hlo hhi hclear
        exact ⟨_, y, hy⟩
      · rintro ⟨hset, -⟩
        cases hclear.symm.trans hset
    | true =>
      obtain ⟨t₀, hall⟩ := Record.decode_flipped_set (fun _ => hfits) hlo hhi hzero
      refine ⟨t₀, fun t b hb => ?_⟩
      obtain ⟨-, rfl⟩ := Record.encode_eq_ok_iff.mp hb
      constructor
      · intro hnot
        exact (hall t).1 fun ht => hnot ⟨(hbit t).trans hzero, ht⟩
      · rintro ⟨-, ht⟩
        obtain ⟨s, rest, hne, hs⟩ := (hall t).2 ht
        obtain ⟨hfit, hfront⟩ := Record.eq_bytes_of_decode hs
        exact ⟨s, s.bytes, rest, Record.encode_of_fits hfit, hne, hfront, hs⟩
  · refine ⟨0, fun t b hb => ?_⟩
    exact absurd (Record.encode_eq_ok_iff.mp hb).1 hfits

def blindStamp : UInt32 := 1282691449

theorem decode_blindStamp :
    Record.decode (flipBit 98 (Record.bytes ⟨blindStamp, [107], [102, 111, 117, 114]⟩)) =
      (.ok (.tombstone [107] blindStamp), [102, 111, 117, 114]) := by
  decide +kernel

/-- Nothing but that one timestamp is mistaken. -/
theorem decode_flipped_length_four : 64 ≤ 98 ∧ 98 < 128 ∧
    ∀ t ≠ blindStamp, ∃ b, Record.encode ⟨t, [107], [102, 111, 117, 114]⟩ = .ok b ∧
      ∃ x y, (Record.decode (flipBit 98 b)).1 = .error (.corruptRecord x y) := by
  have hencode (t : UInt32) : Record.encode ⟨t, [107], [102, 111, 117, 114]⟩ =
      .ok (Record.bytes ⟨t, [107], [102, 111, 117, 114]⟩) :=
    Record.encode_of_fits ⟨show 1 < UInt32.size by decide, show 4 < UInt32.size by decide⟩
  obtain ⟨t₀, hall⟩ :=
    @decode_flipped_length [107] [102, 111, 117, 114] 98 (by decide) (by decide)
  have hblind : blindStamp = t₀ := by
    by_contra hne
    obtain ⟨x, y, hcorrupt⟩ := (hall blindStamp _ (hencode _)).1 fun h => hne h.2
    rw [decode_blindStamp] at hcorrupt
    cases hcorrupt
  refine ⟨by decide, by decide, fun t ht => ⟨_, hencode t, ?_⟩⟩
  exact (hall t _ (hencode t)).1 fun h => ht (h.2.trans hblind.symm)

/-- A value is lost, and a deletion read in its place. -/
theorem flipped_length_read_as_tombstone : ∃ b,
    Record.encode ⟨blindStamp, [107], [102, 111, 117, 114]⟩ = .ok b ∧
      Record.decode (flipBit 98 b) =
        (.ok (.tombstone [107] blindStamp), [102, 111, 117, 114]) :=
  ⟨_, Record.encode_of_fits (by decide), decode_blindStamp⟩

end LogStore
