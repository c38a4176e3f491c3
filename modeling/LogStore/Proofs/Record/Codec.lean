import Mathlib.Order.Nat
import Mathlib.Tactic.Common
import LogStore.Record.Decode

/-! Reading takes exactly what writing makes: `decode` gives a record back if and only
if the input starts with the bytes of that record, and leaves all that follows them.
Everything else is the end of the input, a torn record, or damage. -/

namespace LogStore

namespace Header

theorem exists_bytes {bs : Bytes} (h : size ≤ bs.length) :
    ∃ (hd : Header) (body : Bytes), bs = hd.bytes ++ body := by
  match bs with
  | c₀ :: c₁ :: c₂ :: c₃ :: t₀ :: t₁ :: t₂ :: t₃ ::
    k₀ :: k₁ :: k₂ :: k₃ :: v₀ :: v₁ :: v₂ :: v₃ :: body =>
    refine ⟨⟨wordOf c₀ c₁ c₂ c₃, wordOf t₀ t₁ t₂ t₃, wordOf k₀ k₁ k₂ k₃,
      wordOf v₀ v₁ v₂ v₃⟩, body, ?_⟩
    simp only [bytes, covered, wordBytes_wordOf]
    rfl
  | [] | [_] | [_, _] | [_, _, _] | [_, _, _, _] | [_, _, _, _, _] | [_, _, _, _, _, _]
  | [_, _, _, _, _, _, _] | [_, _, _, _, _, _, _, _] | [_, _, _, _, _, _, _, _, _]
  | [_, _, _, _, _, _, _, _, _, _] | [_, _, _, _, _, _, _, _, _, _, _]
  | [_, _, _, _, _, _, _, _, _, _, _, _] | [_, _, _, _, _, _, _, _, _, _, _, _, _]
  | [_, _, _, _, _, _, _, _, _, _, _, _, _, _]
  | [_, _, _, _, _, _, _, _, _, _, _, _, _, _, _] =>
    simp [size] at h

theorem ofBytes?_short {bs : Bytes} (h : bs.length < size) : ofBytes? bs = none := by
  cases e : ofBytes? bs with
  | none => rfl
  | some hd => exact absurd (length_of_ofBytes? e) (by omega)

/-- The checksum that a reader computes is that of all bytes behind the checksum field. -/
theorem checksum_eq (h : Header) (body : Bytes) :
    h.checksum body = Checksum.crc32 ((h.bytes ++ body).drop 4) := rfl

/-- A record is read exactly where the whole body is there and the checksum is its own. -/
theorem toRecord_eq_ok_iff {h : Header} {body : Bytes} {r : Record} :
    h.toRecord body = .ok r ↔ h.bodyLen ≤ body.length ∧ h.checksum body = h.crc ∧
      r = ⟨h.timestamp, body.take h.keyLen.toNat, body.drop h.keyLen.toNat⟩ := by
  unfold toRecord
  split
  · split <;> simp <;> omega
  · split
    · simp_all
      exact eq_comm
    · simp_all

theorem fits_iff {h : Header} {body : Bytes} :
    h.fits body = true ↔ ∃ r, h.toRecord (body.take h.bodyLen) = .ok r := by
  simp only [fits, Bool.and_eq_true, decide_eq_true_eq, beq_iff_eq, toRecord_eq_ok_iff,
    List.length_take]
  constructor
  · rintro ⟨hl, hc⟩
    exact ⟨_, by omega, hc, rfl⟩
  · rintro ⟨r, hl, hc, -⟩
    exact ⟨by omega, hc⟩

theorem toRecord_short {h : Header} {body : Bytes} (hl : body.length < h.bodyLen) :
    h.toRecord body = .error (if h.lengthFlips.any (·.fits body)
      then .corruptRecord h.crc (h.checksum body)
      else .truncatedRecord (size + h.bodyLen) (size + body.length)) := by
  unfold toRecord
  rw [if_pos hl]
  split <;> rfl

end Header

namespace Record

def Fits (r : Record) : Prop := r.key.length < UInt32.size ∧ r.value.length < UInt32.size

instance (r : Record) : Decidable r.Fits := inferInstanceAs (Decidable (_ ∧ _))

theorem encode_of_fits {r : Record} (h : r.Fits) : r.encode = .ok r.bytes := by
  unfold encode checkLengths
  rw [if_neg (Nat.not_le.mpr h.1), if_neg (Nat.not_le.mpr h.2)]

theorem encode_eq_ok_iff {r : Record} {bs : Bytes} :
    r.encode = .ok bs ↔ r.Fits ∧ bs = r.bytes := by
  constructor
  · intro h
    by_cases hf : r.Fits
    · rw [encode_of_fits hf] at h
      exact ⟨hf, (Except.ok.inj h).symm⟩
    · simp only [Fits, not_and_or, Nat.not_lt] at hf
      unfold encode checkLengths at h
      split at h
      · cases h
      · rename_i hok
        split at hok
        · cases hok
        · split at hok
          · cases hok
          · omega
  · rintro ⟨hf, rfl⟩
    exact encode_of_fits hf

theorem bodyLen_header {r : Record} (h : r.Fits) :
    r.header.bodyLen = r.key.length + r.value.length := by
  simp only [Header.bodyLen, header, blankHeader, UInt32.toNat_ofNat_of_lt' h.1,
    UInt32.toNat_ofNat_of_lt' h.2]

theorem keyLen_header {r : Record} (h : r.Fits) : r.header.keyLen.toNat = r.key.length := by
  simp only [header, blankHeader, UInt32.toNat_ofNat_of_lt' h.1]

@[simp] theorem bytes_ne_nil (r : Record) : r.bytes ≠ [] := by
  simp [bytes, Header.bytes, wordBytes]

theorem encodedLen_pos (r : Record) : 0 < r.encodedLen := by
  simp only [encodedLen, Header.size]
  omega

/-! What a call makes of bytes in memory, by the length of what is there. -/

theorem decode_nil : decode ([] : Bytes) = (.error .endOfLog, []) := rfl

theorem decode_short {bs : Bytes} (h0 : bs ≠ []) (h : bs.length < Header.size) :
    decode bs = (.error (.truncatedRecord Header.size bs.length), []) := by
  have ht : bs.take Header.size = bs := List.take_of_length_le (by omega)
  have hd : bs.drop Header.size = [] := List.drop_eq_nil_of_le (by omega)
  simp only [decode, Source.fill, ht, hd, Header.ofBytes?_short h, List.isEmpty_iff, h0,
    if_false]

theorem decode_header (h : Header) (body : Bytes) :
    decode (h.bytes ++ body) = (h.toRecord (body.take h.bodyLen), body.drop h.bodyLen) := by
  have ht : (h.bytes ++ body).take Header.size = h.bytes := List.take_left' h.bytes_length
  have hd : (h.bytes ++ body).drop Header.size = body := List.drop_left' h.bytes_length
  have ho : Header.ofBytes? h.bytes = some h := by simpa using Header.ofBytes?_bytes h []
  simp only [decode, Source.fill, ht, hd, ho]

theorem decode_bytes {r : Record} (h : r.Fits) (rest : Bytes) :
    decode (r.bytes ++ rest) = (.ok r, rest) := by
  have hb : (r.key ++ r.value).length = r.header.bodyLen := by
    rw [bodyLen_header h, List.length_append]
  rw [bytes, List.append_assoc, decode_header, List.take_left' hb, List.drop_left' hb]
  congr 1
  rw [Header.toRecord_eq_ok_iff]
  refine ⟨hb.ge, rfl, ?_⟩
  rw [keyLen_header h, List.take_left, List.drop_left]
  rfl

/-- Whatever is read as a record was written as that record. -/
theorem eq_bytes_of_decode {bs rest : Bytes} {r : Record} (h : decode bs = (.ok r, rest)) :
    r.Fits ∧ bs = r.bytes ++ rest := by
  have hsize : Header.size ≤ bs.length := by
    by_contra hn
    by_cases h0 : bs = []
    · subst h0
      cases h
    · rw [decode_short h0 (by omega)] at h
      cases h
  obtain ⟨hd, body, rfl⟩ := Header.exists_bytes hsize
  rw [decode_header] at h
  simp only [Prod.mk.injEq] at h
  obtain ⟨hr, rfl⟩ := h
  obtain ⟨hlen, hcrc, rfl⟩ := Header.toRecord_eq_ok_iff.mp hr
  have hk : ((body.take hd.bodyLen).take hd.keyLen.toNat).length = hd.keyLen.toNat := by
    simp only [List.length_take, Header.bodyLen] at *
    omega
  have hv : ((body.take hd.bodyLen).drop hd.keyLen.toNat).length = hd.valueLen.toNat := by
    simp only [List.length_take, List.length_drop, Header.bodyLen] at *
    omega
  have hfits : Fits ⟨hd.timestamp, (body.take hd.bodyLen).take hd.keyLen.toNat,
      (body.take hd.bodyLen).drop hd.keyLen.toNat⟩ :=
    ⟨hk.trans_lt hd.keyLen.toNat_lt, hv.trans_lt hd.valueLen.toNat_lt⟩
  refine ⟨hfits, ?_⟩
  have hhead : header ⟨hd.timestamp, (body.take hd.bodyLen).take hd.keyLen.toNat,
      (body.take hd.bodyLen).drop hd.keyLen.toNat⟩ = hd := by
    simp only [header, blankHeader, hk, hv, UInt32.ofNat_toNat, List.take_append_drop]
    cases hd
    simp only [Header.mk.injEq, and_true]
    exact hcrc
  simp only [bytes, hhead, List.take_append_drop, List.append_assoc]

end Record

end LogStore
