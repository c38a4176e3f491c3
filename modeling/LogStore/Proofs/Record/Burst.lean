import LogStore.Proofs.Checksum
import LogStore.Proofs.Log.Canonical

/-! Damage to a few adjacent bytes of a record. It is always found, unless it touches the lengths:
the reader then has before it as many bytes as were written, and the checksum tells them apart. -/

namespace LogStore

/-- The second string is another one than the first, and differs from it only in a window of `n`
bytes from `a` on. -/
structure Burst (a n : Nat) (b b' : Bytes) : Prop where
  length_eq : b'.length = b.length
  outside : ∀ i, i < a ∨ a + n ≤ i → b'[i]? = b[i]?
  ne : b' ≠ b

namespace Burst

variable {a n k : Nat} {b b' : Bytes}

theorem take_eq (h : Burst a n b b') (hk : k ≤ a) : b'.take k = b.take k := by
  apply List.ext_getElem?
  intro i
  rw [List.getElem?_take, List.getElem?_take]
  split
  · exact h.outside i (.inl (by omega))
  · rfl

theorem drop_eq (h : Burst a n b b') (hk : a + n ≤ k) : b'.drop k = b.drop k := by
  apply List.ext_getElem?
  intro i
  rw [List.getElem?_drop, List.getElem?_drop]
  exact h.outside (k + i) (.inr (by omega))

theorem drop (h : Burst a n b b') (hk : k ≤ a) : Burst (a - k) n (b.drop k) (b'.drop k) := by
  refine ⟨?_, fun i hi => ?_, fun heq => h.ne ?_⟩
  · rw [List.length_drop, List.length_drop, h.length_eq]
  · rw [List.getElem?_drop, List.getElem?_drop]
    exact h.outside (k + i) (by omega)
  · rw [← List.take_append_drop k b', h.take_eq hk, heq, List.take_append_drop]

theorem set {i : Nat} {x : UInt8} (hi : i < b.length) (hx : b[i] ≠ x) :
    Burst i 1 b (b.set i x) := by
  refine ⟨List.length_set .., fun j hj => ?_, fun heq => hx ?_⟩
  · rw [List.getElem?_set_ne (by omega)]
  · have hsame := List.getElem?_set_self (a := x) hi
    rw [heq, List.getElem?_eq_getElem hi] at hsame
    exact Option.some.inj hsame

theorem split (b : Bytes) (a n : Nat) : b = b.take a ++ (b.drop a).take n ++ b.drop (a + n) := by
  rw [List.append_assoc, ← List.drop_drop, List.take_append_drop, List.take_append_drop]

/-- No damage of four bytes or less leaves the checksum as it was. -/
theorem crc32_ne (h : Burst a n b b') (hn : n ≤ 4) : Checksum.crc32 b' ≠ Checksum.crc32 b := by
  intro hcrc
  apply h.ne
  have htake := h.take_eq (Nat.le_refl a)
  have hdrop := h.drop_eq (Nat.le_refl (a + n))
  have hlen : ((b'.drop a).take n).length = ((b.drop a).take n).length := by
    rw [List.length_take, List.length_take, List.length_drop, List.length_drop, h.length_eq]
  rw [split b' a n, split b a n, htake, hdrop] at hcrc
  have hwindow := Checksum.eq_of_crc32_eq hlen (by rw [List.length_take]; omega) hcrc
  rw [split b' a n, htake, hwindow, hdrop, ← split]

end Burst

namespace Record

variable {r : Record} {a n : Nat} {b' : Bytes}

theorem crc_header (r : Record) : r.header.crc = Checksum.crc32 (r.bytes.drop 4) := rfl

theorem take_four_bytes (h : Header) (body : Bytes) :
    (h.bytes ++ body).take 4 = wordBytes h.crc := rfl

/-- Damage that leaves the lengths alone leaves a header and as many bytes behind it. -/
theorem exists_header_burst (h : Burst a n r.bytes b') (hwhere : a + n ≤ 8 ∨ 16 ≤ a) :
    ∃ (hd : Header) (body : Bytes), b' = hd.bytes ++ body ∧ hd.bodyLen = r.header.bodyLen ∧
      body.length = (r.key ++ r.value).length := by
  have hlen := h.length_eq
  have hsize : Header.size ≤ b'.length := by
    rw [hlen, bytes_length, encodedLen]
    omega
  obtain ⟨hd, body, rfl⟩ := Header.exists_bytes hsize
  have hlengths : ((hd.bytes ++ body).drop 8).take 8 = (r.bytes.drop 8).take 8 := by
    rcases hwhere with hfront | hback
    · rw [h.drop_eq hfront]
    · rw [List.take_drop, List.take_drop, h.take_eq hback]
  have hwords : wordBytes hd.keyLen ++ wordBytes hd.valueLen =
      wordBytes r.header.keyLen ++ wordBytes r.header.valueLen := hlengths
  obtain ⟨hkey, hvalue⟩ := List.append_inj' hwords rfl
  refine ⟨hd, body, rfl, ?_, ?_⟩
  · rw [Header.bodyLen, Header.bodyLen, Checksum.wordBytes_injective hkey,
      Checksum.wordBytes_injective hvalue]
  · rw [List.length_append, Header.bytes_length, bytes, List.length_append,
      Header.bytes_length] at hlen
    exact Nat.add_left_cancel hlen

theorem crc_burst {hd : Header} {body : Bytes} (h : Burst a n r.bytes (hd.bytes ++ body))
    (hn : n ≤ 4) (hwhere : a + n ≤ 4 ∨ 4 ≤ a) :
    Checksum.crc32 ((hd.bytes ++ body).drop 4) ≠ hd.crc := by
  rcases hwhere with hfront | hback
  · intro hcrc
    apply h.ne
    have hdrop := h.drop_eq hfront
    rw [hdrop, ← crc_header] at hcrc
    rw [← List.take_append_drop 4 (hd.bytes ++ body), hdrop, take_four_bytes, ← hcrc,
      ← take_four_bytes, ← bytes, List.take_append_drop]
  · have htake := h.take_eq hback
    rw [take_four_bytes, bytes, take_four_bytes] at htake
    rw [Checksum.wordBytes_injective htake, crc_header]
    exact (h.drop hback).crc32_ne hn

/-- Damage to four adjacent bytes or fewer of one field, the lengths apart, is found, whatever
follows the record; and the reader goes on behind the record. -/
theorem decode_burst (hr : r.Fits) (h : Burst a n r.bytes b') (hn : n ≤ 4)
    (hwhere : a + n ≤ 4 ∨ (4 ≤ a ∧ a + n ≤ 8) ∨ 16 ≤ a) :
    ∃ x y, wordBytes x = b'.take 4 ∧ y ≠ x ∧
      ∀ s, decode (b' ++ s) = (.error (.corruptRecord x y), s) := by
  obtain ⟨hd, body, rfl, hbody, hlen⟩ := exists_header_burst h (by omega)
  have hcrc := crc_burst h hn (by omega)
  have hfull : body.length = hd.bodyLen := by
    rw [hlen, hbody, bodyLen_header hr, List.length_append]
  refine ⟨hd.crc, _, (take_four_bytes hd body).symm, hcrc, fun s => ?_⟩
  rw [List.append_assoc, decode_header, List.take_left' hfull, List.drop_left' hfull,
    Header.toRecord, if_neg (by omega), Header.checksum_eq, if_neg hcrc]

end Record

end LogStore
