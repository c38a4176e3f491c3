import LogStore.Text.Utf8

/-! The bytes of a text are read back as that text. So no two texts have the same bytes, and what
was stored as a text is printed as it was. -/

namespace LogStore.Text

theorem follow_cons {code d : Nat} {low high : UInt8} (hlow : low.toNat ≤ d + 128)
    (hhigh : d + 128 ≤ high.toNat) (more : List (UInt8 × UInt8)) (rest : Bytes) :
    follow code ((low, high) :: more) (UInt8.ofNat (d + 128) :: rest) =
      follow (code * 64 + d) more rest := by
  have hsmall : d + 128 < UInt8.size := Nat.lt_of_le_of_lt hhigh high.toNat_lt
  have hnat : (UInt8.ofNat (d + 128)).toNat = d + 128 := UInt8.toNat_ofNat_of_lt' hsmall
  have hin : low ≤ UInt8.ofNat (d + 128) ∧ UInt8.ofNat (d + 128) ≤ high := by
    rw [UInt8.le_iff_toNat_le, UInt8.le_iff_toNat_le, hnat]
    exact ⟨hlow, hhigh⟩
  rw [follow, if_pos hin, hnat, Nat.add_sub_cancel]

section FirstByte

/-! The first bytes of characters of two, three and four bytes. -/

theorem expects?_two : ∀ d < 30, ¬ UInt8.ofNat (d + 2 + 192) < 0x80 ∧
    expects? (UInt8.ofNat (d + 2 + 192)) = some (d + 2, [(0x80, 0xBF)]) := by
  decide

theorem expects?_three : ∀ d < 16, ¬ UInt8.ofNat (d + 224) < 0x80 ∧
    expects? (UInt8.ofNat (d + 224)) =
      some (d, [(if d = 0 then 0xA0 else 0x80, if d = 13 then 0x9F else 0xBF), (0x80, 0xBF)]) := by
  decide

theorem expects?_four : ∀ d < 5, ¬ UInt8.ofNat (d + 240) < 0x80 ∧
    expects? (UInt8.ofNat (d + 240)) =
      some (d, [(if d = 0 then 0x90 else 0x80, if d = 4 then 0x8F else 0xBF), (0x80, 0xBF),
        (0x80, 0xBF)]) := by
  decide

theorem firstChar_eq {b : UInt8} {code : Nat} {ranges : List (UInt8 × UInt8)}
    (h : ¬ b < 0x80 ∧ expects? b = some (code, ranges)) (rest : Bytes) :
    firstChar b rest = follow code ranges rest := by
  rw [firstChar, if_neg h.1, h.2]

end FirstByte

theorem firstChar_utf8EncodeChar (c : Char) (rest : Bytes) : ∃ b tail,
    String.utf8EncodeChar c = b :: tail ∧ firstChar b (tail ++ rest) = (c, rest) := by
  have hvalid : c.toNat < 0xD800 ∨ (0xDFFF < c.toNat ∧ c.toNat < 0x110000) := c.valid
  have hback : ∀ n, n = c.toNat → follow n [] rest = (c, rest) := by
    rintro n rfl
    rw [follow, Char.ofNat_toNat]
  have hval : c.val.toNat = c.toNat := rfl
  simp only [String.utf8EncodeChar, hval]
  generalize c.toNat = v at hvalid hback
  split
  · refine ⟨_, _, rfl, ?_⟩
    have hnat : (UInt8.ofNat v).toNat = v := UInt8.toNat_ofNat_of_lt' (by simp [UInt8.size]; omega)
    have hlt : UInt8.ofNat v < 0x80 := by
      rw [UInt8.lt_iff_toNat_lt, hnat]
      exact Nat.lt_succ_of_le ‹_›
    rw [firstChar, if_pos hlt, hnat]
    exact hback v rfl
  · split
    · obtain ⟨d, hd⟩ : ∃ d, v / 64 % 32 = d + 2 := ⟨v / 64 % 32 - 2, by omega⟩
      refine ⟨_, _, rfl, ?_⟩
      rw [hd, firstChar_eq (expects?_two d (by omega)), List.singleton_append,
        follow_cons (by simp) (by simp; omega)]
      exact hback _ (by omega)
    · split
      · refine ⟨_, _, rfl, ?_⟩
        rw [firstChar_eq (expects?_three _ (by omega))]
        simp only [List.cons_append, List.nil_append]
        rw [follow_cons, follow_cons (by simp) (by simp; omega)]
        · exact hback _ (by omega)
        · split
          · simp
            omega
          · simp
        · split <;> simp <;> omega
      · refine ⟨_, _, rfl, ?_⟩
        rw [firstChar_eq (expects?_four _ (by omega))]
        simp only [List.cons_append, List.nil_append]
        rw [follow_cons, follow_cons (by simp) (by simp; omega),
          follow_cons (by simp) (by simp; omega)]
        · exact hback _ (by omega)
        · split
          · simp
            omega
          · simp
        · split <;> simp <;> omega

theorem charsOnto_utf8EncodeChar (acc : List Char) (c : Char) (rest : Bytes) :
    charsOnto acc (String.utf8EncodeChar c ++ rest) = charsOnto (c :: acc) rest := by
  obtain ⟨b, tail, henc, hfirst⟩ := firstChar_utf8EncodeChar c rest
  rw [henc, List.cons_append, charsOnto, hfirst]

theorem charsOnto_flatMap (acc cs : List Char) :
    charsOnto acc (cs.flatMap String.utf8EncodeChar) = cs.reverse ++ acc := by
  induction cs generalizing acc with
  | nil => simp [charsOnto]
  | cons c cs ih =>
    rw [List.flatMap_cons, charsOnto_utf8EncodeChar, ih, List.reverse_cons, List.append_assoc]
    rfl

/-- A text is read back from its bytes. -/
theorem ofBytes_toBytes (s : String) : ofBytes (toBytes s) = s := by
  rw [ofBytes, toBytes, charsOnto_flatMap, List.append_nil, List.reverse_reverse,
    String.ofList_toList]

theorem toBytes_injective {s t : String} (h : toBytes s = toBytes t) : s = t := by
  rw [← ofBytes_toBytes s, h, ofBytes_toBytes]

theorem toBytes_eq_nil_iff {s : String} : toBytes s = [] ↔ s = "" :=
  ⟨fun h => toBytes_injective h, fun h => h ▸ rfl⟩

theorem length_toBytes (s : String) : (toBytes s).length = s.utf8ByteSize := by
  rw [← String.size_toByteArray, ← String.utf8Encode_toList, List.utf8Encode,
    List.size_toByteArray, toBytes]

end LogStore.Text
