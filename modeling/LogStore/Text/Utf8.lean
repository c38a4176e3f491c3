import LogStore.Bytes

/-! Text out of any bytes. What is not UTF-8 becomes the replacement character, one
for each longest piece that could have begun a character. -/

namespace LogStore.Text

def replacement : Char := '\uFFFD'

/-- What is expected after the first byte of a character: the bits it carries, and
the range of each byte that follows. -/
def expects? (b : UInt8) : Option (Nat × List (UInt8 × UInt8)) :=
  let tail : UInt8 × UInt8 := (0x80, 0xBF)
  if 0xC2 ≤ b ∧ b ≤ 0xDF then some (b.toNat - 0xC0, [tail])
  else if b = 0xE0 then some (0, [(0xA0, 0xBF), tail])
  else if b = 0xED then some (0xD, [(0x80, 0x9F), tail])
  else if 0xE1 ≤ b ∧ b ≤ 0xEF then some (b.toNat - 0xE0, [tail, tail])
  else if b = 0xF0 then some (0, [(0x90, 0xBF), tail, tail])
  else if 0xF1 ≤ b ∧ b ≤ 0xF3 then some (b.toNat - 0xF0, [tail, tail, tail])
  else if b = 0xF4 then some (4, [(0x80, 0x8F), tail, tail])
  else none

/-- The character whose bits so far are `code`, and the bytes after it. -/
def follow (code : Nat) : List (UInt8 × UInt8) → Bytes → Char × Bytes
  | [], rest => (Char.ofNat code, rest)
  | _ :: _, [] => (replacement, [])
  | (low, high) :: more, b :: rest =>
    if low ≤ b ∧ b ≤ high then follow (code * 64 + (b.toNat - 0x80)) more rest
    else (replacement, b :: rest)

def firstChar (b : UInt8) (rest : Bytes) : Char × Bytes :=
  if b < 0x80 then (Char.ofNat b.toNat, rest)
  else
    match expects? b with
    | none => (replacement, rest)
    | some (code, ranges) => follow code ranges rest

theorem follow_length (code : Nat) (ranges : List (UInt8 × UInt8)) (bs : Bytes) :
    (follow code ranges bs).2.length ≤ bs.length := by
  fun_induction follow code ranges bs <;> simp only [List.length_cons, Nat.le_refl]
  omega

theorem firstChar_length (b : UInt8) (bs : Bytes) : (firstChar b bs).2.length ≤ bs.length := by
  unfold firstChar
  split
  · exact Nat.le_refl _
  · split
    · exact Nat.le_refl _
    · exact follow_length ..

/-- The characters of a byte string, put in front of `acc` in reverse. -/
def charsOnto (acc : List Char) : Bytes → List Char
  | [] => acc
  | b :: rest =>
    have := firstChar_length b rest
    charsOnto ((firstChar b rest).1 :: acc) (firstChar b rest).2
termination_by bs => bs.length

def ofBytes (bs : Bytes) : String := String.ofList (charsOnto [] bs).reverse

def toBytes (s : String) : Bytes := s.toList.flatMap String.utf8EncodeChar

end LogStore.Text
