import LogStore.Bytes

/-! CRC-32 with the reflected polynomial 0xEDB88320: all ones in, complemented out. -/

namespace LogStore.Checksum

/-- One bit of division: the register moves down, and the polynomial is taken
off when a one falls out. -/
def shift (r : UInt32) : UInt32 :=
  if r &&& 1 = 1 then (r >>> 1) ^^^ 0xEDB88320 else r >>> 1

def absorb (r : UInt32) (b : UInt8) : UInt32 :=
  shift (shift (shift (shift (shift (shift (shift (shift (r ^^^ b.toUInt32))))))))

def run (r : UInt32) (bs : Bytes) : UInt32 := bs.foldl absorb r

def crc32 (bs : Bytes) : UInt32 := run 0xFFFFFFFF bs ^^^ 0xFFFFFFFF

/-- The usual check value of this checksum, over the digits 1 to 9. -/
example : crc32 [0x31, 0x32, 0x33, 0x34, 0x35, 0x36, 0x37, 0x38, 0x39] = 0xCBF43926 := by
  decide +kernel

theorem run_append (r : UInt32) (as bs : Bytes) : run r (as ++ bs) = run (run r as) bs :=
  List.foldl_append

end LogStore.Checksum
