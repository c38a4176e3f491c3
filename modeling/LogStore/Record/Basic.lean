import LogStore.Checksum
import LogStore.Error

/-! Log records and their bytes. A record is a header of sixteen bytes, then the
key, then the value; the header holds the checksum of all that follows it, the
timestamp and the two lengths, each as a little-endian word. -/

namespace LogStore

structure Record where
  /-- Unix seconds at the append. -/
  timestamp : UInt32
  key : Bytes
  /-- Empty for a tombstone. -/
  value : Bytes
  deriving DecidableEq, Repr

structure Header where
  crc : UInt32
  timestamp : UInt32
  keyLen : UInt32
  valueLen : UInt32
  deriving DecidableEq, Repr

namespace Header

def size : Nat := 16

def covered (h : Header) : Bytes :=
  wordBytes h.timestamp ++ wordBytes h.keyLen ++ wordBytes h.valueLen

def bytes (h : Header) : Bytes := wordBytes h.crc ++ h.covered

def bodyLen (h : Header) : Nat := h.keyLen.toNat + h.valueLen.toNat

def checksum (h : Header) (body : Bytes) : UInt32 := Checksum.crc32 (h.covered ++ body)

def ofBytes? : Bytes → Option Header
  | c₀ :: c₁ :: c₂ :: c₃ :: t₀ :: t₁ :: t₂ :: t₃ ::
    k₀ :: k₁ :: k₂ :: k₃ :: v₀ :: v₁ :: v₂ :: v₃ :: _ =>
    some ⟨wordOf c₀ c₁ c₂ c₃, wordOf t₀ t₁ t₂ t₃, wordOf k₀ k₁ k₂ k₃, wordOf v₀ v₁ v₂ v₃⟩
  | _ => none

@[simp] theorem bytes_length (h : Header) : h.bytes.length = size := rfl

theorem ofBytes?_bytes (h : Header) (rest : Bytes) : ofBytes? (h.bytes ++ rest) = some h := by
  simp only [bytes, covered, wordBytes, List.cons_append, List.nil_append, ofBytes?,
    wordOf_wordBytes]

end Header

namespace Record

def tombstone (key : Bytes) (now : UInt32) : Record := ⟨now, key, []⟩

def isTombstone (r : Record) : Bool := r.value.isEmpty

def encodedLen (r : Record) : Nat := Header.size + r.key.length + r.value.length

def valueOffset (r : Record) : Nat := Header.size + r.key.length

/-- The lengths that a record can store; the key is tested first. -/
def checkLengths (keyLen valueLen : Nat) : Except Error Unit :=
  if UInt32.size ≤ keyLen then .error (.recordTooLarge .key keyLen)
  else if UInt32.size ≤ valueLen then .error (.recordTooLarge .value valueLen)
  else .ok ()

def blankHeader (r : Record) : Header :=
  ⟨0, r.timestamp, UInt32.ofNat r.key.length, UInt32.ofNat r.value.length⟩

def header (r : Record) : Header :=
  { r.blankHeader with crc := r.blankHeader.checksum (r.key ++ r.value) }

/-- The bytes of a record whose lengths fit into the header. -/
def bytes (r : Record) : Bytes := r.header.bytes ++ (r.key ++ r.value)

def encode (r : Record) : Except Error Bytes :=
  match checkLengths r.key.length r.value.length with
  | .error e => .error e
  | .ok () => .ok r.bytes

theorem bytes_length (r : Record) : r.bytes.length = r.encodedLen := by
  simp only [bytes, List.length_append, Header.bytes_length, encodedLen]
  omega

end Record

end LogStore
