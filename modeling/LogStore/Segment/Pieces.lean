import LogStore.Segment.Basic

/-! Reading a value by single reads. One read hands out what it pleases: at least a byte while
there is one, at most what there is room for. The next one goes on where it has ended, until the
value is full or nothing more is handed out. -/

namespace LogStore

inductive Yield where
  | interrupted
  /-- So many bytes at most, and one in any case. -/
  | upTo (most : Nat)
  deriving DecidableEq, Repr

def Yield.first (room : Nat) : List Yield → Yield
  | [] => .upTo room
  | y :: _ => y

theorem Yield.ne_nil_of_interrupted {room : Nat} {ys : List Yield}
    (h : Yield.first room ys = .interrupted) : ys ≠ [] := by
  rintro rfl
  cases h

namespace Segment

/-- One read at a position. It is refused if all that is asked for would end beyond the end of
any file. -/
def readAt (s : Segment) (pos room most : Nat) (d : Disk) : Except IoError Bytes :=
  if Disk.largest < pos + room then .error .invalidArgument
  else
    match d.read s.node with
    | .error cause => .error cause
    | .ok bs => .ok ((bs.drop pos).take (min room (max 1 most)))

/-- Read on, with `filled` bytes of the value there and zeros behind them. An interrupted read is
made again. A position that is no word of 64 bits ends it all without an answer. -/
def fill (s : Segment) (e : Entry) (d : Disk) (ys : List Yield) (value : Bytes) (filled : Nat) :
    Option (Except Error Bytes) :=
  if filled < e.valueSize then
    if UInt64.size ≤ e.valuePos + filled then none
    else
      match _h : Yield.first (e.valueSize - filled) ys with
      | .interrupted => fill s e d ys.tail value filled
      | .upTo most =>
        match s.readAt (e.valuePos + filled) (e.valueSize - filled) most d with
        | .error cause => some (.error (.io cause))
        | .ok bs =>
          if bs = [] then some (.error (.corruptIndex s.fileId e.valuePos e.valueSize filled))
          else fill s e d ys.tail (Disk.overlay value filled bs) (filled + bs.length)
  else some (.ok value)
termination_by (e.valueSize - filled, ys.length)
decreasing_by
  · have := List.length_pos_iff.mpr (Yield.ne_nil_of_interrupted _h)
    exact Prod.Lex.right _ (by rw [List.length_tail]; omega)
  · have := List.length_pos_iff.mpr ‹bs ≠ []›
    exact Prod.Lex.left _ _ (by omega)

/-- The value an entry points at, read into zeros by as many reads as it takes. -/
def readBy (ys : List Yield) (s : Segment) (e : Entry) (d : Disk) : Option (Except Error Bytes) :=
  s.fill e d ys (List.replicate e.valueSize 0) 0

end Segment

end LogStore
