import Std.Data.ExtTreeMap
import LogStore.Log.Scan

/-! The index: for each live key, where its newest value lies. It is in the order
of the keys, and equal to any other index with the same entries. -/

namespace LogStore

structure Entry where
  fileId : FileId
  valuePos : Nat
  valueSize : Nat
  timestamp : UInt32
  deriving DecidableEq, Repr

abbrev Index := Std.ExtTreeMap Bytes Entry

structure Move where
  key : Bytes
  old : Entry
  new : Entry
  deriving DecidableEq, Repr

namespace Positioned

def entry (p : Positioned) (fileId : FileId) : Entry :=
  ⟨fileId, p.valuePos, p.record.value.length, p.record.timestamp⟩

end Positioned

namespace Index

/-- One record of the log takes effect. Order in the log decides alone which write
is the last; timestamps have no say. -/
def apply (fileId : FileId) (ix : Index) (p : Positioned) : Index :=
  if p.record.isTombstone then ix.erase p.record.key
  else ix.insert p.record.key (p.entry fileId)

def replay (fileId : FileId) (ix : Index) (ps : List Positioned) : Index :=
  ps.foldl (apply fileId) ix

/-- Point a key at its copy, unless its entry has changed since. -/
def move (ix : Index) (m : Move) : Index :=
  if ix[m.key]? = some m.old then ix.insert m.key m.new else ix

def retarget : List Move → Index → Nat × Index
  | [], ix => (0, ix)
  | m :: ms, ix =>
    let (n, ix') := retarget ms (ix.move m)
    (if ix[m.key]? = some m.old then n + 1 else n, ix')

theorem replay_append (fileId : FileId) (ix : Index) (ps qs : List Positioned) :
    replay fileId ix (ps ++ qs) = replay fileId (replay fileId ix ps) qs :=
  List.foldl_append

end Index

end LogStore
