import LogStore.Index
import LogStore.Log.Cursor

/-! Rebuilding the index from a log file. The file is only read. -/

namespace LogStore

structure Replay where
  records : Nat
  tombstones : Nat
  /-- Where appending goes on. -/
  validLen : Nat
  fileLen : Nat
  /-- A torn tail follows the valid part. -/
  wasTruncated : Bool
  deriving DecidableEq, Repr

namespace Replay

/-- The bytes after the last whole record. -/
def discarded (r : Replay) : Nat := r.fileLen - r.validLen

def ofScan (fileLen : Nat) (s : Scan) : Replay :=
  ⟨s.records.length, s.tombstones, s.validLen, fileLen, s.isTorn⟩

/-- Add the records of a log file to an index. Damage stops the replay, and the
records before it stay added. -/
def recover (p : Path) (fileId : FileId) (ix : Index) (d : Disk) :
    Except Error Replay × Index :=
  match Cursor.openLog p d with
  | .error e => (.error e, ix)
  | .ok c =>
    let s := c.rest d
    let ix := ix.replay fileId s.records
    match s.failure? with
    | some e => (.error e, ix)
    | none => (.ok (ofScan (d.sizeOf c.node) s), ix)

def verify (p : Path) (d : Disk) : Except Error Replay := (recover p 0 ∅ d).1

end Replay

end LogStore
