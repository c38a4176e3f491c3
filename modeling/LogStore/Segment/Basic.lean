import LogStore.Disk.Basic
import LogStore.Index

/-! Reading values at the places an index gives. -/

namespace LogStore

structure Segment where
  fileId : FileId
  node : Node
  deriving DecidableEq, Repr

namespace Segment

def openFile (fileId : FileId) (p : Path) (d : Disk) : Except Error Segment :=
  match d.lookup p with
  | .error e => .error (.io e)
  | .ok node => .ok ⟨fileId, node⟩

def length (s : Segment) (d : Disk) : Nat := d.sizeOf s.node

/-- The value an entry points at, whole. An empty value is read without looking, and a
read that would end beyond the end of any file is refused. -/
def read (s : Segment) (e : Entry) (d : Disk) : Except Error Bytes :=
  if e.valueSize = 0 then .ok []
  else if Disk.largest < e.valuePos + e.valueSize then .error (.io .invalidArgument)
  else
    match d.read s.node with
    | .error cause => .error (.io cause)
    | .ok bs =>
      let value := (bs.drop e.valuePos).take e.valueSize
      if value.length < e.valueSize then
        .error (.corruptIndex s.fileId e.valuePos e.valueSize value.length)
      else .ok value

end Segment

end LogStore
