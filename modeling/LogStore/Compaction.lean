import LogStore.Config
import LogStore.Index
import LogStore.World

/-! Writing the live records of a store into a fresh log, and noting for each key
where its copy lies. Nothing that is live is touched. -/

namespace LogStore

/-- A fresh log being written. Small records are held back and written together. -/
structure Compactor where
  path : Path
  file : FileNo
  position : Nat
  /-- Held back, to be written next. -/
  pending : Bytes
  fileId : FileId
  stamps : StampPolicy
  began : UInt32
  /-- Where the next record will lie. -/
  offset : Nat
  /-- In the order of the records. -/
  moves : List Move
  deriving DecidableEq, Repr

structure Compacted where
  path : Path
  moves : List Move
  bytesWritten : Nat
  deriving DecidableEq, Repr

namespace Compactor

def capacity : Nat := 8192

/-- Start over in the file at this path, whatever it held. -/
def create (p : Path) (fileId : FileId) (stamps : StampPolicy) : Action Compactor := do
  let file ← Action.onDisk (Disk.openWrite p)
  modify fun w => { w with disk := w.disk.setContent file [] }
  let w ← Action.world
  return ⟨p, file, 0, [], fileId, stamps, w.now, 0, []⟩

def emit (bs : Bytes) (c : Compactor) (d : Disk) : Except IoError Unit × Compactor × Disk :=
  let (n, d) := d.write c.file c.position bs
  (if n = bs.length then .ok () else .error .fileTooLarge, { c with position := c.position + n }, d)

/-- Write what is held back; what cannot be written stays. -/
def flush (c : Compactor) (d : Disk) : Except IoError Unit × Compactor × Disk :=
  let (result, c', d) := c.emit c.pending d
  (result, { c' with pending := c.pending.drop (c'.position - c.position) }, d)

/-- Hold bytes back, making room first, or write them at once if they are many. -/
def push (bs : Bytes) (c : Compactor) (d : Disk) : Except IoError Unit × Compactor × Disk :=
  let (result, c, d) :=
    if capacity < c.pending.length + bs.length then c.flush d else (.ok (), c, d)
  match result with
  | .error e => (.error e, c, d)
  | .ok () =>
    if capacity ≤ bs.length then c.emit bs d
    else (.ok (), { c with pending := c.pending ++ bs }, d)

def stamp (c : Compactor) (old : Entry) : UInt32 :=
  match c.stamps with
  | .preserve => old.timestamp
  | .refresh => c.began

/-- Copy one live key. No live entry points at an empty value. -/
def add (key : Bytes) (old : Entry) (value : Bytes) (c : Compactor) (d : Disk) :
    Except Error Unit × Compactor × Disk :=
  if value.isEmpty then
    (.error (.corruptIndex old.fileId old.valuePos old.valueSize 0), c, d)
  else
    let r : Record := ⟨c.stamp old, key, value⟩
    match r.encode with
    | .error e => (.error e, c, d)
    | .ok bs =>
      match c.push bs d with
      | (.error e, c, d) => (.error (.io e), c, d)
      | (.ok (), c, d) =>
        let new : Entry := ⟨c.fileId, c.offset + r.valueOffset, value.length, r.timestamp⟩
        (.ok (), { c with offset := c.offset + bs.length, moves := c.moves ++ [⟨key, old, new⟩] },
          d)

/-- Give up: what is held back is still written, as far as that goes. -/
def abandon (c : Compactor) (d : Disk) : Disk := (c.flush d).2.2

def finish (c : Compactor) (d : Disk) : Except Error Compacted × Disk :=
  match c.flush d with
  | (.error e, c, d) => (.error (.io e), c.abandon d)
  | (.ok (), c, d) => (.ok ⟨c.path, c.moves, c.offset⟩, d)

end Compactor

end LogStore
