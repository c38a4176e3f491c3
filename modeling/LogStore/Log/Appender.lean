import LogStore.World
import LogStore.Record.Basic

/-! Appending records to a log file. A failed append is taken back; a torn tail
is saved beside the log before it is cut off. -/

namespace LogStore

structure Appender where
  file : FileNo
  fileId : FileId
  /-- Where the last whole record ends. -/
  offset : Nat
  deriving DecidableEq, Repr

structure Landing where
  offset : Nat
  valuePos : Nat
  deriving DecidableEq, Repr

namespace Appender

/-- The file that keeps what was cut off a log. -/
def tornPath (p : Path) : Path := p.beside ".torn"

/-- Open a log file, or make it, and append after its present end. -/
def openEnd (p : Path) (fileId : FileId) : Action Appender := do
  let file ← Action.onDisk (Disk.openWrite p)
  let w ← Action.world
  return ⟨file, fileId, (w.disk.content file).length⟩

def saveTail (file : FileNo) (pos : Nat) (target : Path) : Action Unit := do
  let saved ← Action.onDisk (Disk.openWrite target)
  Action.onDisk fun d => d.appendAll saved ((d.content file).drop pos)

/-- Open a log file whose valid part has this length, and cut off what follows.
Nothing is cut before it is saved. -/
def openAfter (p : Path) (fileId : FileId) (validLen : Nat) : Action Appender := do
  let a ← openEnd p fileId
  if a.offset ≤ validLen then return a
  saveTail a.file validLen (tornPath p)
  Action.report (.cuttingTail p (a.offset - validLen) (tornPath p))
  Action.onDisk (Disk.setLength a.file validLen)
  return { a with offset := validLen }

def rollBack (a : Appender) (w : World) : World :=
  match Disk.setLength a.file a.offset w.disk with
  | (.ok (), d) => { w with disk := d }
  | (.error e, d) => { w with disk := d }.report (.rollbackFailed e a.offset)

def append (r : Record) (a : Appender) (w : World) : Except Error Landing × Appender × World :=
  match r.encode with
  | .error e => (.error e, a, w)
  | .ok bs =>
    match w.disk.appendAll a.file bs with
    | (.error e, d) => (.error (.io e), a, a.rollBack { w with disk := d })
    | (.ok (), d) =>
      (.ok ⟨a.offset, a.offset + r.valueOffset⟩, { a with offset := a.offset + bs.length },
        { w with disk := d })

end Appender

end LogStore
