import LogStore.Store.Basic

/-! Compacting a store: its live records go to a fresh log, which then takes the
place of the old one. The rename is the turning point: before it nothing that is
live has changed, and after it nothing can fail. -/

namespace LogStore.Store

def copyAll (segments : Segments) : List (Bytes × Entry) → Compactor → Disk →
    Except Error Unit × Compactor × Disk
  | [], c, d => (.ok (), c, d)
  | (key, e) :: rest, c, d =>
    match segments.read e d with
    | .error err => (.error err, c, d)
    | .ok value =>
      match c.add key e value d with
      | (.error err, c, d) => (.error err, c, d)
      | (.ok (), c, d) => copyAll segments rest c d

/-- Write all live records into a fresh log, in the order of their keys. -/
def writeMerged (s : Store) : Action Compacted := do
  let c ← Compactor.create s.config.mergePath Config.activeFile s.config.stamps
  fun w =>
    match copyAll s.segments s.index.toList c w.disk with
    | (.error e, c, d) => (.error e, { w with disk := c.abandon d })
    | (.ok (), c, d) =>
      match c.finish d with
      | (.error e, d) => (.error e, { w with disk := d })
      | (.ok out, d) => (.ok out, { w with disk := d })

/-- Rename the fresh log over the old one, and point the index at the copies. -/
def commit (out : Compacted) (p : Path) (ix : Index) (d : Disk) :
    Except Error (Nat × Index) × Disk :=
  match Disk.rename out.path p d with
  | (.error e, d) => (.error (.io e), d)
  | (.ok (), d) => (.ok (ix.retarget out.moves), d)

/-- Put a finished fresh log in the place of the old one. It is opened under its
first name, so that nothing is left to fail after the rename. -/
def install (s : Store) (out : Compacted) : Action (Nat × Store) := do
  let a ← Appender.openEnd out.path Config.activeFile
  let segment ← Action.ask (Segment.openFile Config.activeFile out.path)
  fun w =>
    match s.segments.swap segment (commit out s.config.path s.index) w.disk with
    | (.error e, _, d) => (.error e, { w with disk := d })
    | (.ok (moved, index), segments, d) =>
      (.ok (moved, { s with index, segments, appender := some a }), { w with disk := d })

def discard (p : Path) (w : World) : World :=
  match Disk.remove p w.disk with
  | (.ok (), d) => { w with disk := d }
  | (.error e, d) =>
    let w := { w with disk := d }
    if e = .noEntry then w else w.report (.removeFailed p e)

def merge (s : Store) (w : World) : Except Error Unit × Store × World :=
  match s.appender with
  | none => (.error .closed, s, w)
  | some old =>
    match s.writeMerged w with
    | (.error e, w) => (.error e, s, discard s.config.mergePath w)
    | (.ok out, w) =>
      match s.install out w with
      | (.error e, w) => (.error e, s, discard s.config.mergePath w)
      | (.ok (moved, s), w) =>
        (.ok (), s, w.report (.merged s.config.path old.offset out.bytesWritten moved))

end LogStore.Store
