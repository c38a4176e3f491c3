import LogStore.Compaction
import LogStore.Disk.Tree
import LogStore.Log.Appender
import LogStore.Log.Replay
import LogStore.Segment.Table

/-! A store of keys and values over one log file. Every change is in the log before
it is in the index, so opening again always finds it. -/

namespace LogStore

structure Store where
  config : Config
  index : Index
  segments : Segments
  /-- Absent once the store is closed. -/
  appender : Option Appender

namespace Store

/-- Remove what a merge that was broken off has left. -/
def removeStale (p : Path) : Action Unit := do
  let w ← Action.world
  if w.disk.exists? p then
    Action.report (.removingStale p)
    Action.onDisk (Disk.remove p)

def reopen (p : Path) : Action (Index × Appender) := do
  let w ← Action.world
  match Replay.recover p Config.activeFile ∅ w.disk with
  | (.error e, _) => throw (.recoveryFailed e)
  | (.ok found, index) =>
    Action.report (.recovered p found.records found.tombstones index.size)
    if found.wasTruncated then
      Action.report (.endsInPartial p found.validLen found.discarded)
    return (index, ← Appender.openAfter p Config.activeFile found.validLen)

def start (p : Path) : Action (Index × Appender) := do
  Action.report (.creating p)
  return (∅, ← Appender.openEnd p Config.activeFile)

def attach (c : Config) : Action Store := do
  removeStale c.mergePath
  let w ← Action.world
  let (index, appender) ← if w.disk.exists? c.path then reopen c.path else start c.path
  let segment ← Action.ask (Segment.openFile Config.activeFile c.path)
  return ⟨c, index, Segments.single segment, some appender⟩

def openWith (c : Config) : Action Store := do
  Action.ask c.validate
  if c.createDirs then Action.onDisk (Disk.createDirs c.path.parent)
  attach c

def openPath (p : Path) : Action Store := openWith { path := p }

def get (key : Bytes) (s : Store) (d : Disk) : Except Error Bytes :=
  s.segments.get s.index key d

def set (key value : Bytes) (s : Store) (w : World) : Except Error Unit × Store × World :=
  if value.isEmpty then (.error .emptyValue, s, w)
  else
    match s.appender with
    | none => (.error .closed, s, w)
    | some a =>
      let r : Record := ⟨w.now, key, value⟩
      match a.append r w with
      | (.error e, a, w) => (.error e, { s with appender := some a }, w)
      | (.ok landing, a, w) =>
        let entry : Entry := ⟨a.fileId, landing.valuePos, value.length, r.timestamp⟩
        (.ok (), { s with appender := some a, index := s.index.insert key entry },
          w.report (.set landing.offset value.length))

def delete (key : Bytes) (s : Store) (w : World) : Except Error Unit × Store × World :=
  match s.appender with
  | none => (.error .closed, s, w)
  | some a =>
    if s.index.contains key then
      match a.append (Record.tombstone key w.now) w with
      | (.error e, a, w) => (.error e, { s with appender := some a }, w)
      | (.ok landing, a, w) =>
        (.ok (), { s with appender := some a, index := s.index.erase key },
          w.report (.delete landing.offset))
    else (.error .keyNotFound, s, w)

/-- Let go of all handles. Closing once more does nothing. -/
def close (s : Store) (w : World) : Store × World :=
  match s.appender with
  | none => (s, w)
  | some _ =>
    ({ s with appender := none, segments := ∅, index := ∅ }, w.report (.closed s.config.path))

def keyCount (s : Store) : Nat := s.index.size

def logSize (s : Store) (d : Disk) : Except Error Nat :=
  s.segments.length Config.activeFile d

def isClosed (s : Store) : Bool := s.appender.isNone

end Store

end LogStore
