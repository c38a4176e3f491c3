import Std.Data.ExtTreeMap
import LogStore.Bytes
import LogStore.Error
import LogStore.Disk.Path

/-! A disk: a tree of directories over numbered files. A handle holds the number
of its file, so it keeps the file when the name is moved or removed. -/

namespace LogStore

abbrev FileNo := Nat

instance : Std.TransOrd (List Name) := inferInstance

/-- What a name stands for, and what a reading handle holds. -/
inductive Node where
  | file (no : FileNo)
  | dir
  deriving DecidableEq, Repr

/-- Paths are routes from the root, which is always there. -/
structure Disk where
  tree : Std.ExtTreeMap (List Name) Node
  files : Std.ExtTreeMap FileNo Bytes
  /-- No file has this number or a greater one. -/
  fresh : FileNo
  /-- No file can be written past this size. -/
  limit : Option Nat

/-- Where a path leads, its last name not yet looked up. -/
inductive Place where
  | directory (names : List Name)
  | entry (parent : List Name) (name : Name) (slash : Bool)
  deriving DecidableEq, Repr

/-- What is wrong with a path, whatever the disk holds: a NUL in it, or 4096 bytes
or more. -/
def Path.refusal? (p : Path) : Option IoError :=
  if '\x00' ∈ p then some .nulInPath
  else if 4096 ≤ Name.size p then some .nameTooLong
  else none

namespace Disk

def empty : Disk := ⟨∅, ∅, 0, none⟩

def content (d : Disk) (i : FileNo) : Bytes := d.files[i]?.getD []

def setContent (d : Disk) (i : FileNo) (bs : Bytes) : Disk :=
  { d with files := d.files.insert i bs }

def entry? (d : Disk) (parent : List Name) (name : Name) : Except IoError (Option Node) :=
  if name.tooLong then .error .nameTooLong else .ok d.tree[parent ++ [name]]?

/-- One component on the way, which must be a directory. -/
def enter (d : Disk) (parent : List Name) (name : Name) : Except IoError (List Name) :=
  if name = Path.here then .ok parent
  else if name = Path.above then .ok parent.dropLast
  else
    match d.entry? parent name with
    | .error e => .error e
    | .ok none => .error .noEntry
    | .ok (some (.file _)) => .error .notDirectory
    | .ok (some .dir) => .ok (parent ++ [name])

def walk (d : Disk) : List Name → List Name → Except IoError (List Name)
  | parent, [] => .ok parent
  | parent, name :: names =>
    match d.enter parent name with
    | .error e => .error e
    | .ok parent => d.walk parent names

def locate (d : Disk) (p : Path) : Except IoError Place :=
  match p.refusal? with
  | some e => .error e
  | none =>
    match p.route? with
    | none => .error .noEntry
    | some r =>
      match d.walk [] r.parents with
      | .error e => .error e
      | .ok parent =>
        if r.last = Path.here then .ok (.directory parent)
        else if r.last = Path.above then .ok (.directory parent.dropLast)
        else .ok (.entry parent r.last r.slash)

/-- What a path stands for. Opening a path for reading gives just this. -/
def lookup (d : Disk) (p : Path) : Except IoError Node :=
  match d.locate p with
  | .error e => .error e
  | .ok (.directory _) => .ok .dir
  | .ok (.entry parent name slash) =>
    match d.entry? parent name with
    | .error e => .error e
    | .ok none => .error .noEntry
    | .ok (some (.file i)) => if slash then .error .notDirectory else .ok (.file i)
    | .ok (some .dir) => .ok .dir

/-- A path that cannot be looked up, for whatever reason, does not exist. -/
def exists? (d : Disk) (p : Path) : Bool := (d.lookup p).isOk

def isDir (d : Disk) (p : Path) : Bool :=
  match d.lookup p with
  | .ok .dir => true
  | _ => false

def read (d : Disk) : Node → Except IoError Bytes
  | .file i => .ok (d.content i)
  | .dir => .error .isDirectory

/-- The size of a node; a directory takes one block. -/
def sizeOf (d : Disk) : Node → Nat
  | .file i => (d.content i).length
  | .dir => 4096

def create (d : Disk) (parent : List Name) (name : Name) : FileNo × Disk :=
  (d.fresh, { d with
    tree := d.tree.insert (parent ++ [name]) (.file d.fresh)
    files := d.files.insert d.fresh []
    fresh := d.fresh + 1 })

def openWrite (p : Path) (d : Disk) : Except IoError FileNo × Disk :=
  match d.locate p with
  | .error e => (.error e, d)
  | .ok (.directory _) => (.error .isDirectory, d)
  | .ok (.entry parent name slash) =>
    if slash then (.error .isDirectory, d)
    else
      match d.entry? parent name with
      | .error e => (.error e, d)
      | .ok (some .dir) => (.error .isDirectory, d)
      | .ok (some (.file i)) => (.ok i, d)
      | .ok none => let (i, d) := d.create parent name; (.ok i, d)

/-- No file is longer than this, whatever limit is set. -/
def largest : Nat := 0x7FFFFFFFFFFFFFFF

def ceiling (limit : Option Nat) : Nat := min largest (limit.getD largest)

/-- How many of `length` bytes, written from `pos` on, the limit lets through. -/
def writable (d : Disk) (pos length : Nat) : Nat := min length (ceiling d.limit - pos)

/-- Bytes laid over others from a position on, a gap before it filled with zeros. -/
def overlay (old : Bytes) (pos : Nat) (new : Bytes) : Bytes :=
  old.take pos ++ List.replicate (pos - old.length) 0 ++ new ++ old.drop (pos + new.length)

/-- Write as far as the limit lets, and say how far that was. -/
def write (i : FileNo) (pos : Nat) (bs : Bytes) (d : Disk) : Nat × Disk :=
  let n := d.writable pos bs.length
  (n, if n = 0 then d else d.setContent i (overlay (d.content i) pos (bs.take n)))

/-- Write all, or fail after writing what the limit lets through. -/
def writeAll (i : FileNo) (pos : Nat) (bs : Bytes) (d : Disk) : Except IoError Unit × Disk :=
  let (n, d) := d.write i pos bs
  (if n = bs.length then .ok () else .error .fileTooLarge, d)

def appendAll (i : FileNo) (bs : Bytes) (d : Disk) : Except IoError Unit × Disk :=
  d.writeAll i (d.content i).length bs

/-- Cut a file off, or pad it with zeros; only growing meets the limit. -/
def setLength (i : FileNo) (n : Nat) (d : Disk) : Except IoError Unit × Disk :=
  let old := d.content i
  if n ≤ old.length then (.ok (), d.setContent i (old.take n))
  else if ceiling d.limit < n then (.error .fileTooLarge, d)
  else (.ok (), d.setContent i (old ++ List.replicate (n - old.length) 0))

@[simp] theorem content_setContent_self (d : Disk) (i : FileNo) (bs : Bytes) :
    (d.setContent i bs).content i = bs := by
  simp [content, setContent]

theorem content_setContent_of_ne (d : Disk) {i j : FileNo} (bs : Bytes) (h : i ≠ j) :
    (d.setContent i bs).content j = d.content j := by
  simp [content, setContent, Std.ExtTreeMap.getElem?_insert, h]

theorem overlay_end (old new : Bytes) : overlay old old.length new = old ++ new := by
  simp [overlay]

end Disk

end LogStore
