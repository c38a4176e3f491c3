import LogStore.Disk.Tree

/-! What others may do to the files of a store: whole-file writes, cuts, single
damaged bytes, removal of whole directories. -/

namespace LogStore.Disk

/-- Give a file this content, in place if it exists. -/
def putFile (p : Path) (bs : Bytes) (d : Disk) : Except IoError Unit × Disk :=
  match d.openWrite p with
  | (.error e, d) => (.error e, d)
  | (.ok i, d) => (d.setContent i []).writeAll i 0 bs

def appendFile (p : Path) (bs : Bytes) (d : Disk) : Except IoError Unit × Disk :=
  match d.openWrite p with
  | (.error e, d) => (.error e, d)
  | (.ok i, d) => d.appendAll i bs

def changeFile (p : Path) (change : FileNo → Disk → Except IoError Unit × Disk) (d : Disk) :
    Except IoError Unit × Disk :=
  match d.lookup p with
  | .error e => (.error e, d)
  | .ok .dir => (.error .isDirectory, d)
  | .ok (.file i) => change i d

def cutFile (p : Path) (length : Nat) : Disk → Except IoError Unit × Disk :=
  changeFile p fun i => setLength i length

/-- Flip the bits of `mask` in one byte, if the file reaches so far. -/
def flipByte (p : Path) (pos : Nat) (mask : UInt8) : Disk → Except IoError Unit × Disk :=
  changeFile p fun i d =>
    match (d.content i)[pos]? with
    | none => (.error .invalidArgument, d)
    | some b => d.writeAll i pos [b ^^^ mask]

def bytesAt (p : Path) (d : Disk) : Except IoError Bytes :=
  match d.lookup p with
  | .error e => .error e
  | .ok node => d.read node

/-- Remove a directory with all that lies in it. One that is given as `.` or `..`
is emptied, but stays. -/
def removeDirs (p : Path) (d : Disk) : Except IoError Unit × Disk :=
  match d.locate p with
  | .error e => (.error e, d)
  | .ok (.directory names) => (.error .invalidArgument, { d with tree := d.emptied names })
  | .ok (.entry parent name _) =>
    match d.entry? parent name with
    | .error e => (.error e, d)
    | .ok none => (.error .noEntry, d)
    | .ok (some (.file _)) => (.error .notDirectory, d)
    | .ok (some .dir) => (.ok (), { d with tree := d.pruned (parent ++ [name]) })

end LogStore.Disk
