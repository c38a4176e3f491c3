import LogStore.Disk.Basic

/-! Changes to the tree of a disk: making, removing and moving names. None of
them touches the bytes of a file. -/

namespace LogStore.Disk

def mkdir (parents : List Name) (last : Name) (d : Disk) : Except IoError Unit × Disk :=
  match d.walk [] parents with
  | .error e => (.error e, d)
  | .ok parent =>
    if last = Path.here ∨ last = Path.above then (.error .exists, d)
    else
      match d.entry? parent last with
      | .error e => (.error e, d)
      | .ok (some _) => (.error .exists, d)
      | .ok none => (.ok (), { d with tree := d.tree.insert (parent ++ [last]) .dir })

def leadsToDir (d : Disk) (names : List Name) : Bool := (d.walk [] names).isOk

/-- A failure to make a directory does not matter where the directory exists. -/
def unlessDir (names : List Name) : Except IoError Unit × Disk → Except IoError Unit × Disk
  | (.error e, d) => (if d.leadsToDir names then .ok () else .error e, d)
  | (.ok (), d) => (.ok (), d)

/-- Make a directory, given with its last component first, and those above it
that are missing. -/
def makeDirs : List Name → Disk → Except IoError Unit × Disk
  | [], d => (.ok (), d)
  | last :: above, d =>
    let names := above.reverse ++ [last]
    match mkdir above.reverse last d with
    | (.error .noEntry, d) =>
      match makeDirs above d with
      | (.ok (), d) => unlessDir names (mkdir above.reverse last d)
      | (.error e, d) => (.error e, d)
    | result => unlessDir names result

/-- The path ends in a dot, so it speaks of a directory that is there. -/
def endsInDot (p : Path) : Bool := p.names ≠ [] && p.route?.any (·.last = Path.here)

/-- Make the directory at a path, and those above it that are missing. A path that
ends in a dot has all but the last of its directories made, and then fails. -/
def createDirs (p : Path) (d : Disk) : Except IoError Unit × Disk :=
  if p = [] then (.ok (), d)
  else
    match p.refusal? with
    | some e => (.error e, d)
    | none =>
      let names := p.names
      if endsInDot p then
        match d.walk [] names with
        | .ok _ => (.ok (), d)
        | .error .noEntry =>
          match makeDirs names.dropLast.reverse d with
          | (.ok (), d) => (.error .noEntry, d)
          | (.error e, d) => (.error e, d)
        | .error e => (.error e, d)
      else makeDirs names.reverse d

/-- Remove the name of a file; handles on the file keep it. -/
def remove (p : Path) (d : Disk) : Except IoError Unit × Disk :=
  match d.locate p with
  | .error e => (.error e, d)
  | .ok (.directory _) => (.error .isDirectory, d)
  | .ok (.entry parent name slash) =>
    match d.entry? parent name with
    | .error e => (.error e, d)
    | .ok none => (.error .noEntry, d)
    | .ok (some .dir) => (.error .isDirectory, d)
    | .ok (some (.file _)) =>
      if slash then (.error .notDirectory, d)
      else (.ok (), { d with tree := d.tree.erase (parent ++ [name]) })

/-- The names under a directory, itself left out. -/
def under (d : Disk) (top : List Name) : List (List Name × Node) :=
  d.tree.toList.filter fun e => top.isPrefixOf e.1 && top.length < e.1.length

/-- The tree without what lies under a name. -/
def emptied (d : Disk) (top : List Name) : Std.ExtTreeMap (List Name) Node :=
  d.tree.filter fun names _ => !(top.isPrefixOf names && top.length < names.length)

/-- The tree without a name and all that lies under it. -/
def pruned (d : Disk) (top : List Name) : Std.ExtTreeMap (List Name) Node :=
  d.tree.filter fun names _ => !top.isPrefixOf names

def moveDir (source target : List Name) (d : Disk) : Disk :=
  let moved := (d.under source).map fun e => (target ++ e.1.drop source.length, e.2)
  { d with tree := ((d.pruned source).insert target .dir).insertMany moved }

/-- Move a name over another. A file replaces a file, a directory an empty one. -/
def rename (source target : Path) (d : Disk) : Except IoError Unit × Disk :=
  match d.locate source with
  | .error e => (.error e, d)
  | .ok a =>
    match d.locate target with
    | .error e => (.error e, d)
    | .ok b =>
      match a, b with
      | .entry parentA nameA slashA, .entry parentB nameB slashB =>
        match d.entry? parentA nameA with
        | .error e => (.error e, d)
        | .ok none => (.error .noEntry, d)
        | .ok (some node) =>
          match d.entry? parentB nameB with
          | .error e => (.error e, d)
          | .ok old =>
            let start := parentA ++ [nameA]
            let goal := parentB ++ [nameB]
            match node with
            | .file i =>
              if slashA || slashB then (.error .notDirectory, d)
              else if goal.isPrefixOf parentA then (.error .notEmpty, d)
              else if old = some .dir then (.error .isDirectory, d)
              else (.ok (), { d with tree := (d.tree.erase start).insert goal (.file i) })
            | .dir =>
              if start = goal then (.ok (), d)
              else if start.isPrefixOf goal then (.error .invalidArgument, d)
              else if goal.isPrefixOf start then (.error .notEmpty, d)
              else
                match old with
                | some (.file _) => (.error .notDirectory, d)
                | some .dir =>
                  if (d.under goal).isEmpty then (.ok (), moveDir start goal d)
                  else (.error .notEmpty, d)
                | none => (.ok (), moveDir start goal d)
      | _, _ => (.error .busy, d)

def list (d : Disk) : List (Path × Option Nat) :=
  let sized := d.tree.toList.map fun e =>
    (Path.join e.1, match e.2 with
      | .file i => some (d.content i).length
      | .dir => none)
  (Std.ExtTreeMap.ofList sized).toList

end LogStore.Disk
