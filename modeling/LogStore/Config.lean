import LogStore.Disk.Basic

/-! How a store is set up: where its log lies, and what merging does to timestamps. -/

namespace LogStore

/-- The timestamp of a record that a merge copies. -/
inductive StampPolicy where
  /-- That of the record. -/
  | preserve
  /-- The time of the merge. -/
  | refresh
  deriving DecidableEq, Repr

def StampPolicy.name : StampPolicy → String
  | .preserve => "preserve"
  | .refresh => "refresh"

structure Config where
  path : Path := "./caskkv.db".toList
  createDirs : Bool := true
  stamps : StampPolicy := .preserve
  deriving DecidableEq, Repr

namespace Config

def version : String := "0.1.0"

def activeFile : FileId := 0

/-- The file that a merge writes before it takes the log's place. -/
def mergePath (c : Config) : Path := c.path.beside ".merge"

def validate (c : Config) (d : Disk) : Except Error Unit :=
  if c.path = [] then .error (.config "log path is empty")
  else if d.isDir c.path then
    .error (.config ("log path " ++ String.ofList c.path ++ " is a directory"))
  else .ok ()

end Config

end LogStore
