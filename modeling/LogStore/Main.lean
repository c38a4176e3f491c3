import Std.Time.DateTime.Timestamp
import LogStore.Command.Run
import LogStore.Disk.Edit

/-! The program. It loads the log and the files beside it, lets the command work on
them in memory, and then brings the files in line with the outcome. -/

namespace LogStore.Files

def above : Path → Path → List Path
  | _, [] => []
  | done, c :: rest =>
    let further := above (done ++ [c]) rest
    if c = '/' && done ≠ [] then done :: further else further

def load (d : Disk) (p : Path) : IO Disk := do
  let found ← try some <$> IO.FS.realPath (String.ofList p) catch _ => pure none
  match found with
  | none => return d
  | some place =>
    if ← place.isDir then return (Disk.createDirs p d).2
    else return (Disk.putFile p (← IO.FS.readBinFile place).toList d).2

/-- Append what has been added to a file, or write the file beside its place and
rename it into it. -/
def update (p : Path) (old new : Bytes) : IO Unit := do
  let name := String.ofList p
  if old.isPrefixOf new then
    let h ← IO.FS.Handle.mk name .append
    h.write (new.drop old.length).toByteArray
    h.flush
  else
    let fresh := String.ofList (p.beside ".merge")
    IO.FS.writeBinFile fresh new.toByteArray
    IO.FS.rename fresh name

def save (before after : Disk) (p : Path) : IO Unit := do
  match before.lookup p, after.lookup p with
  | .ok (.file i), .ok (.file j) =>
    if before.content i ≠ after.content j then update p (before.content i) (after.content j)
  | .ok (.file _), .error _ => IO.FS.removeFile (String.ofList p)
  | .error _, .ok (.file j) => update p [] (after.content j)
  | .error _, .ok .dir => IO.FS.createDirAll (String.ofList p)
  | _, _ => return ()

/-- Carry out an invocation on the files it names. A tail is saved before the log
it was cut from is. -/
def invoke (i : Invocation) : IO Outcome := do
  let dirs := above [] i.log
  let files := [i.log.beside ".merge", Appender.tornPath i.log, i.log]
  let before ← (dirs ++ files).foldlM load Disk.empty
  let time ← Std.Time.Timestamp.now
  let (out, w) := i.run ⟨before, time.toSecondsSinceUnixEpoch.val, []⟩
  (dirs ++ files).forM (save before w.disk)
  return out

end LogStore.Files

def main (args : List String) : IO UInt32 := do
  let wish := LogStore.Wish.ofArgs none args
  try
    let out ← match wish with
      | .invoke i => LogStore.Files.invoke i
      | _ => pure (wish.run (LogStore.World.empty 0)).1
    (← IO.getStdout).putStr out.stdout
    (← IO.getStderr).putStr out.stderr
    return UInt32.ofNat out.code
  catch e =>
    (← IO.getStderr).putStr ("Error: " ++ toString e ++ "\n")
    return 1
