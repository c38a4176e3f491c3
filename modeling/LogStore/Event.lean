import LogStore.Error
import LogStore.Disk.Path

/-! What a store reports about its work, and the line of text for each report. -/

namespace LogStore

inductive Event where
  | removingStale (path : Path)
  | creating (path : Path)
  | recovered (path : Path) (records tombstones liveKeys : Nat)
  | endsInPartial (path : Path) (validLen discarded : Nat)
  | cuttingTail (path : Path) (discarded : Nat) (savedTo : Path)
  | set (offset size : Nat)
  | delete (offset : Nat)
  | rollbackFailed (cause : IoError) (offset : Nat)
  | merged (path : Path) (before after liveKeys : Nat)
  | removeFailed (path : Path) (cause : IoError)
  | closed (path : Path)
  deriving DecidableEq, Repr

namespace Event

def line (head : String) (fields : List (String × String)) : String :=
  " ".intercalate (head :: fields.map fun f => f.1 ++ "=" ++ f.2)

def text : Event → String
  | .removingStale path => line "WARN removing stale merge file" [("path", String.ofList path)]
  | .creating path => line "INFO creating new log" [("path", String.ofList path)]
  | .recovered path records tombstones liveKeys =>
    line "INFO log recovered" [("path", String.ofList path), ("records", toString records),
      ("tombstones", toString tombstones), ("live_keys", toString liveKeys)]
  | .endsInPartial path validLen discarded =>
    line "WARN log ends in a partial record" [("path", String.ofList path),
      ("valid_len", toString validLen), ("discarded", toString discarded)]
  | .cuttingTail path discarded savedTo =>
    line "WARN truncating torn tail of log" [("path", String.ofList path),
      ("discarded", toString discarded), ("saved_to", String.ofList savedTo)]
  | .set offset size => line "DEBUG set" [("offset", toString offset), ("size", toString size)]
  | .delete offset => line "DEBUG delete" [("offset", toString offset)]
  | .rollbackFailed cause offset =>
    line "WARN failed to roll back torn append" [("error", cause.message),
      ("offset", toString offset)]
  | .merged path before after liveKeys =>
    line "INFO merge complete" [("path", String.ofList path), ("before", toString before),
      ("after", toString after), ("live_keys", toString liveKeys)]
  | .removeFailed path cause =>
    line "WARN failed to remove merge file" [("path", String.ofList path),
      ("error", cause.message)]
  | .closed path => line "INFO engine closed" [("path", String.ofList path)]

end Event

end LogStore
