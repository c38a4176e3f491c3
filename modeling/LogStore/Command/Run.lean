import LogStore.Command.Arguments
import LogStore.Store.Merge
import LogStore.Text.Utf8

/-! What the command line does: each invocation opens the store, carries out one
command, and closes the store again. -/

namespace LogStore

structure Outcome where
  code : Nat
  stdout : String
  stderr : String
  deriving DecidableEq, Repr

namespace Command

def perform (c : Command) (s : Store) (w : World) : Except Error String × Store × World :=
  match c with
  | .get key =>
    ((s.get (Text.toBytes key) w.disk).map fun value => Text.ofBytes value ++ "\n", s, w)
  | .set key value =>
    let (a, s, w) := s.set (Text.toBytes key) (Text.toBytes value) w
    (a.map fun _ => "", s, w)
  | .del key =>
    let (a, s, w) := s.delete (Text.toBytes key) w
    (a.map fun _ => "Key deleted successfully\n", s, w)
  | .merge =>
    let (a, s, w) := s.merge w
    (a.map fun _ => "Database merged successfully\n", s, w)

end Command

namespace Outcome

def failure (e : Error) : Outcome := ⟨1, "", "Error: " ++ e.message ++ "\n"⟩

def usageText : String :=
  "Usage: caskkv [--db PATH] get KEY | set KEY VALUE | del KEY | merge\n"

def usage : Outcome := ⟨2, "", usageText⟩

end Outcome

/-- A store whose command fails is not closed. -/
def Invocation.run (i : Invocation) (w : World) : Outcome × World :=
  match Store.openPath i.log w with
  | (.error e, w) => (.failure e, w)
  | (.ok s, w) =>
    match i.command.perform s w with
    | (.error e, _, w) => (.failure e, w)
    | (.ok out, s, w) => (⟨0, out, ""⟩, (s.close w).2)

def Wish.run (wish : Wish) (w : World) : Outcome × World :=
  match wish with
  | .invoke i => i.run w
  | .version => (⟨0, "caskkv " ++ Config.version ++ "\n", ""⟩, w)
  | .help => (⟨0, Outcome.usageText, ""⟩, w)
  | .unclear => (.usage, w)

end LogStore
