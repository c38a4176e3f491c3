import LogStore.Disk.Path

/-! The arguments of the command line: options, then a command with its operands.
An argument that starts with a dash is an option, unless it is a dash alone or
comes after a double dash. -/

namespace LogStore

inductive Command where
  | get (key : String)
  | set (key value : String)
  | del (key : String)
  | merge
  deriving DecidableEq, Repr

structure Invocation where
  log : Path
  command : Command
  deriving DecidableEq, Repr

inductive Wish where
  | invoke (i : Invocation)
  | version
  | help
  | unclear
  deriving DecidableEq, Repr

namespace Command

def defaultLog : String := "bitcask.db"

def isOption (arg : String) : Bool :=
  match arg.toList with
  | '-' :: _ :: _ => true
  | _ => false

def isHelp (arg : String) : Bool :=
  arg = "--help" ||
    match arg.toList with
    | '-' :: 'h' :: _ => true
    | _ => false

/-- Exactly `n` operands, put behind those in `found`; for help, none. -/
def operands (n : Nat) (found : List String) : List String → Option (Option (List String))
  | [] => if n = 0 then some (some found) else none
  | arg :: rest =>
    if arg = "--" then if rest.length = n then some (some (found ++ rest)) else none
    else if isOption arg then if isHelp arg then some none else none
    else if n = 0 then none
    else operands (n - 1) (found ++ [arg]) rest

def topics : List String := ["get", "set", "del", "merge", "help"]

def help : List String → Wish
  | [] => .help
  | [topic] => if topics.contains topic then .help else .unclear
  | _ => .unclear

def read (log : Path) (name : String) (args : List String) : Wish :=
  let withOperands (n : Nat) (make : List String → Option Command) : Wish :=
    match operands n [] args with
    | none => .unclear
    | some none => .help
    | some (some found) =>
      match make found with
      | some c => .invoke ⟨log, c⟩
      | none => .unclear
  match name with
  | "get" => withOperands 1 fun
    | [key] => some (.get key)
    | _ => none
  | "set" => withOperands 2 fun
    | [key, value] => some (.set key value)
    | _ => none
  | "del" => withOperands 1 fun
    | [key] => some (.del key)
    | _ => none
  | "merge" => withOperands 0 fun _ => some .merge
  | "help" => help args
  | _ => .unclear

def logOption? (arg : String) : Option String :=
  if "--db=".toList.isPrefixOf arg.toList then some (String.ofList (arg.toList.drop 5)) else none

end Command

namespace Wish

/-- Read the arguments. The log is named at most once, and not by the empty path. -/
def ofArgs (log : Option String) : List String → Wish
  | [] => .unclear
  | "--db" :: [] => .unclear
  | "--db" :: value :: rest =>
    if Command.isOption value || value = "" || log.isSome then .unclear
    else ofArgs (some value) rest
  | arg :: rest =>
    match Command.logOption? arg with
    | some value => if value = "" || log.isSome then .unclear else ofArgs (some value) rest
    | none =>
      if arg = "--version" then .version
      else if Command.isHelp arg then .help
      else if Command.isOption arg then
        if arg.toList.take 2 = ['-', 'V'] then .version else .unclear
      else Command.read (log.getD Command.defaultLog).toList arg rest

end Wish

end LogStore
