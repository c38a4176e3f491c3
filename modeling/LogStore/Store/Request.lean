import LogStore.Store.Merge

/-! The life of a store as a user sees it: requests go in, answers come out, and
between them a store is open or is not. -/

namespace LogStore

inductive Request where
  | openWith (config : Config)
  /-- Let go of the store without closing it. -/
  | drop
  | get (key : Bytes)
  | set (key value : Bytes)
  | delete (key : Bytes)
  | merge
  | close
  | logSize
  deriving DecidableEq, Repr

inductive Answer where
  | done
  | value (bytes : Bytes)
  | size (length : Nat)
  deriving DecidableEq, Repr

namespace Request

def askStore (r : Request) (s : Store) (w : World) : Except Error Answer × Store × World :=
  match r with
  | .get key => ((s.get key w.disk).map .value, s, w)
  | .set key value => let (a, s, w) := s.set key value w; (a.map fun _ => .done, s, w)
  | .delete key => let (a, s, w) := s.delete key w; (a.map fun _ => .done, s, w)
  | .merge => let (a, s, w) := s.merge w; (a.map fun _ => .done, s, w)
  | .close => let (s, w) := s.close w; (.ok .done, s, w)
  | .logSize => ((s.logSize w.disk).map .size, s, w)
  | .openWith _ | .drop => (.ok .done, s, w)

/-- Put a request where a store may be open. Opening lets go of the one that is;
without one, only opening has an answer. -/
def run (r : Request) (slot : Option Store) (w : World) :
    Option (Except Error Answer) × Option Store × World :=
  match r, slot with
  | .openWith c, _ =>
    match Store.openWith c w with
    | (.ok s, w) => (some (.ok .done), some s, w)
    | (.error e, w) => (some (.error e), none, w)
  | _, none => (none, none, w)
  | .drop, some _ => (some (.ok .done), none, w)
  | r, some s => let (a, s, w) := r.askStore s w; (some a, some s, w)

end Request

end LogStore
