import LogStore.Segment.Basic

/-! The segments a store reads from, by number. A closed store has none. -/

namespace LogStore

abbrev Segments := Std.ExtTreeMap FileId Segment

namespace Segments

def single (s : Segment) : Segments := (∅ : Segments).insert s.fileId s

def read (t : Segments) (e : Entry) (d : Disk) : Except Error Bytes :=
  if t.isEmpty then .error .closed
  else
    match t[e.fileId]? with
    | none => .error (.corruptIndex e.fileId e.valuePos e.valueSize 0)
    | some s => s.read e d

def get (t : Segments) (ix : Index) (key : Bytes) (d : Disk) : Except Error Bytes :=
  if t.isEmpty then .error .closed
  else
    match ix[key]? with
    | none => .error .keyNotFound
    | some e => t.read e d

/-- The size of a segment; one that is not there has none. -/
def length (t : Segments) (fileId : FileId) (d : Disk) : Except Error Nat :=
  match t[fileId]? with
  | some s => .ok (s.length d)
  | none => if t.isEmpty then .error .closed else .ok 0

/-- Put a segment in place of the one with its number, provided that `commit`
succeeds. In a closed table nothing is tried. -/
def swap {σ α : Type} (t : Segments) (s : Segment) (commit : σ → Except Error α × σ) (w : σ) :
    Except Error α × Segments × σ :=
  if t.isEmpty then (.error .closed, t, w)
  else
    match commit w with
    | (.error e, w) => (.error e, t, w)
    | (.ok a, w) => (.ok a, t.insert s.fileId s, w)

end Segments

end LogStore
