import LogStore.Disk.Basic
import LogStore.Log.Scan
import LogStore.Log.Stock

/-! Reading a log file record by record. A cursor fetches more than it has handed
out, so it may be ahead of its own offset; asked again after the end, it goes on
where the file has grown. A pass over the records stops for good. -/

namespace LogStore

structure Cursor where
  node : Node
  /-- How far the file has been fetched. -/
  position : Nat
  /-- Fetched, and not yet handed out. -/
  ahead : Bytes
  /-- Where the last record read ended. -/
  offset : Nat
  deriving DecidableEq, Repr

/-- A cursor's view of its file as it is now. -/
structure Feed where
  file : Except IoError Bytes
  position : Nat
  ahead : Bytes

namespace Feed

def coming (f : Feed) (bs : Bytes) : Bytes := f.ahead ++ bs.drop f.position

/-- Hand out what is at hand, then what follows in the file, and keep at hand what
was fetched beyond that. -/
def fill (n : Nat) (f : Feed) : Except IoError Bytes × Feed :=
  if n ≤ f.ahead.length then (.ok (f.ahead.take n), { f with ahead := f.ahead.drop n })
  else
    match f.file with
    | .error e => (.error e, { f with ahead := [] })
    | .ok bs =>
      let beyond := bs.drop f.position
      let stock := Stock.gather n ⟨f.ahead.length, beyond.length⟩
      (.ok ((f.coming bs).take n),
        { f with
          position := f.position + (beyond.length - stock.beyond)
          ahead := ((f.coming bs).drop n).take stock.ahead })

def left (f : Feed) : Nat :=
  match f.file with
  | .error _ => f.ahead.length
  | .ok bs => f.ahead.length + (bs.length - f.position)

theorem left_fill {n : Nat} {f f' : Feed} {bs : Bytes} (h : fill n f = (.ok bs, f')) :
    left f' + bs.length ≤ left f := by
  unfold fill at h
  split at h
  · simp only [Prod.mk.injEq, Except.ok.injEq] at h
    obtain ⟨rfl, rfl⟩ := h
    simp only [left, List.length_drop, List.length_take]
    split <;> omega
  · split at h
    · simp at h
    · rename_i file hfile
      simp only [Prod.mk.injEq, Except.ok.injEq] at h
      obtain ⟨rfl, rfl⟩ := h
      have := Stock.total_gather n ⟨f.ahead.length, (file.drop f.position).length⟩
      have := Stock.beyond_gather n ⟨f.ahead.length, (file.drop f.position).length⟩
      simp only [left, coming, hfile, Stock.total, List.length_append, List.length_take,
        List.length_drop] at *
      omega

/-- However far ahead the file is fetched, the bytes come in order and none is lost. -/
theorem fill_eq {n : Nat} {f : Feed} {bs : Bytes} (h : f.file = .ok bs) :
    (fill n f).1 = .ok ((f.coming bs).take n) ∧ (fill n f).2.file = .ok bs ∧
      (fill n f).2.coming bs = (f.coming bs).drop n := by
  unfold fill
  split
  · rename_i hn
    refine ⟨?_, h, ?_⟩
    · simp only [coming, List.take_append_of_le_length hn]
    · simp only [coming, List.drop_append_of_le_length hn]
  · simp only [h, coming, true_and]
    have ht := Stock.total_gather n ⟨f.ahead.length, (bs.drop f.position).length⟩
    have hb := Stock.beyond_gather n ⟨f.ahead.length, (bs.drop f.position).length⟩
    generalize Stock.gather n ⟨f.ahead.length, (bs.drop f.position).length⟩ = s at *
    simp only [Stock.total] at ht hb
    rw [← List.drop_drop]
    generalize bs.drop f.position = rest at *
    have hr : rest.drop (rest.length - s.beyond) = ((f.ahead ++ rest).drop n).drop s.ahead := by
      have ha : f.ahead.drop (n + s.ahead) = [] := List.drop_eq_nil_of_le (by omega)
      rw [List.drop_drop, List.drop_append, ha, List.nil_append]
      by_cases hn : n ≤ f.ahead.length + rest.length
      · congr 1
        omega
      · rw [List.drop_eq_nil_of_le (by omega), List.drop_eq_nil_of_le (by omega)]
    rw [hr, List.take_append_drop]

instance : Source Feed where
  fill := fill
  left := left
  left_fill := left_fill

end Feed

namespace Cursor

def start (node : Node) : Cursor := ⟨node, 0, [], 0⟩

/-- Open a log file at its front; a directory opens too, and fails when read. -/
def openLog (p : Path) (d : Disk) : Except Error Cursor :=
  match d.lookup p with
  | .error e => .error (.io e)
  | .ok node => .ok (start node)

def feed (c : Cursor) (d : Disk) : Feed := ⟨d.read c.node, c.position, c.ahead⟩

/-- The next record, or nothing at a clean end. The offset moves on over records
alone, whatever else was read. -/
def next (c : Cursor) (d : Disk) : Except Error (Option Positioned) × Cursor :=
  match Record.decode (c.feed d) with
  | (.ok r, f) =>
    let p : Positioned := ⟨c.offset, r⟩
    (.ok (some p), ⟨c.node, f.position, f.ahead, p.next⟩)
  | (.error e, f) =>
    (if e = .endOfLog then .ok none else .error e, ⟨c.node, f.position, f.ahead, c.offset⟩)

/-- All that follows, up to the first record that cannot be read. -/
def rest (c : Cursor) (d : Disk) : Scan := scan c.offset (c.feed d)

end Cursor

/-- Going through the records of a log one by one, quietly up to a torn tail. -/
structure Pass where
  cursor : Cursor
  done : Bool
  deriving DecidableEq, Repr

namespace Pass

def start (c : Cursor) : Pass := ⟨c, false⟩

/-- The next record, or the damage in its place. The end and damage end the pass. -/
def next (p : Pass) (d : Disk) : Option (Except Error Positioned) × Pass :=
  if p.done then (none, p)
  else
    match p.cursor.next d with
    | (.ok (some r), c) => (some (.ok r), ⟨c, false⟩)
    | (.ok none, c) => (none, ⟨c, true⟩)
    | (.error e, c) => (if e.isEndOfLog then none else some (.error e), ⟨c, true⟩)

end Pass

end LogStore
