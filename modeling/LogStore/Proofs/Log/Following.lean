import LogStore.Proofs.Log.Cursor
import LogStore.Proofs.Log.InStep

/-! A cursor that follows a growing log. It may be ahead of its offset, but never of its file; so
when the file has grown, what it has fetched and what it will fetch are the records still to come,
as before, with the new ones behind them. -/

namespace LogStore

open Disk

/-- A feed of a file of this content gives these bytes, and has not been fetched beyond its end. -/
def Feed.Within (file : Bytes) (f : Feed) (bs : Bytes) : Prop :=
  f.Gives file bs ∧ f.position ≤ file.length

theorem Feed.fill_within {file : Bytes} (n : Nat) (f : Feed) (bs : Bytes) (h : f.Within file bs) :
    (Source.fill n f).1 = (Source.fill n bs).1 ∧
      Within file (Source.fill n f).2 (Source.fill n bs).2 := by
  obtain ⟨hgives, hle⟩ := h
  obtain ⟨hfirst, hrest⟩ := Feed.fill_gives n f bs hgives
  refine ⟨hfirst, hrest, ?_⟩
  simp only [Source.fill, Feed.fill, hgives.1]
  split
  · exact hle
  · simp only [List.length_drop]
    omega

/-- Each record of a log lies behind those before it. -/
theorem getElem?_positions (o k : Nat) (rs : List Record) : (positions o rs)[k]? =
    rs[k]?.map fun r => ⟨o + ((rs.take k).map Record.encodedLen).sum, r⟩ := by
  induction rs generalizing o k with
  | nil => simp
  | cons r rs ih =>
    cases k with
    | zero => rfl
    | succ k =>
      rw [positions, List.getElem?_cons_succ, ih, List.getElem?_cons_succ, List.take_succ_cons,
        List.map_cons, List.sum_cons, Nat.add_assoc]

namespace Cursor

variable {c : Cursor} {d d' : Disk} {no : FileNo} {log more : List Record} {k : Nat}

/-- The cursor has read so many records of the log in its file, and stands before the next. -/
structure Before (c : Cursor) (d : Disk) (no : FileNo) (log : List Record) (k : Nat) : Prop where
  node : c.node = .file no
  faces : c.Faces d (logBytes log) (logBytes (log.drop k))
  position : c.position ≤ (logBytes log).length
  offset : c.offset = ((log.take k).map Record.encodedLen).sum
  le : k ≤ log.length

theorem before_start (h : d.content no = logBytes log) : (start (.file no)).Before d no log 0 :=
  ⟨rfl, faces_start (congrArg Except.ok h), Nat.zero_le _, rfl, Nat.zero_le _⟩

theorem node_next (c : Cursor) (d : Disk) : (c.next d).2.node = c.node := by
  rw [next]
  split <;> rfl

theorem position_next {file bs : Bytes} (h : c.Faces d file bs) (hle : c.position ≤ file.length) :
    (c.next d).2.position ≤ file.length := by
  have hbefore : (c.feed d).Within file bs := ⟨h, hle⟩
  have hwithin := (Record.decode_alike Feed.fill_within hbefore).2
  rw [next]
  split <;> rename_i hdecode <;> rw [hdecode] at hwithin <;> exact hwithin.2

namespace Before

theorem content (h : c.Before d no log k) : d.content no = logBytes log := by
  have hread := h.faces.1
  rw [feed, h.node] at hread
  exact Except.ok.inj hread

theorem grown (h : c.Before d no log k) (hc : d'.content no = logBytes (log ++ more)) :
    c.Before d' no (log ++ more) k := by
  have hcoming := h.faces.2
  refine ⟨h.node, ⟨?_, ?_⟩, ?_, ?_, ?_⟩
  · rw [feed, h.node]
    exact congrArg Except.ok hc
  · simp only [feed, Feed.coming] at hcoming ⊢
    rw [logBytes_append, List.drop_append_of_le_length h.position, ← List.append_assoc, hcoming,
      ← logBytes_append, List.drop_append_of_le_length h.le]
  · rw [logBytes_append, List.length_append]
    exact Nat.le_add_right_of_le h.position
  · rw [List.take_append_of_le_length h.le]
    exact h.offset
  · rw [List.length_append]
    exact Nat.le_add_right_of_le h.le

/-- One call gives the next record, in its place, or nothing where there is none. -/
theorem next (h : c.Before d no log k) (hfits : ∀ r ∈ log, r.Fits) :
    (c.next d).1 = .ok (positions 0 log)[k]? ∧
      (c.next d).2.Before d no log (k + (positions 0 log)[k]?.toList.length) := by
  have hnode := (node_next c d).trans h.node
  have hposition := position_next h.faces h.position
  rw [getElem?_positions]
  rcases Nat.lt_or_ge k log.length with hlt | hge
  · have hfit : log[k].Fits := hfits _ (List.getElem_mem hlt)
    have hfaces := h.faces
    rw [List.drop_eq_getElem_cons hlt, logBytes_cons] at hfaces
    obtain ⟨c', hnext, hfaces', hoffset⟩ := next_ok hfaces (Record.decode_bytes hfit _)
    rw [hnext] at hnode hposition ⊢
    rw [List.getElem?_eq_getElem hlt, h.offset]
    refine ⟨by simp, hnode, hfaces', hposition, ?_, hlt⟩
    simp only [Option.map_some, Option.toList_some, List.length_singleton]
    rw [hoffset, h.offset, List.take_succ_eq_append_getElem hlt, List.map_append, List.sum_append,
      List.map_singleton, List.sum_singleton]
  · have hfaces := h.faces
    have hempty : logBytes (log.drop k) = [] := by rw [List.drop_of_length_le hge, logBytes_nil]
    rw [hempty] at hfaces
    obtain ⟨c', hnext, hfaces', hoffset⟩ := next_error hfaces Record.decode_nil
    rw [hnext] at hnode hposition ⊢
    rw [List.getElem?_eq_none hge]
    exact ⟨rfl, hnode, hempty ▸ hfaces', hposition, hoffset.trans h.offset, h.le⟩

end Before

/-- What calls on a cursor give that a writer comes between. The records are those that the writer
puts behind the log, in the order in which it does. -/
inductive Interleaved {σ : Type} (writes : σ → World → List Record → σ → World → Prop)
    (c : Cursor) (s : σ) (w : World) :
    List (Except Error (Option Positioned)) → List Record → Cursor → σ → World → Prop
  | start : Interleaved writes c s w [] [] c s w
  | read {xs : List (Except Error (Option Positioned))} {rs : List Record} {c' : Cursor} {s' : σ}
    {w' : World} : Interleaved writes c s w xs rs c' s' w' →
    Interleaved writes c s w (xs ++ [(c'.next w'.disk).1]) rs (c'.next w'.disk).2 s' w'
  | write {xs : List (Except Error (Option Positioned))} {rs more : List Record} {c' : Cursor}
    {s' s'' : σ} {w' w'' : World} : Interleaved writes c s w xs rs c' s' w' →
    writes s' w' more s'' w'' → Interleaved writes c s w xs (rs ++ more) c' s'' w''

/-- The calls have given the first records of this log, each with its place, and the next call will
give the record behind them, or nothing if there is none. -/
structure Follows (log : List Record) (ys : List (Option Positioned)) (c : Cursor) (d : Disk) :
    Prop where
  given : ∀ {k : Nat} {p : Positioned}, (ys.filterMap id)[k]? = some p →
    log[k]? = some p.record ∧ p.offset = ((log.take k).map Record.encodedLen).sum
  next : ∀ {k : Nat}, k = (ys.filterMap id).length → (c.next d).1 =
    .ok (log[k]?.map fun r => ⟨((log.take k).map Record.encodedLen).sum, r⟩)

variable {σ : Type} {writes : σ → World → List Record → σ → World → Prop}
  {Inv : σ → World → List Record → Prop} {s s' : σ} {w w' : World} {c' : Cursor}
  {xs : List (Except Error (Option Positioned))} {rs : List Record}

theorem filterMap_concat (ys : List (Option Positioned)) (y : Option Positioned) :
    (ys ++ [y]).filterMap id = ys.filterMap id ++ y.toList := by
  rw [List.filterMap_append]
  cases y <;> rfl

theorem take_length_toList (ps : List Positioned) (k : Nat) :
    ps.take (k + ps[k]?.toList.length) = ps.take k ++ ps[k]?.toList := by
  cases h : ps[k]? with
  | none => rw [Option.toList_none, List.append_nil, List.length_nil, Nat.add_zero]
  | some p =>
    rw [Option.toList_some, List.length_singleton, List.take_add_one, h]
    rfl

theorem take_positions_append {ps : List Positioned}
    (h : ps = (positions 0 log).take ps.length) (more : List Record) :
    ps = (positions 0 (log ++ more)).take ps.length := by
  have hle : ps.length ≤ (positions 0 log).length := by
    have hlen := congrArg List.length h
    rw [List.length_take] at hlen
    omega
  rwa [positions_append, List.take_append_of_le_length hle]

/-- As long as the writer keeps to whole records, the cursor stands before the next of them. The
induction is on the run: a call takes one record or finds none, and a write adds some at the end. -/
theorem Interleaved.before (h : Interleaved writes c s w xs rs c' s' w')
    (hlog : ∀ {s w log}, Inv s w log → w.disk.content no = logBytes log ∧ ∀ r ∈ log, r.Fits)
    (hwrites : ∀ {s w log more s' w'}, Inv s w log → writes s w more s' w' →
      Inv s' w' (log ++ more))
    (hc : c.Before w.disk no log 0) (hinv : Inv s w log) :
    Inv s' w' (log ++ rs) ∧ ∃ ys : List (Option Positioned), xs = ys.map .ok ∧
      ys.filterMap id = (positions 0 (log ++ rs)).take (ys.filterMap id).length ∧
      c'.Before w'.disk no (log ++ rs) (ys.filterMap id).length := by
  induction h with
  | start =>
    rw [List.append_nil]
    exact ⟨hinv, [], rfl, rfl, hc⟩
  | @read xs rs c' s' w' _ ih =>
    obtain ⟨hinv', ys, rfl, hys, hbefore⟩ := ih
    obtain ⟨hnext, hafter⟩ := hbefore.next (hlog hinv').2
    refine ⟨hinv', ys ++ [(positions 0 (log ++ rs))[(ys.filterMap id).length]?], ?_, ?_, ?_⟩
    · rw [hnext, List.map_append, List.map_singleton]
    · rw [filterMap_concat, List.length_append, take_length_toList, ← hys]
    · rwa [filterMap_concat, List.length_append]
  | @write xs rs more c' s' s'' w' w'' _ hstep ih =>
    obtain ⟨hinv', ys, rfl, hys, hbefore⟩ := ih
    have hinv'' := hwrites hinv' hstep
    have hgrown := hbefore.grown (hlog hinv'').1
    have hmore := take_positions_append hys more
    rw [List.append_assoc] at hinv'' hgrown hmore
    exact ⟨hinv'', ys, rfl, hmore, hgrown⟩

theorem Interleaved.follows (h : Interleaved writes c s w xs rs c' s' w')
    (hlog : ∀ {s w log}, Inv s w log → w.disk.content no = logBytes log ∧ ∀ r ∈ log, r.Fits)
    (hwrites : ∀ {s w log more s' w'}, Inv s w log → writes s w more s' w' →
      Inv s' w' (log ++ more))
    (hc : c.Before w.disk no log 0) (hinv : Inv s w log) :
    ∃ ys : List (Option Positioned), xs = ys.map .ok ∧ Follows (log ++ rs) ys c' w'.disk := by
  obtain ⟨hinv', ys, hxs, hys, hbefore⟩ := h.before hlog hwrites hc hinv
  refine ⟨ys, hxs, fun {k p} hp => ?_, fun {k} hk => ?_⟩
  · have hlt : k < (ys.filterMap id).length := (List.getElem?_eq_some_iff.mp hp).1
    rw [hys, List.getElem?_take_of_lt hlt, getElem?_positions] at hp
    obtain ⟨r, hr, rfl⟩ := Option.map_eq_some_iff.mp hp
    exact ⟨hr, Nat.zero_add _⟩
  · rw [hk, (hbefore.next (hlog hinv').2).1, getElem?_positions]
    simp only [Nat.zero_add]

end Cursor

namespace Appender

variable {p : Path} {no : FileNo} {log more : List Record} {slot slot' : Option Appender}
  {b : Appender} {w w' : World}

/-- What the writer of a log does: it opens the log, with nothing to cut off, and then appends. -/
inductive Writes (p : Path) : Option Appender → World → List Record → Option Appender → World → Prop
  | opened {fileId : FileId} {n? : Option Nat} {a : Appender} {w v : World} :
    openAt p fileId n? w = (.ok a, v) → keptOf (w.disk.found p) n? = w.disk.found p →
    Writes p none w [] (some a) v
  | appended {a b : Appender} {w v : World} {rs : List Record} :
    Runs a w rs b v → Writes p (some a) w rs (some b) v

def InUse (p : Path) (b : Appender) (w : World) : Prop :=
  ∃ w₀ fileId n? a v rs, w₀.disk.Sound ∧ openAt p fileId n? w₀ = (.ok a, v) ∧ Runs a v rs b w

theorem InUse.inStep (h : InUse p b w) : b.InStep w.disk (w.disk.content b.file) := by
  obtain ⟨w₀, fileId, n?, a, v, rs, hd, hopen, hruns⟩ := h
  obtain ⟨-, -, hstep⟩ := (opened_of_openAt hd hopen).inStep.runs hruns
  rwa [hstep.content]

/-- A log of these records lies in the file, and its writer, if there is one, is in step with it. -/
structure Keeps (p : Path) (no : FileNo) (slot : Option Appender) (w : World) (log : List Record) :
    Prop where
  sound : w.disk.Sound
  content : w.disk.content no = logBytes log
  fits : ∀ r ∈ log, r.Fits
  vacant : slot = none → w.disk.lookup p = .ok (.file no)
  writer : ∀ {a : Appender}, slot = some a → a.file = no ∧ a.InStep w.disk (logBytes log)

theorem Keeps.writes (h : Keeps p no slot w log) (hw : Writes p slot w more slot' w') :
    Keeps p no slot' w' (log ++ more) := by
  cases hw with
  | @opened fileId n? a w v hopen hkept =>
    have hlook := h.vacant rfl
    have hopened := opened_of_openAt h.sound hopen
    have hfile := hopened.file hlook
    have hstep := hopened.inStep
    have hfound : w.disk.found p = logBytes log := by
      rw [found, bytesAt_file hlook, h.content]
      rfl
    rw [hkept, hfound] at hstep
    rw [List.append_nil]
    refine ⟨hstep.sound, hfile ▸ hstep.content, h.fits, fun hnone => ?_, fun hsome => ?_⟩
    · cases hnone
    · cases hsome
      exact ⟨hfile, hstep⟩
  | appended hruns =>
    obtain ⟨hfile, hstep⟩ := h.writer rfl
    obtain ⟨hfile', hfits, hstep'⟩ := hstep.runs hruns
    have hno := hfile'.trans hfile
    rw [← logBytes_append] at hstep'
    refine ⟨hstep'.sound, hno ▸ hstep'.content, fun r hr => ?_, fun hnone => ?_, fun hsome => ?_⟩
    · exact (List.mem_append.mp hr).elim (h.fits r) (hfits r)
    · cases hnone
    · cases hsome
      exact ⟨hno, hstep'⟩

end Appender

end LogStore
