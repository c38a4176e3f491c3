import LogStore.Proofs.Disk.Mirror
import LogStore.Proofs.Segment
import LogStore.Proofs.Store.Sound

/-! Two stores that differ in how their files are numbered give the same answers, and go on
differing in nothing else. What works on open files alone does so even where the names on the
two disks differ. -/

namespace LogStore

open Disk

/-- The clocks are the same, and so are the files that stand for each other; what has been
reported makes no difference. -/
structure World.OnTrees (o o' : Disk) (R : Numbering) (w w' : World) : Prop where
  disk : Disk.OnTrees o o' R w.disk w'.disk
  clock : w'.clock = w.clock

/-- Moreover, the names are the same. -/
structure World.Mirrors (R : Numbering) (w w' : World) : Prop where
  disk : Disk.Mirrors R w.disk w'.disk
  clock : w'.clock = w.clock

theorem World.Mirrors.of_onTrees {R : Numbering} {w w' v v' : World} (h : World.Mirrors R w w')
    (ho : World.OnTrees w.disk w'.disk R v v') : World.Mirrors R v v' :=
  ⟨h.disk.of_onTrees ho.disk, ho.clock⟩

theorem World.Mirrors.onTrees {R : Numbering} {w w' : World} (h : World.Mirrors R w w') :
    World.OnTrees w.disk w'.disk R w w' :=
  ⟨.of_sameFiles h.disk.toSameFiles, h.clock⟩

inductive Appender.Mirrors (R : Numbering) : Appender → Appender → Prop
  | mk {a : Appender} {j : FileNo} (h : R a.file j) : Appender.Mirrors R a { a with file := j }

inductive Compactor.Mirrors (R : Numbering) : Compactor → Compactor → Prop
  | mk {c : Compactor} {j : FileNo} (h : R c.file j) : Compactor.Mirrors R c { c with file := j }

inductive Segment.Mirrors (R : Numbering) : Segment → Segment → Prop
  | mk {s : Segment} {n : Node} (h : Node.Mirrors R s.node n) :
    Segment.Mirrors R s { s with node := n }

def Segments.Mirrors (R : Numbering) (t t' : Segments) : Prop :=
  ∀ id : FileId, Option.Rel (Segment.Mirrors R) t[id]? t'[id]?

inductive Store.Mirrors (R : Numbering) : Store → Store → Prop
  | mk {s : Store} {segments : Segments} {appender : Option Appender}
    (hs : Segments.Mirrors R s.segments segments)
    (ha : Option.Rel (Appender.Mirrors R) s.appender appender) :
    Store.Mirrors R s { s with segments, appender }

/-- Two runs of one step: the same answer, and what is left goes together. -/
structure Parallel {α σ τ ω ω' : Type} (S : σ → τ → Prop) (W : ω → ω' → Prop)
    (x : α × σ × ω) (y : α × τ × ω') : Prop where
  answer : y.1 = x.1
  left : S x.2.1 y.2.1
  rest : W x.2.2 y.2.2

variable {R R' : Numbering} {o o' d d' : Disk} {w w' : World}

/-! Reading and writing open files. -/

namespace Segments

theorem Mirrors.isEmpty_eq {a b : Segments} (h : Mirrors R a b) : b.isEmpty = a.isEmpty := by
  rw [Bool.eq_iff_iff, isEmpty_iff_getElem?, isEmpty_iff_getElem?]
  refine forall_congr' fun id => ?_
  have he := h id
  generalize a[id]? = x at he ⊢
  generalize b[id]? = y at he ⊢
  cases he <;> simp

theorem Mirrors.insert {a b : Segments} (h : Mirrors R a b) {s s' : Segment}
    (hs : Segment.Mirrors R s s') : Mirrors R (a.insert s.fileId s) (b.insert s'.fileId s') := by
  cases hs with
  | mk hn =>
    intro id
    rw [Std.ExtTreeMap.getElem?_insert, Std.ExtTreeMap.getElem?_insert]
    split
    · exact .some (.mk hn)
    · exact h id

theorem Mirrors.empty : Mirrors R ∅ ∅ := fun id => by simp

theorem Mirrors.single {s s' : Segment} (hs : Segment.Mirrors R s s') :
    Mirrors R (single s) (single s') :=
  empty.insert hs

end Segments

theorem Segment.Mirrors.read_eq {s s' : Segment} (h : Segment.Mirrors R s s')
    (hd : SameFiles R d d') (e : Entry) : s'.read e d' = s.read e d := by
  cases h with
  | mk hn => simp only [Segment.read, hd.read_eq hn]

namespace Segments.Mirrors

variable {a b : Segments}

theorem read_eq (h : Mirrors R a b) (hd : SameFiles R d d') (e : Entry) :
    b.read e d' = a.read e d := by
  have he := h e.fileId
  simp only [Segments.read, h.isEmpty_eq]
  generalize a[e.fileId]? = x at he ⊢
  generalize b[e.fileId]? = y at he ⊢
  cases he with
  | none => rfl
  | some hs => simp only [hs.read_eq hd]

theorem get_eq (h : Mirrors R a b) (hd : SameFiles R d d') (ix : Index) (key : Bytes) :
    b.get ix key d' = a.get ix key d := by
  simp only [Segments.get, h.isEmpty_eq, h.read_eq hd]

theorem length_eq (h : Mirrors R a b) (hd : SameFiles R d d') (id : FileId) :
    b.length id d' = a.length id d := by
  have he := h id
  simp only [Segments.length, h.isEmpty_eq]
  generalize a[id]? = x at he ⊢
  generalize b[id]? = y at he ⊢
  cases he with
  | none => rfl
  | some hs =>
    cases hs with
    | mk hn => simp only [Segment.length, hd.sizeOf_eq hn]

end Segments.Mirrors

namespace Appender

variable {a b : Appender}

theorem Mirrors.rollBack (ha : Mirrors R a b) (hw : World.OnTrees o o' R w w') :
    World.OnTrees o o' R (a.rollBack w) (b.rollBack w') := by
  cases ha with
  | mk hij =>
    obtain ⟨hsame, hd⟩ := hw.disk.setLength hij a.offset
    unfold Appender.rollBack
    dsimp only
    rcases hx : Disk.setLength a.file a.offset w.disk with ⟨x, d⟩
    rcases hy : Disk.setLength _ a.offset w'.disk with ⟨y, d'⟩
    rw [hx, hy] at hsame hd
    cases hsame
    cases x <;> exact ⟨hd, hw.clock⟩

theorem Mirrors.append (ha : Mirrors R a b) (hw : World.OnTrees o o' R w w') (r : Record) :
    Parallel (Mirrors R) (World.OnTrees o o' R) (a.append r w) (b.append r w') := by
  have hback := fun {w w' : World} (hw : World.OnTrees o o' R w w') => ha.rollBack hw
  cases ha with
  | @mk j hij =>
    unfold Appender.append
    cases r.encode with
    | error e => exact ⟨rfl, .mk hij, hw⟩
    | ok bs =>
      obtain ⟨hsame, hd⟩ := hw.disk.appendAll hij bs
      dsimp only
      rcases hx : w.disk.appendAll a.file bs with ⟨x, d⟩
      rcases hy : w'.disk.appendAll j bs with ⟨y, d'⟩
      rw [hx, hy] at hsame hd
      cases hsame
      cases x with
      | error e => exact ⟨rfl, .mk hij, hback ⟨hd, hw.clock⟩⟩
      | ok => exact ⟨rfl, .mk hij, hd, hw.clock⟩

end Appender

namespace Compactor

variable {c c' : Compactor}

theorem Mirrors.emit (hc : Mirrors R c c') (hd : Disk.OnTrees o o' R d d') (bs : Bytes) :
    Parallel (Mirrors R) (Disk.OnTrees o o' R) (c.emit bs d) (c'.emit bs d') := by
  cases hc with
  | mk hij =>
    obtain ⟨hsame, hd⟩ := hd.write hij c.position bs
    simp only [Compactor.emit, hsame]
    exact ⟨rfl, .mk hij, hd⟩

theorem Mirrors.flush (hc : Mirrors R c c') (hd : Disk.OnTrees o o' R d d') :
    Parallel (Mirrors R) (Disk.OnTrees o o' R) (c.flush d) (c'.flush d') := by
  cases hc with
  | mk hij =>
    obtain ⟨hsame, hd⟩ := hd.write hij c.position c.pending
    simp only [Compactor.flush, Compactor.emit, hsame]
    exact ⟨rfl, .mk hij, hd⟩

theorem Mirrors.abandon (hc : Mirrors R c c') (hd : Disk.OnTrees o o' R d d') :
    Disk.OnTrees o o' R (c.abandon d) (c'.abandon d') :=
  (hc.flush hd).rest

theorem Mirrors.push (hc : Mirrors R c c') (hd : Disk.OnTrees o o' R d d') (bs : Bytes) :
    Parallel (Mirrors R) (Disk.OnTrees o o' R) (c.push bs d) (c'.push bs d') := by
  -- with room made, the bytes are held back, or written at once
  have place : ∀ {c c' : Compactor} {d d' : Disk}, Mirrors R c c' → Disk.OnTrees o o' R d d' →
      Parallel (Mirrors R) (Disk.OnTrees o o' R)
        (if capacity ≤ bs.length then c.emit bs d
          else (.ok (), { c with pending := c.pending ++ bs }, d))
        (if capacity ≤ bs.length then c'.emit bs d'
          else (.ok (), { c' with pending := c'.pending ++ bs }, d')) := by
    intro c c' d d' hc hd
    split
    · exact hc.emit hd bs
    · cases hc with
      | mk hij => exact ⟨rfl, .mk hij, hd⟩
  have hpending : c'.pending = c.pending := by cases hc; rfl
  unfold Compactor.push
  rw [hpending]
  by_cases hmake : capacity < c.pending.length + bs.length
  · rw [if_pos hmake, if_pos hmake]
    obtain ⟨hsame, hc, hd⟩ := hc.flush hd
    rcases hx : c.flush d with ⟨x, c₁, d₁⟩
    rcases hy : c'.flush d' with ⟨y, c₂, d₂⟩
    rw [hx, hy] at hsame hc hd
    cases hsame
    cases x with
    | error e => exact ⟨rfl, hc, hd⟩
    | ok => exact place hc hd
  · rw [if_neg hmake, if_neg hmake]
    exact place hc hd

theorem Mirrors.add (hc : Mirrors R c c') (hd : Disk.OnTrees o o' R d d') (key : Bytes)
    (old : Entry) (value : Bytes) :
    Parallel (Mirrors R) (Disk.OnTrees o o' R) (c.add key old value d)
      (c'.add key old value d') := by
  have hstamp : c'.stamp old = c.stamp old := by cases hc; rfl
  simp only [Compactor.add, hstamp]
  split
  · exact ⟨rfl, hc, hd⟩
  · split
    · exact ⟨rfl, hc, hd⟩
    · rename_i bs _
      obtain ⟨hsame, hc, hd⟩ := hc.push hd bs
      rcases hx : c.push bs d with ⟨x, c₁, d₁⟩
      rcases hy : c'.push bs d' with ⟨y, c₂, d₂⟩
      rw [hx, hy] at hsame hc hd
      cases hsame
      cases x with
      | error e => exact ⟨rfl, hc, hd⟩
      | ok =>
        cases hc with
        | mk hij => exact ⟨rfl, .mk hij, hd⟩

theorem Mirrors.finish (hc : Mirrors R c c') (hd : Disk.OnTrees o o' R d d') :
    (c'.finish d').1 = (c.finish d).1 ∧
      Disk.OnTrees o o' R (c.finish d).2 (c'.finish d').2 := by
  obtain ⟨hsame, hc, hd⟩ := hc.flush hd
  unfold Compactor.finish
  rcases hx : c.flush d with ⟨x, c₁, d₁⟩
  rcases hy : c'.flush d' with ⟨y, c₂, d₂⟩
  rw [hx, hy] at hsame hc hd
  cases hsame
  cases x with
  | error e => exact ⟨rfl, hc.abandon hd⟩
  | ok =>
    cases hc with
    | mk hij => exact ⟨rfl, hd⟩

end Compactor

theorem Store.copyAll_mirrors {a b : Segments} (hs : Segments.Mirrors R a b)
    {c c' : Compactor} (hc : Compactor.Mirrors R c c') (hd : Disk.OnTrees o o' R d d')
    (es : List (Bytes × Entry)) :
    Parallel (Compactor.Mirrors R) (Disk.OnTrees o o' R) (copyAll a es c d)
      (copyAll b es c' d') := by
  induction es generalizing c c' d d' with
  | nil => exact ⟨rfl, hc, hd⟩
  | cons x es ih =>
    simp only [copyAll, hs.read_eq hd.toSameFiles]
    split
    · exact ⟨rfl, hc, hd⟩
    · rename_i value _
      obtain ⟨hsame, hc, hd⟩ := hc.add hd x.1 x.2 value
      rcases hx : c.add x.1 x.2 value d with ⟨r, c₁, d₁⟩
      rcases hy : c'.add x.1 x.2 value d' with ⟨r', c₂, d₂⟩
      rw [hx, hy] at hsame hc hd
      cases hsame
      cases r with
      | error e => exact ⟨rfl, hc, hd⟩
      | ok => exact ih hc hd

namespace Store.Mirrors

variable {s s' : Store}

theorem config_eq (h : Mirrors R s s') : s'.config = s.config := by cases h; rfl

theorem index_eq (h : Mirrors R s s') : s'.index = s.index := by cases h; rfl

theorem segments (h : Mirrors R s s') : Segments.Mirrors R s.segments s'.segments := by
  cases h; assumption

theorem appender (h : Mirrors R s s') :
    Option.Rel (Appender.Mirrors R) s.appender s'.appender := by
  cases h; assumption

theorem keyCount_eq (h : Mirrors R s s') : s'.keyCount = s.keyCount :=
  congrArg Std.ExtTreeMap.size h.index_eq

theorem get_eq (h : Mirrors R s s') (hd : SameFiles R d d') (key : Bytes) :
    s'.get key d' = s.get key d := by
  simp only [Store.get, h.index_eq, h.segments.get_eq hd]

theorem logSize_eq (h : Mirrors R s s') (hd : SameFiles R d d') : s'.logSize d' = s.logSize d :=
  h.segments.length_eq hd _

theorem set (h : Mirrors R s s') (hw : World.OnTrees o o' R w w') (key value : Bytes) :
    Parallel (Mirrors R) (World.OnTrees o o' R) (s.set key value w) (s'.set key value w') := by
  have hnow : w'.now = w.now := by rw [World.now, World.now, hw.clock]
  cases h with
  | @mk segments appender hs ha =>
    simp only [Store.set, hnow]
    split
    · exact ⟨rfl, .mk hs ha, hw⟩
    · obtain ⟨config, index, table, old⟩ := s
      cases ha with
      | none => exact ⟨rfl, .mk hs .none, hw⟩
      | @some a b ha =>
        obtain ⟨hsame, ha, hw⟩ := ha.append hw ⟨w.now, key, value⟩
        dsimp only
        rcases hx : a.append ⟨w.now, key, value⟩ w with ⟨r, a₁, w₁⟩
        rcases hy : b.append ⟨w.now, key, value⟩ w' with ⟨r', b₁, w₂⟩
        rw [hx, hy] at hsame ha hw
        cases hsame
        cases r with
        | error e => exact ⟨rfl, .mk hs (.some ha), hw⟩
        | ok landing =>
          cases ha with
          | mk hij => exact ⟨rfl, .mk hs (.some (.mk hij)), hw.disk, hw.clock⟩

theorem delete (h : Mirrors R s s') (hw : World.OnTrees o o' R w w') (key : Bytes) :
    Parallel (Mirrors R) (World.OnTrees o o' R) (s.delete key w) (s'.delete key w') := by
  have hnow : w'.now = w.now := by rw [World.now, World.now, hw.clock]
  cases h with
  | @mk segments appender hs ha =>
    simp only [Store.delete, hnow]
    obtain ⟨config, index, table, old⟩ := s
    cases ha with
    | none => exact ⟨rfl, .mk hs .none, hw⟩
    | @some a b ha =>
      dsimp only
      split
      · obtain ⟨hsame, ha, hw⟩ := ha.append hw (.tombstone key w.now)
        rcases hx : a.append (.tombstone key w.now) w with ⟨r, a₁, w₁⟩
        rcases hy : b.append (.tombstone key w.now) w' with ⟨r', b₁, w₂⟩
        rw [hx, hy] at hsame ha hw
        cases hsame
        cases r with
        | error e => exact ⟨rfl, .mk hs (.some ha), hw⟩
        | ok landing => exact ⟨rfl, .mk hs (.some ha), hw.disk, hw.clock⟩
      · exact ⟨rfl, .mk hs (.some ha), hw⟩

theorem close (h : Mirrors R s s') (hw : World.OnTrees o o' R w w') :
    Mirrors R (s.close w).1 (s'.close w').1 ∧
      World.OnTrees o o' R (s.close w).2 (s'.close w').2 := by
  cases h with
  | @mk segments appender hs ha =>
    obtain ⟨config, index, table, old⟩ := s
    cases ha with
    | none => exact ⟨.mk hs .none, hw⟩
    | some ha => exact ⟨.mk .empty .none, hw.disk, hw.clock⟩

end Store.Mirrors

def Request.KeepsNames : Request → Prop
  | .openWith _ | .merge => False
  | _ => True

/-- Where names are not concerned, it makes no difference which there are. -/
theorem Store.Mirrors.askStore {s s' : Store} (h : Mirrors R s s')
    (hw : World.OnTrees o o' R w w') {r : Request} (hr : r.KeepsNames) :
    Parallel (Mirrors R) (World.OnTrees o o' R) (r.askStore s w) (r.askStore s' w') := by
  cases r with
  | openWith c => exact hr.elim
  | merge => exact hr.elim
  | drop => exact ⟨rfl, h, hw⟩
  | get key =>
    simp only [Request.askStore, h.get_eq hw.disk.toSameFiles]
    exact ⟨rfl, h, hw⟩
  | logSize =>
    simp only [Request.askStore, h.logSize_eq hw.disk.toSameFiles]
    exact ⟨rfl, h, hw⟩
  | set key value =>
    obtain ⟨hsame, hs, hw⟩ := h.set hw key value
    simp only [Request.askStore, hsame]
    exact ⟨rfl, hs, hw⟩
  | delete key =>
    obtain ⟨hsame, hs, hw⟩ := h.delete hw key
    simp only [Request.askStore, hsame]
    exact ⟨rfl, hs, hw⟩
  | close =>
    obtain ⟨hs, hw⟩ := h.close hw
    exact ⟨rfl, hs, hw⟩

theorem Request.run_onTrees {slot slot' : Option Store}
    (h : Option.Rel (Store.Mirrors R) slot slot') (hw : World.OnTrees o o' R w w') {r : Request}
    (hr : r.KeepsNames) : Parallel (Option.Rel (Store.Mirrors R)) (World.OnTrees o o' R)
      (r.run slot w) (r.run slot' w') := by
  have hask := fun {s s' : Store} (hs : Store.Mirrors R s s') => hs.askStore hw hr
  cases r with
  | openWith c => exact hr.elim
  | merge => exact hr.elim
  | drop => cases h <;> exact ⟨rfl, .none, hw⟩
  | get | set | delete | close | logSize =>
    cases h with
    | none => exact ⟨rfl, .none, hw⟩
    | some hs =>
      obtain ⟨hsame, hs', hw'⟩ := hask hs
      simp only [Request.run, hsame]
      exact ⟨rfl, .some hs', hw'⟩

end LogStore
