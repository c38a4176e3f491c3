import LogStore.Proofs.Contents
import LogStore.Proofs.Log.Appender
import LogStore.Proofs.Segment
import LogStore.Store.Basic

/-! An open store is what its log makes it: index, appender and segment follow from the
records in the file. A write puts its record behind the log and leaves the store of the
longer log, or it fails and leaves the store of the same log. -/

namespace LogStore

/-- A log of these records lies at the path, and no merge has left anything beside it. -/
structure Disk.LogAt (d : Disk) (p : Path) (no : FileNo) (rs : List Record) : Prop where
  holds : d.Holds p no (logBytes rs)
  fits : ∀ r ∈ rs, r.Fits
  quiet : d.exists? (p.beside ".merge") = false

namespace Disk.LogAt

variable {d d' : Disk} {p : Path} {no : FileNo} {rs : List Record} {r : Record}

theorem exists?_congr (ht : d'.tree = d.tree) (p : Path) : d'.exists? p = d.exists? p := by
  rw [exists?, exists?, lookup_congr ht]

theorem of_only (h : LogAt d p no rs) (ho : Only no d d') (hc : d'.content no = logBytes rs) :
    LogAt d' p no rs :=
  ⟨h.holds.of_only ho hc, h.fits, by rw [exists?_congr ho.tree, h.quiet]⟩

theorem snoc (h : LogAt d p no rs) (ho : Only no d d')
    (hh : Holds d' p no (logBytes rs ++ r.bytes)) (hr : r.Fits) : LogAt d' p no (rs ++ [r]) := by
  refine ⟨by rwa [logBytes_append, logBytes_singleton], ?_, ?_⟩
  · intro s hs
    rcases List.mem_append.mp hs with hs | hs
    · exact h.fits s hs
    · rwa [List.mem_singleton.mp hs]
  · rw [exists?_congr ho.tree, h.quiet]

theorem bytesAt_eq (h : LogAt d p no rs) : d.bytesAt p = .ok (logBytes rs) := by
  rw [bytesAt_file h.holds.lookup, h.holds.content]

theorem withLimit (h : LogAt d p no rs) (limit : Option Nat) :
    LogAt { d with limit } p no rs := by
  have ht : { d with limit }.tree = d.tree := rfl
  exact ⟨h.holds.withLimit limit, h.fits, (exists?_congr ht _).trans h.quiet⟩

end Disk.LogAt

theorem Segment.read_inside {d : Disk} {no : FileNo} {e : Entry} (he : e.Inside (d.content no))
    (hd : d.Sound) (id : FileId) :
    Segment.read ⟨id, .file no⟩ e d = .ok (e.window (d.content no)) := by
  rw [read_file rfl he.pos (he.le.trans (hd.sized no))]
  exact if_pos he.le

theorem Segments.read_single {d : Disk} {no : FileNo} {e : Entry} (he : e.Inside (d.content no))
    (hd : d.Sound) : Segments.read (Segments.single ⟨Config.activeFile, .file no⟩) e d =
      .ok (e.window (d.content no)) := by
  simp [Segments.read, single, he.active, Segment.read_inside he hd]

theorem Segments.insert_single (fileId : FileId) (a b : Node) :
    (single ⟨fileId, a⟩).insert fileId ⟨fileId, b⟩ = single ⟨fileId, b⟩ := by
  apply Std.ExtTreeMap.ext_getElem?
  intro id
  simp only [single, Std.ExtTreeMap.getElem?_insert]
  split <;> rfl

namespace Store

def onLog (c : Config) (no : FileNo) (rs : List Record) : Store where
  config := c
  index := Index.replay Config.activeFile ∅ (positions 0 rs)
  segments := Segments.single ⟨Config.activeFile, .file no⟩
  appender := some (Appender.behind no (logBytes rs))

variable {c : Config} {no : FileNo} {rs : List Record} {w : World} {key value : Bytes}

theorem index_onLog_append (rs : List Record) (r : Record) :
    Index.replay Config.activeFile ∅ (positions 0 (rs ++ [r])) =
      (Index.replay Config.activeFile ∅ (positions 0 rs)).apply Config.activeFile
        ⟨(logBytes rs).length, r⟩ := by
  rw [positions_append, Index.replay_append, Nat.zero_add]
  rfl

theorem contains_onLog (c : Config) (no : FileNo) (rs : List Record) (key : Bytes) :
    (onLog c no rs).index.contains key = (Contents.ofLog rs).contains key :=
  (Index.Shows.ofLog rs).contains_eq key

theorem keyCount_onLog (c : Config) (no : FileNo) (rs : List Record) :
    (onLog c no rs).keyCount = (Contents.ofLog rs).size :=
  (Index.Shows.ofLog rs).size_eq

theorem segments_onLog_ne (no : FileNo) :
    (Segments.single ⟨Config.activeFile, .file no⟩).isEmpty = false := by
  simp [Segments.single]

/-- The value that the log gives the key, whole, or word that there is none. -/
theorem get_onLog (h : w.disk.LogAt c.path no rs) (key : Bytes) :
    (onLog c no rs).get key w.disk =
      (match (Contents.ofLog rs).bytesOf? key with
        | some bs => .ok bs
        | none => .error .keyNotFound) := by
  have hshow := Index.Shows.ofLog rs
  rw [hshow.same key]
  cases he : (Index.replay Config.activeFile ∅ (positions 0 rs))[key]? with
  | none => simp [get, Segments.get, onLog, segments_onLog_ne, he]
  | some e =>
    have hin : e.Inside (w.disk.content no) := h.holds.content ▸ hshow.inside he
    simp only [get, Segments.get, onLog, segments_onLog_ne, he,
      Segments.read_single hin h.holds.sound, h.holds.content, Bool.false_eq_true, if_false,
      Option.map_some]

theorem logSize_onLog (h : w.disk.LogAt c.path no rs) :
    (onLog c no rs).logSize w.disk = .ok (logBytes rs).length := by
  simp [logSize, Segments.length, onLog, Segments.single, Segment.length, Disk.sizeOf,
    h.holds.content]

theorem set_empty (s : Store) (key : Bytes) (w : World) :
    s.set key [] w = (.error .emptyValue, s, w) := rfl

theorem set_misfit {e : Error} (hv : value ≠ [])
    (he : Record.encode ⟨w.now, key, value⟩ = .error e) :
    (onLog c no rs).set key value w = (.error e, onLog c no rs, w) := by
  simp [set, hv, onLog, Appender.append_misfit he]

theorem set_ok (h : w.disk.LogAt c.path no rs) (hv : value ≠ [])
    (hr : Record.Fits ⟨w.now, key, value⟩)
    (hroom : (logBytes rs).length + Record.encodedLen ⟨w.now, key, value⟩ ≤
      Disk.ceiling w.disk.limit) :
    ∃ d, (onLog c no rs).set key value w =
        (.ok (), onLog c no (rs ++ [⟨w.now, key, value⟩]),
          World.report { w with disk := d } (.set (logBytes rs).length value.length)) ∧
      d.LogAt c.path no (rs ++ [⟨w.now, key, value⟩]) := by
  obtain ⟨d, ha, ho, hh⟩ := Appender.append_ok h.holds hr hroom
  refine ⟨d, ?_, h.snoc ho hh hr⟩
  have hempty : value.isEmpty = false := by simpa using hv
  simp only [set, hempty, Bool.false_eq_true, if_false, onLog, ha, index_onLog_append,
    Index.apply, Record.isTombstone, logBytes_append, logBytes_singleton]
  rfl

theorem set_full (h : w.disk.LogAt c.path no rs) (hv : value ≠ [])
    (hr : Record.Fits ⟨w.now, key, value⟩)
    (hfull : Disk.ceiling w.disk.limit <
      (logBytes rs).length + Record.encodedLen ⟨w.now, key, value⟩) :
    ∃ d, (onLog c no rs).set key value w =
        (.error (.io .fileTooLarge), onLog c no rs, { w with disk := d }) ∧
      d.LogAt c.path no rs := by
  obtain ⟨d, ha, ho, hh⟩ := Appender.append_full h.holds hr hfull
  refine ⟨d, ?_, h.of_only ho hh.content⟩
  simp [set, hv, onLog, ha]

/-- A set appends its record, or it fails and the log stays. -/
theorem set_onLog (h : w.disk.LogAt c.path no rs) (key value : Bytes) :
    (∃ e d, (onLog c no rs).set key value w = (.error e, onLog c no rs, { w with disk := d }) ∧
        d.LogAt c.path no rs) ∨
      (value ≠ [] ∧ ∃ d, (onLog c no rs).set key value w =
          (.ok (), onLog c no (rs ++ [⟨w.now, key, value⟩]),
            World.report { w with disk := d } (.set (logBytes rs).length value.length)) ∧
        d.LogAt c.path no (rs ++ [⟨w.now, key, value⟩])) := by
  by_cases hv : value = []
  · subst hv
    exact .inl ⟨_, w.disk, set_empty .., h⟩
  · cases he : Record.encode ⟨w.now, key, value⟩ with
    | error e => exact .inl ⟨e, w.disk, set_misfit hv he, h⟩
    | ok bs =>
      have hr := (Record.encode_eq_ok_iff.mp he).1
      by_cases hroom : (logBytes rs).length + Record.encodedLen ⟨w.now, key, value⟩ ≤
          Disk.ceiling w.disk.limit
      · exact .inr ⟨hv, set_ok h hv hr hroom⟩
      · exact .inl ⟨_, set_full h hv hr (Nat.not_le.mp hroom)⟩

theorem delete_absent (hk : (Contents.ofLog rs).contains key = false) :
    (onLog c no rs).delete key w = (.error .keyNotFound, onLog c no rs, w) := by
  have hk' := (contains_onLog c no rs key).trans hk
  simp only [onLog] at hk'
  simp [delete, onLog, hk']

/-- The key of a live value is short enough, as it has been written before. -/
theorem fits_tombstone (hfits : ∀ r ∈ rs, r.Fits) (hk : (Contents.ofLog rs).contains key = true)
    (now : UInt32) : (Record.tombstone key now).Fits := by
  rw [Std.ExtTreeMap.contains_eq_isSome_getElem?, Option.isSome_iff_exists] at hk
  obtain ⟨v, hv⟩ := hk
  have hbytes : (Contents.ofLog rs).bytesOf? key = some v.val := by
    rw [Contents.bytesOf?, hv, Option.map_some]
  obtain ⟨r, hr, rfl, -⟩ := Contents.exists_record hbytes
  exact ⟨(hfits r hr).1, Nat.succ_pos _⟩

theorem delete_ok (h : w.disk.LogAt c.path no rs)
    (hk : (Contents.ofLog rs).contains key = true)
    (hroom : (logBytes rs).length + (Record.tombstone key w.now).encodedLen ≤
      Disk.ceiling w.disk.limit) :
    ∃ d, (onLog c no rs).delete key w =
        (.ok (), onLog c no (rs ++ [Record.tombstone key w.now]),
          World.report { w with disk := d } (.delete (logBytes rs).length)) ∧
      d.LogAt c.path no (rs ++ [Record.tombstone key w.now]) := by
  have hr := fits_tombstone h.fits hk w.now
  obtain ⟨d, ha, ho, hh⟩ := Appender.append_ok h.holds hr hroom
  refine ⟨d, ?_, h.snoc ho hh hr⟩
  have hk' := (contains_onLog c no rs key).trans hk
  simp only [onLog] at hk'
  simp only [delete, onLog, hk', if_true, ha, index_onLog_append, Index.apply,
    logBytes_append, logBytes_singleton]
  rfl

theorem delete_full (h : w.disk.LogAt c.path no rs)
    (hk : (Contents.ofLog rs).contains key = true)
    (hfull : Disk.ceiling w.disk.limit <
      (logBytes rs).length + (Record.tombstone key w.now).encodedLen) :
    ∃ d, (onLog c no rs).delete key w =
        (.error (.io .fileTooLarge), onLog c no rs, { w with disk := d }) ∧
      d.LogAt c.path no rs := by
  have hr := fits_tombstone h.fits hk w.now
  obtain ⟨d, ha, ho, hh⟩ := Appender.append_full h.holds hr hfull
  refine ⟨d, ?_, h.of_only ho hh.content⟩
  have hk' := (contains_onLog c no rs key).trans hk
  simp only [onLog] at hk'
  simp [delete, onLog, hk', ha]

theorem delete_onLog (h : w.disk.LogAt c.path no rs) (key : Bytes) :
    (∃ e d, (onLog c no rs).delete key w = (.error e, onLog c no rs, { w with disk := d }) ∧
        d.LogAt c.path no rs) ∨
      ∃ d, (onLog c no rs).delete key w = (.ok (), onLog c no (rs ++ [Record.tombstone key w.now]),
          World.report { w with disk := d } (.delete (logBytes rs).length)) ∧
        d.LogAt c.path no (rs ++ [Record.tombstone key w.now]) := by
  cases hk : (Contents.ofLog rs).contains key with
  | false => exact .inl ⟨_, w.disk, delete_absent hk, h⟩
  | true =>
    by_cases hroom : (logBytes rs).length + (Record.tombstone key w.now).encodedLen ≤
        Disk.ceiling w.disk.limit
    · exact .inr (delete_ok h hk hroom)
    · exact .inl ⟨_, delete_full h hk (Nat.not_le.mp hroom)⟩

end Store

end LogStore
