import LogStore.Config
import LogStore.Log.Appender
import LogStore.Proofs.Disk.Site
import LogStore.Proofs.Record.Codec

/-! An append puts the whole record behind the file, or leaves the file as it was: what
a limit has let through of a record that does not fit is taken back. What is cut off a file when
it is opened has been saved before. -/

namespace LogStore

/-- A file with these bytes lies at the path. -/
structure Disk.Holds (d : Disk) (p : Path) (no : FileNo) (bs : Bytes) : Prop where
  sound : d.Sound
  lookup : d.lookup p = .ok (.file no)
  content : d.content no = bs

namespace Disk.Holds

variable {d d' : Disk} {p : Path} {no : FileNo} {bs : Bytes}

theorem length_le (h : Holds d p no bs) : bs.length ≤ Disk.largest :=
  h.content ▸ h.sound.sized no

theorem of_only (h : Holds d p no bs) (ho : Only no d d') {bs' : Bytes}
    (hc : d'.content no = bs') : Holds d' p no bs' :=
  ⟨h.sound.of_only ho, by rw [lookup_congr ho.tree, h.lookup], hc⟩

theorem withLimit (h : Holds d p no bs) (limit : Option Nat) : Holds { d with limit } p no bs := by
  have ht : { d with limit }.tree = d.tree := rfl
  exact ⟨h.sound.withLimit limit, (lookup_congr ht p).trans h.lookup, h.content⟩

theorem below (h : Holds d p no bs) : no < d.fresh := by
  obtain ⟨parent, name, -, hfile⟩ := seats_of_lookup h.lookup
  exact h.sound.below hfile

end Disk.Holds

namespace Appender

open Disk

variable {p : Path} {no : FileNo} {bs : Bytes} {w : World} {r : Record}

abbrev behind (no : FileNo) (bs : Bytes) : Appender := ⟨no, Config.activeFile, bs.length⟩

theorem openEnd_eq {i : FileNo} {d : Disk} (h : w.disk.openWrite p = (.ok i, d))
    (fileId : FileId) :
    openEnd p fileId w = (.ok ⟨i, fileId, (d.content i).length⟩, { w with disk := d }) :=
  Action.bind_ok (Action.onDisk_ok h) _

theorem openEnd_ok {i : FileNo} {d : Disk} (h : w.disk.openWrite p = (.ok i, d)) :
    openEnd p Config.activeFile w = (.ok (behind i (d.content i)), { w with disk := d }) :=
  openEnd_eq h Config.activeFile

theorem openEnd_error {cause : IoError} {d : Disk} (h : w.disk.openWrite p = (.error cause, d)) :
    openEnd p Config.activeFile w = (.error (.io cause), { w with disk := d }) :=
  Action.bind_error (Action.onDisk_error h) _

theorem openEnd_site {parent : List Name} {name : Name} (h : Site w.disk p parent name no) :
    openEnd p Config.activeFile w = (.ok (behind no (w.disk.content no)), w) :=
  openEnd_ok h.openWrite_eq

section Tail

variable {parent : List Name} {name : Name} {kept t : Bytes}

theorem saveTail_eq (h : Site w.disk p parent name no) (pos : Nat) (q : Path) :
    saveTail no pos q w = Action.onDisk (appendFile q ((w.disk.content no).drop pos)) w := by
  rcases hopen : w.disk.openWrite q with ⟨_ | i, d⟩
  · refine (Action.bind_error (Action.onDisk_error hopen) _).trans ?_
    simp only [Action.onDisk, appendFile, hopen]
  · refine (Action.bind_ok (Action.onDisk_ok hopen) _).trans ?_
    simp only [Action.onDisk, appendFile, hopen, content_openWrite hopen (h.sound.below h.file)]

/-- What is behind the part to keep is saved, and then cut off. -/
theorem openAfter_cut (h : Site w.disk p parent name no) (hc : w.disk.content no = kept ++ t)
    (ht : t ≠ []) (fileId : FileId) :
    ∃ d, Appended w.disk d p parent name no ".torn" t ∧
      ((appendOutcome w.disk.limit (w.disk.bytesAt (tornPath p)) t.length = .ok () ∧
        ∃ w', openAfter p fileId kept.length w = (.ok ⟨no, fileId, kept.length⟩, w') ∧
          w'.disk = d.setContent no kept) ∨
      ∃ cause, appendOutcome w.disk.limit (w.disk.bytesAt (tornPath p)) t.length = .error cause ∧
        openAfter p fileId kept.length w = (.error (.io cause), { w with disk := d })) := by
  have hpos := List.length_pos_iff.mpr ht
  have hlong : ¬ (w.disk.content no).length ≤ kept.length := by
    simp only [hc, List.length_append]
    omega
  obtain ⟨d, ha, happ⟩ := h.appendFile_beside isEnding_torn ht
  have hsave := saveTail_eq h kept.length (tornPath p)
  rw [hc, List.drop_left] at hsave
  refine ⟨d, happ, ?_⟩
  unfold openAfter
  rw [Action.bind_ok (openEnd_eq h.openWrite_eq fileId), if_neg hlong]
  cases hout : appendOutcome w.disk.limit (w.disk.bytesAt (tornPath p)) t.length with
  | error cause =>
    rw [tornPath] at hout
    rw [hout] at ha
    exact .inr ⟨cause, rfl, Action.bind_error (hsave.trans (Action.onDisk_error ha)) _⟩
  | ok =>
    rw [tornPath] at hout
    rw [hout] at ha
    have hcut : d.setLength no kept.length = (.ok (), d.setContent no kept) := by
      rw [setLength_shrink (by rw [happ.content, hc, List.length_append]; omega), happ.content,
        hc, List.take_left]
    refine .inl ⟨rfl, World.report { w with disk := d.setContent no kept }
      (.cuttingTail p ((w.disk.content no).length - kept.length) (tornPath p)), ?_, rfl⟩
    refine (Action.bind_ok (hsave.trans (Action.onDisk_ok ha)) _).trans ?_
    refine (Action.bind_ok (Action.report_eq ..) _).trans ?_
    exact Action.bind_ok (Action.onDisk_ok hcut) _

/-- A file that is no longer than the part to keep is only opened. -/
theorem openAfter_whole {d : Disk} {n : Nat} (h : w.disk.openWrite p = (.ok no, d))
    (hn : (d.content no).length ≤ n) (fileId : FileId) :
    openAfter p fileId n w = (.ok ⟨no, fileId, (d.content no).length⟩, { w with disk := d }) := by
  unfold openAfter
  rw [Action.bind_ok (openEnd_eq h fileId), if_pos hn]
  rfl

theorem site_cut {d d' : Disk} (happ : Appended d d' p parent name no ".torn" t)
    (hc : d.content no = kept ++ t) :
    Only no d' (d'.setContent no kept) ∧ Site (d'.setContent no kept) p parent name no ∧
      (d'.setContent no kept).bytesAt (tornPath p) = d'.bytesAt (tornPath p) := by
  have hcut : Only no d' (d'.setContent no kept) := by
    apply Only.setContent
    rw [happ.content, hc, List.length_append]
    omega
  refine ⟨hcut, happ.site.of_only hcut, ?_⟩
  refine bytesAt_congr (lookup_congr hcut.tree _) fun j hj => hcut.others j ?_
  rintro rfl
  exact happ.site.ne_beside isEnding_torn hj

end Tail

theorem append_misfit {e : Error} (he : r.encode = .error e) (a : Appender) (w : World) :
    a.append r w = (.error e, a, w) := by
  simp only [append, he]

/-- The appender goes on at the end of its file, which holds these bytes. -/
structure InStep (a : Appender) (d : Disk) (bs : Bytes) : Prop where
  sound : d.Sound
  content : d.content a.file = bs
  offset : a.offset = bs.length

namespace InStep

variable {a : Appender}

theorem append_ok (h : InStep a w.disk bs) (hr : r.Fits)
    (hroom : bs.length + r.encodedLen ≤ ceiling w.disk.limit) :
    ∃ d, a.append r w = (.ok ⟨bs.length, bs.length + r.valueOffset⟩,
        ⟨a.file, a.fileId, (bs ++ r.bytes).length⟩, { w with disk := d }) ∧
      Only a.file w.disk d ∧ d.content a.file = bs ++ r.bytes := by
  have hfit : (w.disk.content a.file).length + r.bytes.length ≤ ceiling w.disk.limit := by
    rwa [h.content, r.bytes_length]
  obtain ⟨d, ha, ho, hc⟩ := appendAll_ok hfit
  refine ⟨d, ?_, ho, h.content ▸ hc⟩
  simp only [append, Record.encode_of_fits hr, ha, h.offset, List.length_append]

/-- What the limit has let through is cut off again. -/
theorem append_full (h : InStep a w.disk bs) (hr : r.Fits)
    (hfull : ceiling w.disk.limit < bs.length + r.encodedLen) :
    ∃ d, a.append r w = (.error (.io .fileTooLarge), a, { w with disk := d }) ∧
      Only a.file w.disk d ∧ d.content a.file = bs := by
  have hfit : ceiling w.disk.limit < (w.disk.content a.file).length + r.bytes.length := by
    rwa [h.content, r.bytes_length]
  obtain ⟨d, ha, ho, n, hc⟩ := appendAll_full hfit r.bytes_ne_nil
  have hback : d.setLength a.file a.offset = (.ok (), d.setContent a.file bs) := by
    rw [h.offset, setLength_shrink (by rw [hc, List.length_append, h.content]; omega), hc,
      h.content, List.take_left]
  have hlen : bs.length ≤ largest := h.content ▸ h.sound.sized a.file
  have hcut : Only a.file w.disk (d.setContent a.file bs) :=
    ho.trans (.setContent (Nat.le_trans hlen (Nat.le_max_left ..)))
  refine ⟨d.setContent a.file bs, ?_, hcut, content_setContent_self ..⟩
  simp only [append, Record.encode_of_fits hr, ha, rollBack, hback]

end InStep

theorem inStep_behind (h : Holds w.disk p no bs) : InStep (behind no bs) w.disk bs :=
  ⟨h.sound, h.content, rfl⟩

theorem append_ok (h : Holds w.disk p no bs) (hr : r.Fits)
    (hroom : bs.length + r.encodedLen ≤ ceiling w.disk.limit) :
    ∃ d, (behind no bs).append r w = (.ok ⟨bs.length, bs.length + r.valueOffset⟩,
        behind no (bs ++ r.bytes), { w with disk := d }) ∧
      Only no w.disk d ∧ Holds d p no (bs ++ r.bytes) := by
  obtain ⟨d, ha, ho, hc⟩ := (inStep_behind h).append_ok hr hroom
  exact ⟨d, ha, ho, h.of_only ho hc⟩

theorem append_full (h : Holds w.disk p no bs) (hr : r.Fits)
    (hfull : ceiling w.disk.limit < bs.length + r.encodedLen) :
    ∃ d, (behind no bs).append r w =
        (.error (.io .fileTooLarge), behind no bs, { w with disk := d }) ∧
      Only no w.disk d ∧ Holds d p no bs := by
  obtain ⟨d, ha, ho, hc⟩ := (inStep_behind h).append_full hr hfull
  exact ⟨d, ha, ho, h.of_only ho hc⟩

/-- A record that was appended is at the end of what was there. -/
theorem append_landed {landing : Landing} {a : Appender} {w' : World} (h : Holds w.disk p no bs)
    (happend : (behind no bs).append r w = (.ok landing, a, w')) :
    landing.offset = bs.length ∧ Holds w'.disk p no (bs ++ r.bytes) := by
  cases he : r.encode with
  | error e => cases happend.symm.trans (append_misfit he _ w)
  | ok _ =>
    have hr := (Record.encode_eq_ok_iff.mp he).1
    by_cases hroom : bs.length + r.encodedLen ≤ ceiling w.disk.limit
    · obtain ⟨d, hok, -, hh⟩ := append_ok h hr hroom
      cases happend.symm.trans hok
      exact ⟨rfl, hh⟩
    · obtain ⟨d, hfail, -⟩ := append_full h hr (Nat.not_le.mp hroom)
      cases happend.symm.trans hfail

end Appender

end LogStore
