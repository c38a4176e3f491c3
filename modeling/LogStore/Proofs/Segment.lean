import LogStore.Proofs.Disk.Frame
import LogStore.Segment.Pieces
import LogStore.Segment.Table

/-! Reading a value gives the bytes that its entry points at, all of them, or it fails. So it does
by single reads too, whatever each of them hands out: the next one always goes on where the last
one has ended, and no position on the way leaves the range of a word of 64 bits. -/

namespace LogStore

/-- A piece laid over the zeros behind those that are there: one longer front of the same bytes. -/
theorem Disk.overlay_piece {front : Bytes} {filled n : Nat} (size : Nat)
    (h : filled + n ≤ front.length) :
    overlay (front.take filled ++ List.replicate (size - filled) 0) filled
        ((front.drop filled).take n) =
      front.take (filled + n) ++ List.replicate (size - (filled + n)) 0 := by
  have hlen : (front.take filled).length = filled := List.length_take_of_le (by omega)
  have hpiece : ((front.drop filled).take n).length = n := by
    rw [List.length_take, List.length_drop]
    omega
  have hbehind : (front.take filled ++ List.replicate (size - filled) (0 : UInt8)).drop
      (filled + n) = List.replicate (size - (filled + n)) 0 := by
    rw [← List.drop_drop, List.drop_left' hlen, List.drop_replicate, Nat.sub_sub]
  rw [overlay, hpiece, hbehind, List.take_left' hlen, List.take_add, List.length_append, hlen,
    Nat.sub_eq_zero_of_le (Nat.le_add_right ..), List.replicate_zero, List.append_nil]

namespace Segment

variable {s : Segment} {e : Entry} {d : Disk} {bs : Bytes}

/-- A file either holds all that an entry points at, or the bytes that it does hold are counted. -/
theorem read_file (hread : d.read s.node = .ok bs) (hsize : 0 < e.valueSize)
    (hlast : e.valuePos + e.valueSize ≤ Disk.largest) :
    s.read e d = if e.valuePos + e.valueSize ≤ bs.length
      then .ok ((bs.drop e.valuePos).take e.valueSize)
      else .error (.corruptIndex s.fileId e.valuePos e.valueSize (bs.length - e.valuePos)) := by
  have hlen : ((bs.drop e.valuePos).take e.valueSize).length =
      min e.valueSize (bs.length - e.valuePos) := by
    rw [List.length_take, List.length_drop]
  rw [read, if_neg hsize.ne', if_neg (Nat.not_lt.mpr hlast), hread]
  simp only [hlen]
  by_cases hfull : e.valuePos + e.valueSize ≤ bs.length
  · rw [if_pos hfull, if_neg (by omega)]
  · rw [if_neg hfull, if_pos (by omega), Nat.min_eq_right (by omega)]

theorem fill_failed {cause : IoError} (hpos : e.valuePos < UInt64.size) (hsize : 0 < e.valueSize)
    (hfail : ∀ most, s.readAt e.valuePos e.valueSize most d = .error cause) (ys : List Yield)
    (value : Bytes) : s.fill e d ys value 0 = some (.error (.io cause)) := by
  have hword : ¬ UInt64.size ≤ e.valuePos + 0 := Nat.not_le.mpr hpos
  induction ys with
  | nil =>
    rw [fill, if_pos hsize, if_neg hword]
    simp only [Yield.first, Nat.add_zero, Nat.sub_zero, hfail]
  | cons y ys ih =>
    rw [fill, if_pos hsize, if_neg hword]
    cases y with
    | interrupted => exact ih
    | upTo most => simp only [Yield.first, Nat.add_zero, Nat.sub_zero, hfail]

/-- As much of the value as has been read is the front of what the entry points at, and what is
still missing is read behind it. The induction is on the reads. -/
theorem fill_eq (hread : d.read s.node = .ok bs)
    (hlast : e.valuePos + e.valueSize ≤ Disk.largest) {ys : List Yield} {value : Bytes}
    {filled : Nat} (hfilled : filled ≤ e.valueSize) (hfront : filled ≤ bs.length - e.valuePos)
    (hvalue : value =
      (bs.drop e.valuePos).take filled ++ List.replicate (e.valueSize - filled) 0) :
    s.fill e d ys value filled = some (s.read e d) := by
  fun_induction fill s e d ys value filled with
  | case1 ys value filled hmore hlarge =>
    have : Disk.largest < UInt64.size := by decide
    omega
  | case2 ys value filled hmore hword hturn ih => exact ih hfilled hfront hvalue
  | case3 ys value filled hmore hword most hturn cause hfail =>
    rw [readAt, if_neg (by omega), hread] at hfail
    cases hfail
  | case4 ys value filled hmore hword most hturn hnone =>
    rw [readAt, if_neg (by omega), hread] at hnone
    have hend : bs.length ≤ e.valuePos + filled := by
      have := congrArg List.length (Except.ok.inj hnone)
      rw [List.length_take, List.length_drop, List.length_nil] at this
      omega
    rw [read_file hread (by omega) hlast, if_neg (by omega)]
    congr 4
    omega
  | case5 ys value filled hmore hword most hturn piece hpiece hne ih =>
    rw [readAt, if_neg (by omega), hread] at hpiece
    have hlen := congrArg List.length (Except.ok.inj hpiece)
    rw [List.length_take, List.length_drop] at hlen
    have hlies : filled + piece.length ≤ (bs.drop e.valuePos).length := by
      rw [List.length_drop]
      omega
    have htake : piece = ((bs.drop e.valuePos).drop filled).take piece.length := by
      rw [← Except.ok.inj hpiece, List.drop_drop, List.length_take, List.take_eq_take_iff]
      omega
    refine ih (by omega) (by omega) ?_
    rw [hvalue, htake, Disk.overlay_piece e.valueSize hlies, ← htake]
  | case6 ys value filled hdone =>
    obtain rfl : filled = e.valueSize := by omega
    rw [hvalue, Nat.sub_self, List.replicate_zero, List.append_nil]
    by_cases hsize : e.valueSize = 0
    · rw [read, if_pos hsize, hsize, List.take_zero]
    · rw [read_file hread (by omega) hlast, if_pos (by omega)]

/-- However a value is cut into reads, it is read as if by one. -/
theorem readBy_eq (s : Segment) (hpos : e.valuePos < UInt64.size) (d : Disk) (ys : List Yield) :
    s.readBy ys e d = some (s.read e d) := by
  rcases Nat.eq_zero_or_pos e.valueSize with hsize | hsize
  · rw [readBy, fill, read, if_pos hsize, hsize, if_neg (lt_irrefl 0), List.replicate_zero]
  by_cases hlast : e.valuePos + e.valueSize ≤ Disk.largest
  · cases hread : d.read s.node with
    | ok bs =>
      refine fill_eq hread hlast (Nat.zero_le _) (Nat.zero_le _) ?_
      rw [List.take_zero, List.nil_append, Nat.sub_zero]
    | error cause =>
      rw [readBy, read, if_neg hsize.ne', if_neg (Nat.not_lt.mpr hlast), hread]
      refine fill_failed hpos hsize (fun most => ?_) ys _
      rw [readAt, if_neg (Nat.not_lt.mpr hlast), hread]
  · rw [readBy, read, if_neg hsize.ne', if_pos (Nat.lt_of_not_le hlast)]
    refine fill_failed hpos hsize (fun most => ?_) ys _
    rw [readAt, if_pos (Nat.lt_of_not_le hlast)]

end Segment

namespace Segments

variable {t : Segments} {s : Segment} {e : Entry} {d : Disk} {no : FileNo}

theorem isEmpty_iff_getElem? (t : Segments) : t.isEmpty = true ↔ ∀ id : FileId, t[id]? = none := by
  rw [Std.ExtTreeMap.isEmpty_iff]
  constructor
  · rintro rfl id
    simp
  · exact fun h => Std.ExtTreeMap.ext_getElem? fun id => by simpa using h id

theorem read_of_getElem? (ht : t[e.fileId]? = some s) : t.read e d = s.read e d := by
  have hopen : ¬ t.isEmpty := by
    rw [isEmpty_iff_getElem?]
    intro hnone
    cases ht.symm.trans (hnone e.fileId)
  rw [read, if_neg hopen, ht]

/-- A value is read as it lies in its file, all of it, or it is not read, by one read as by many.
Which of the two depends on the file's length alone; a value that would end beyond the end of any
file is refused, and of any other one that is not there it is told how much of it there is. -/
theorem read_exact (ht : t[e.fileId]? = some s) (hs : s.node = .file no)
    (hlen : (d.content no).length ≤ Disk.largest) (hpos : e.valuePos < UInt64.size) :
    t.read e d = s.read e d ∧ (∀ ys, s.readBy ys e d = some (s.read e d)) ∧
      ((∃ value, s.read e d = .ok value) ↔
        e.valueSize = 0 ∨ e.valuePos + e.valueSize ≤ (d.content no).length) ∧
      (∀ value, s.read e d = .ok value → value.length = e.valueSize ∧
        value = ((d.content no).drop e.valuePos).take e.valueSize) ∧
      (0 < e.valueSize → Disk.largest < e.valuePos + e.valueSize →
        s.read e d = .error (.io .invalidArgument)) ∧
      (0 < e.valueSize → e.valuePos + e.valueSize ≤ Disk.largest →
        (d.content no).length < e.valuePos + e.valueSize →
        s.read e d = .error (.corruptIndex s.fileId e.valuePos e.valueSize
          ((d.content no).length - e.valuePos))) := by
  have hread : d.read s.node = .ok (d.content no) := by rw [hs]; rfl
  refine ⟨read_of_getElem? ht, s.readBy_eq hpos d, ?_⟩
  rcases Nat.eq_zero_or_pos e.valueSize with hsize | hsize
  · have hempty : s.read e d = .ok [] := by rw [Segment.read, if_pos hsize]
    rw [hempty]
    refine ⟨iff_of_true ⟨_, rfl⟩ (.inl hsize), ?_, by omega, by omega⟩
    rintro value hvalue
    obtain rfl := Except.ok.inj hvalue
    rw [hsize, List.take_zero]
    exact ⟨rfl, rfl⟩
  by_cases hlast : e.valuePos + e.valueSize ≤ Disk.largest
  · rw [Segment.read_file hread hsize hlast]
    by_cases hfull : e.valuePos + e.valueSize ≤ (d.content no).length
    · rw [if_pos hfull]
      refine ⟨iff_of_true ⟨_, rfl⟩ (.inr hfull), ?_, by omega, by omega⟩
      rintro value hvalue
      obtain rfl := Except.ok.inj hvalue
      refine ⟨?_, rfl⟩
      rw [List.length_take, List.length_drop]
      omega
    · rw [if_neg hfull]
      exact ⟨iff_of_false nofun (by omega), nofun, by omega, fun _ _ _ => rfl⟩
  · have hrefused : s.read e d = .error (.io .invalidArgument) := by
      rw [Segment.read, if_neg hsize.ne', if_pos (Nat.lt_of_not_le hlast)]
    rw [hrefused]
    exact ⟨iff_of_false nofun (by omega), nofun, fun _ _ => rfl, by omega⟩

def helloDisk : Disk := (Disk.empty.create [] ['f']).2.setContent 0 [104, 101, 108, 108, 111]

/-- The last three bytes of the file, by a read of two of them, an interruption and the rest; and
an entry that points one byte beyond the end. -/
theorem read_exact_hello : (single ⟨7, .file 0⟩)[(7 : FileId)]? = some ⟨7, .file 0⟩ ∧
    (helloDisk.content 0).length ≤ Disk.largest ∧ 3 < UInt64.size ∧
    (single ⟨7, .file 0⟩).read ⟨7, 2, 3, 1⟩ helloDisk = .ok [108, 108, 111] ∧
    Segment.readBy [.upTo 2, .interrupted] ⟨7, .file 0⟩ ⟨7, 2, 3, 1⟩ helloDisk =
      some (.ok [108, 108, 111]) ∧
    (single ⟨7, .file 0⟩).read ⟨7, 3, 3, 1⟩ helloDisk = .error (.corruptIndex 7 3 3 2) := by
  have hs : (single ⟨7, .file 0⟩)[(7 : FileId)]? = some ⟨7, .file 0⟩ := by decide
  have hlen : (helloDisk.content 0).length ≤ Disk.largest := by decide
  obtain ⟨htable, hpieces, hok, hvalue, -, -⟩ :=
    read_exact (e := ⟨7, 2, 3, 1⟩) hs rfl hlen (by decide)
  obtain ⟨value, hread⟩ := hok.mpr (.inr (by decide))
  obtain ⟨-, rfl⟩ := hvalue value hread
  have hshort := read_exact (e := ⟨7, 3, 3, 1⟩) hs rfl hlen (by decide)
  refine ⟨hs, hlen, by decide, htable.trans hread, (hpieces _).trans (congrArg some hread), ?_⟩
  exact hshort.1.trans (hshort.2.2.2.2.2 (by decide) (by decide) (by decide))

/-- A missing value is not always told by how much of it there is: the read of one byte at the
last position of all is refused as such. -/
theorem refused_below_the_end : ¬ ∀ (t : Segments) (s : Segment) (e : Entry) (d : Disk)
    (no : FileNo), t[e.fileId]? = some s → s.node = .file no →
      (d.content no).length ≤ Disk.largest → 0 < e.valueSize → e.valueSize < UInt32.size →
      e.valuePos ≤ Disk.largest → (d.content no).length < e.valuePos + e.valueSize →
        t.read e d = .error (.corruptIndex s.fileId e.valuePos e.valueSize
          ((d.content no).length - e.valuePos)) := by
  intro hclaim
  have hcounted := hclaim (single ⟨0, .file 0⟩) ⟨0, .file 0⟩ ⟨0, Disk.largest, 1, 0⟩ helloDisk 0
    (by decide) rfl (by decide) (by decide) (by decide) (by decide) (by decide)
  have hrefused : (single ⟨0, .file 0⟩).read ⟨0, Disk.largest, 1, 0⟩ helloDisk =
      .error (.io .invalidArgument) := by decide
  cases hcounted.symm.trans hrefused

end Segments

end LogStore
