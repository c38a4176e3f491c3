import LogStore.Disk.Edit
import LogStore.Proofs.Disk.Frame

/-! A file and the names beside it. What is made, written or removed under a name beside
a file leaves the file alone, and every other name beside it. -/

namespace LogStore.Disk

structure Site (d : Disk) (p : Path) (parent : List Name) (name : Name) (no : FileNo) :
    Prop where
  sound : d.Sound
  seat : Seats d p parent name
  file : d.tree[parent ++ [name]]? = some (.file no)

def found (d : Disk) (p : Path) : Bytes := (d.bytesAt p).toOption.getD []

theorem Seats.lookup_beside_congr {d d' : Disk} {p : Path} {parent : List Name} {name : Name}
    {ending : String} (h : Seats d p parent name) (h' : Seats d' p parent name)
    (he : Path.IsEnding ending) (ht : d'.tree[parent ++ [name ++ ending.toList]]? =
      d.tree[parent ++ [name ++ ending.toList]]?) :
    d'.lookup (p.beside ending) = d.lookup (p.beside ending) := by
  cases hl : (p.beside ending).tooLong with
  | true => rw [(h.tooLong_beside he hl).1, (h'.tooLong_beside he hl).1]
  | false => rw [(h.beside he hl).lookup_eq, (h'.beside he hl).lookup_eq, ht]

/-- How it ends to append to what is at a path now. -/
def appendOutcome (limit : Option Nat) (old : Except IoError Bytes) (length : Nat) :
    Except IoError Unit :=
  match old with
  | .ok bs => if bs.length + length ≤ ceiling limit then .ok () else .error .fileTooLarge
  | .error .noEntry => if length ≤ ceiling limit then .ok () else .error .fileTooLarge
  | .error e => .error e

theorem bytesAt_congr {d d' : Disk} {p : Path} (hl : d'.lookup p = d.lookup p)
    (hc : ∀ i, d.lookup p = .ok (.file i) → d'.content i = d.content i) :
    d'.bytesAt p = d.bytesAt p := by
  unfold bytesAt
  rw [hl]
  cases h : d.lookup p with
  | error e => rfl
  | ok node =>
    cases node with
    | dir => rfl
    | file i => simp only [read, hc i h]

theorem bytesAt_file {d : Disk} {p : Path} {i : FileNo} (h : d.lookup p = .ok (.file i)) :
    d.bytesAt p = .ok (d.content i) := by
  simp only [bytesAt, h, read]

theorem append_ending_injective (parent : List Name) (name : Name) {ending other : String}
    (h : ending ≠ other) :
    parent ++ [name ++ ending.toList] ≠ parent ++ [name ++ other.toList] := by
  intro he
  have := List.append_cancel_left (List.singleton_injective (List.append_cancel_left he))
  exact h (String.toList_injective this)

theorem beside_ne (parent : List Name) (name : Name) {ending : String}
    (he : Path.IsEnding ending) : parent ++ [name ++ ending.toList] ≠ parent ++ [name] := by
  intro h
  have hlen := congrArg List.length (List.singleton_injective (List.append_cancel_left h))
  have := he.long
  rw [List.length_append] at hlen
  omega

/-- A write may fall short only at the limit. -/
theorem appendAll_spec (d : Disk) (i : FileNo) {bs : Bytes} (h0 : bs ≠ []) :
    ∃ d' n, d.appendAll i bs = (if (d.content i).length + bs.length ≤ ceiling d.limit then .ok ()
        else .error .fileTooLarge, d') ∧ Only i d d' ∧
      d'.content i = d.content i ++ bs.take n ∧
      ((d.content i).length + bs.length ≤ ceiling d.limit → n = bs.length) := by
  obtain ⟨d', hw, ho, hc⟩ := write_end (d := d) (i := i) rfl bs
  have hiff : d.writable (d.content i).length bs.length = bs.length ↔ _ :=
    writable_eq_iff (List.length_pos_iff.mpr h0)
  exact ⟨d', _, by simp only [appendAll, writeAll, hw, hiff], ho, hc, hiff.mpr⟩

/-- The same stands beside the path, with the same bytes, on both disks. -/
def SameBeside (d d' : Disk) (p : Path) (ending : String) : Prop :=
  d'.lookup (p.beside ending) = d.lookup (p.beside ending) ∧
    d'.bytesAt (p.beside ending) = d.bytesAt (p.beside ending)

/-- Bytes may have come behind those at one path beside a file. The file is as it was, and
so is all else beside it. -/
structure Appended (d d' : Disk) (p : Path) (parent : List Name) (name : Name) (no : FileNo)
    (ending : String) (ts : Bytes) : Prop where
  site : Site d' p parent name no
  content : d'.content no = d.content no
  limit : d'.limit = d.limit
  others : ∀ {other : String}, Path.IsEnding other → other ≠ ending → SameBeside d d' p other
  kept : ∀ {old : Bytes}, d.bytesAt (p.beside ending) = .ok old →
    ∃ n, d'.bytesAt (p.beside ending) = .ok (old ++ ts.take n)
  whole : appendOutcome d.limit (d.bytesAt (p.beside ending)) ts.length = .ok () →
    d'.bytesAt (p.beside ending) = .ok (d.found (p.beside ending) ++ ts)

theorem isEnding_merge : Path.IsEnding ".merge" := ⟨by decide, by decide, by decide⟩

theorem isEnding_torn : Path.IsEnding ".torn" := ⟨by decide, by decide, by decide⟩

theorem site_of_lookup {d : Disk} {p : Path} {no : FileNo} (hd : d.Sound)
    (hl : d.lookup p = .ok (.file no)) : ∃ parent name, Site d p parent name no := by
  obtain ⟨parent, name, hs, hfile⟩ := seats_of_lookup hl
  exact ⟨parent, name, hd, hs, hfile⟩

section OpenWrite

variable {d d' : Disk} {p : Path} {i : FileNo}

theorem found_of_openWrite (h : d.openWrite p = (.ok i, d')) : d'.content i = d.found p := by
  obtain ⟨parent, name, hs⟩ := seats_of_openWrite h
  rcases hs.openWrite_ok h with ⟨hnone, rfl, rfl⟩ | ⟨hfile, rfl⟩
  · rw [content_create_self, found, bytesAt, hs.lookup_eq, hnone]
    rfl
  · have hlook : d'.lookup p = .ok (.file i) := by rw [hs.lookup_eq, hfile]
    rw [found, bytesAt_file hlook]
    rfl

theorem site_of_openWrite (hd : d.Sound) (h : d.openWrite p = (.ok i, d'))
    (hne : d.found p ≠ []) : ∃ parent name, Site d p parent name i := by
  obtain ⟨parent, name, hs⟩ := seats_of_openWrite h
  rcases hs.openWrite_ok h with ⟨-, rfl, rfl⟩ | ⟨hfile, -⟩
  · rw [← found_of_openWrite h, content_create_self] at hne
    exact absurd rfl hne
  · exact ⟨parent, name, hd, hs, hfile⟩

theorem file_of_openWrite (h : d.openWrite p = (.ok i, d')) {no : FileNo}
    (hl : d.lookup p = .ok (.file no)) : i = no := by
  obtain ⟨parent, name, hs⟩ := seats_of_openWrite h
  rw [hs.lookup_eq] at hl
  rcases hs.openWrite_ok h with ⟨hnone, -, -⟩ | ⟨hfile, -⟩
  · rw [hnone] at hl
    cases hl
  · rw [hfile] at hl
    cases hl
    rfl

end OpenWrite

namespace Site

variable {d d' : Disk} {p : Path} {parent : List Name} {name : Name} {no i : FileNo}
  {ending other : String}

theorem lookup_eq (h : Site d p parent name no) : d.lookup p = .ok (.file no) := by
  rw [h.seat.lookup_eq, h.file]

theorem openWrite_eq (h : Site d p parent name no) : d.openWrite p = (.ok no, d) := by
  rw [h.seat.openWrite_eq, h.file]

theorem of_only (h : Site d p parent name no) (ho : Only i d d') : Site d' p parent name no :=
  ⟨h.sound.of_only ho, h.seat.of_tree_eq ho.tree, ho.tree ▸ h.file⟩

theorem erase_beside (h : Site d p parent name no) (he : Path.IsEnding ending)
    (hdir : d.tree[parent ++ [name ++ ending.toList]]? ≠ some .dir) :
    Site { d with tree := d.tree.erase (parent ++ [name ++ ending.toList]) } p parent name no := by
  refine ⟨h.sound.erase _, h.seat.of_dirs (keepsDirs_erase hdir), ?_⟩
  rw [getElem?_erase_tree, if_neg (beside_ne parent name he), h.file]

theorem create_beside (h : Site d p parent name no) (he : Path.IsEnding ending)
    (hnone : d.tree[parent ++ [name ++ ending.toList]]? = none) :
    Site (d.create parent (name ++ ending.toList)).2 p parent name no := by
  refine ⟨h.sound.create .., h.seat.of_dirs (keepsDirs_create hnone), ?_⟩
  rw [getElem?_create, if_neg (beside_ne parent name he), h.file]

theorem beside_eq (h : Site d p parent name no) (he : Path.IsEnding ending)
    (hl : (p.beside ending).tooLong = false)
    (ht : d.tree[parent ++ [name ++ ending.toList]]? = some (.file i)) :
    Site d (p.beside ending) parent (name ++ ending.toList) i :=
  ⟨h.sound, h.seat.beside he hl, ht⟩

theorem beside_apart (h : Site d p parent name no) (hne : other ≠ ending)
    (ht : d.tree[parent ++ [name ++ ending.toList]]? = some (.file i))
    (ho : Path.IsEnding other) {j : FileNo} (hj : d.lookup (p.beside other) = .ok (.file j)) :
    j ≠ i := by
  cases hl : (p.beside other).tooLong with
  | true =>
    rw [(h.seat.tooLong_beside ho hl).1] at hj
    cases hj
  | false =>
    rw [(h.seat.beside ho hl).lookup_eq] at hj
    split at hj
    · cases hj
    · rename_i hother
      cases hj
      rintro rfl
      exact append_ending_injective parent name hne (h.sound.apart hother ht)

theorem ne_beside (h : Site d p parent name no) (ho : Path.IsEnding other) :
    d.lookup (p.beside other) ≠ .ok (.file no) := by
  intro hj
  cases hl : (p.beside other).tooLong with
  | true =>
    rw [(h.seat.tooLong_beside ho hl).1] at hj
    cases hj
  | false =>
    rw [(h.seat.beside ho hl).lookup_eq] at hj
    split at hj
    · cases hj
    · rename_i hother
      cases hj
      exact beside_ne parent name ho (h.sound.apart hother h.file)

/-- Appending to a file beside another. -/
theorem appendAll_beside (h : Site d p parent name no) (he : Path.IsEnding ending)
    (hl : (p.beside ending).tooLong = false)
    (ht : d.tree[parent ++ [name ++ ending.toList]]? = some (.file i)) {ts : Bytes}
    (h0 : ts ≠ []) :
    ∃ d', d.appendAll i ts =
        (appendOutcome d.limit (d.bytesAt (p.beside ending)) ts.length, d') ∧
      Appended d d' p parent name no ending ts := by
  obtain ⟨d', n, ha, ho, hc, hn⟩ := appendAll_spec d i h0
  have hself : no ≠ i := by
    rintro rfl
    exact beside_ne parent name he (h.sound.apart ht h.file)
  have hold := bytesAt_file (h.beside_eq he hl ht).lookup_eq
  have hnew : d'.bytesAt (p.beside ending) = .ok (d.content i ++ ts.take n) := by
    rw [← hc]
    exact bytesAt_file ((h.beside_eq he hl ht).of_only ho).lookup_eq
  refine ⟨d', by rw [ha, hold]; rfl, h.of_only ho, ho.others no hself, ho.limit,
    fun {other} hother hne => ?_, fun hold' => ?_, fun hok => ?_⟩
  · have hlook := lookup_congr ho.tree (p.beside other)
    exact ⟨hlook, bytesAt_congr hlook fun j hj => ho.others j (h.beside_apart hne ht hother hj)⟩
  · cases hold.symm.trans hold'
    exact ⟨n, hnew⟩
  · rw [hold] at hok
    simp only [appendOutcome] at hok
    split at hok
    · rename_i hle
      rw [hnew, hn hle, List.take_length, found, hold]
      rfl
    · cases hok

theorem sameBeside_create (h : Site d p parent name no) (he : Path.IsEnding ending)
    (ht : d.tree[parent ++ [name ++ ending.toList]]? = none) (ho : Path.IsEnding other)
    (hne : other ≠ ending) :
    SameBeside d (d.create parent (name ++ ending.toList)).2 p other := by
  have hlook := h.seat.lookup_beside_congr (h.create_beside he ht).seat ho (by
    rw [getElem?_create, if_neg (append_ending_injective parent name (Ne.symm hne))])
  refine ⟨hlook, bytesAt_congr hlook fun j hj => content_create_of_ne _ _ _ ?_⟩
  obtain ⟨_, _, -, hfile⟩ := seats_of_lookup hj
  exact (h.sound.below hfile).ne

theorem appendFile_refused (h : Site d p parent name no) {ts : Bytes} {e : IoError}
    (hopen : d.openWrite (p.beside ending) = (.error e, d))
    (hbytes : d.bytesAt (p.beside ending) = .error e) (hne : e ≠ .noEntry) :
    d.appendFile (p.beside ending) ts =
        (appendOutcome d.limit (d.bytesAt (p.beside ending)) ts.length, d) ∧
      Appended d d p parent name no ending ts := by
  have hout : appendOutcome d.limit (d.bytesAt (p.beside ending)) ts.length = .error e := by
    rw [hbytes]
    cases e <;> first | rfl | exact absurd rfl hne
  refine ⟨by simp only [appendFile, hopen, hout], h, rfl, rfl, fun _ _ => ⟨rfl, rfl⟩,
    fun hold => ?_, fun hok => ?_⟩
  · cases hbytes.symm.trans hold
  · cases hout.symm.trans hok

theorem appendFile_made (h : Site d p parent name no) (he : Path.IsEnding ending)
    (hl : (p.beside ending).tooLong = false)
    (ht : d.tree[parent ++ [name ++ ending.toList]]? = none) {ts : Bytes} (h0 : ts ≠ []) :
    ∃ d', d.appendFile (p.beside ending) ts =
        (appendOutcome d.limit (d.bytesAt (p.beside ending)) ts.length, d') ∧
      Appended d d' p parent name no ending ts := by
  have hopen := (h.seat.beside he hl).openWrite_eq
  have hlook := (h.seat.beside he hl).lookup_eq
  rw [ht] at hopen hlook
  have h₁ := h.create_beside he ht
  have ht₁ : (d.create parent (name ++ ending.toList)).2.tree[
      parent ++ [name ++ ending.toList]]? = some (.file d.fresh) := by
    rw [getElem?_create, if_pos rfl]
  have hnone : d.bytesAt (p.beside ending) = .error .noEntry := by simp only [bytesAt, hlook]
  have hempty : (d.create parent (name ++ ending.toList)).2.bytesAt (p.beside ending) =
      .ok [] := by
    rw [bytesAt_file (h₁.beside_eq he hl ht₁).lookup_eq, content_create_self]
  obtain ⟨d', ha, happ⟩ := h₁.appendAll_beside he hl ht₁ h0
  have hout : appendOutcome d.limit (d.bytesAt (p.beside ending)) ts.length =
      appendOutcome (d.create parent (name ++ ending.toList)).2.limit (.ok []) ts.length := by
    rw [hnone]
    simp only [appendOutcome, List.length_nil, Nat.zero_add]
    rfl
  rw [hempty, ← hout] at ha
  refine ⟨d', by simp only [appendFile, hopen, ha], happ.site, ?_, happ.limit,
    fun ho hne => ?_, fun hold => ?_, fun hok => ?_⟩
  · rw [happ.content, content_create_of_ne _ _ _ (h.sound.below h.file).ne]
  · have hsame := h.sameBeside_create he ht ho hne
    have hrest := happ.others ho hne
    exact ⟨hrest.1.trans hsame.1, hrest.2.trans hsame.2⟩
  · cases hnone.symm.trans hold
  · have hwhole := happ.whole (by rwa [hempty, ← hout])
    rw [hwhole, found, hempty, found, hnone]
    rfl

/-- Appending beside a file, whatever stands there. -/
theorem appendFile_beside (h : Site d p parent name no) (he : Path.IsEnding ending) {ts : Bytes}
    (h0 : ts ≠ []) :
    ∃ d', d.appendFile (p.beside ending) ts =
        (appendOutcome d.limit (d.bytesAt (p.beside ending)) ts.length, d') ∧
      Appended d d' p parent name no ending ts := by
  cases hl : (p.beside ending).tooLong with
  | true =>
    obtain ⟨hlook, hopen, -⟩ := h.seat.tooLong_beside he hl
    exact ⟨d, h.appendFile_refused hopen (by simp only [bytesAt, hlook]) (by rintro ⟨⟩)⟩
  | false =>
    have hopen := (h.seat.beside he hl).openWrite_eq
    have hlook := (h.seat.beside he hl).lookup_eq
    cases ht : d.tree[parent ++ [name ++ ending.toList]]? with
    | none => exact h.appendFile_made he hl ht h0
    | some node =>
      rw [ht] at hopen hlook
      cases node with
      | dir =>
        exact ⟨d, h.appendFile_refused hopen (by simp only [bytesAt, hlook, read]) (by rintro ⟨⟩)⟩
      | file i =>
        obtain ⟨d', ha, happ⟩ := h.appendAll_beside he hl ht h0
        exact ⟨d', by simp only [appendFile, hopen, ha], happ⟩

end Site

end LogStore.Disk
