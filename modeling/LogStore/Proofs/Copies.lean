import LogStore.Proofs.Compaction
import LogStore.Proofs.Index
import LogStore.Proofs.Log.Places
import LogStore.Proofs.Log.Replay
import LogStore.Proofs.Segment

/-! What a compactor is asked to copy, it copies in that order, and its moves point at the copies.
What cannot be stored is refused at once and leaves nothing behind. -/

namespace LogStore

/-- Where a record lies its value is read, through the entry that belongs to it. -/
theorem Positioned.LiesIn.read {p : Positioned} {d : Disk} {no : FileNo}
    (h : p.LiesIn (d.content no)) (hlen : (d.content no).length ≤ Disk.largest)
    (id fileId : FileId) :
    Segment.read ⟨id, .file no⟩ (p.entry fileId) d = .ok p.record.value := by
  rcases Nat.eq_zero_or_pos p.record.value.length with hnone | hsize
  · rw [Segment.read, if_pos (show (p.entry fileId).valueSize = 0 from hnone),
      List.length_eq_zero_iff.mp hnone]
  have hin : p.valuePos + p.record.value.length ≤ (d.content no).length := by
    have := congrArg List.length h.value
    rw [List.length_take, List.length_drop] at this
    omega
  have hend : (p.entry fileId).valuePos + (p.entry fileId).valueSize ≤ (d.content no).length := hin
  have hread : d.read (.file no) = .ok (d.content no) := rfl
  rw [Segment.read_file hread hsize (hend.trans hlen), if_pos hend]
  exact congrArg Except.ok h.value

namespace Compactor

open Disk

/-- What is to be copied: a value, its key, and the entry that it has been under. -/
structure Item where
  key : Bytes
  old : Entry
  value : Bytes
  deriving DecidableEq, Repr

namespace Item

/-- There is a value, and a record has room for its length and for that of its key. -/
def Storable (a : Item) : Prop :=
  a.value ≠ [] ∧ a.key.length < UInt32.size ∧ a.value.length < UInt32.size

instance : DecidablePred Storable := fun a => by unfold Storable; infer_instance

def answer (a : Item) : Except Error Unit :=
  if a.value = [] then .error (.corruptIndex a.old.fileId a.old.valuePos a.old.valueSize 0)
  else if UInt32.size ≤ a.key.length then .error (.recordTooLarge .key a.key.length)
  else if UInt32.size ≤ a.value.length then .error (.recordTooLarge .value a.value.length)
  else .ok ()

def record (stamps : StampPolicy) (now : UInt32) (a : Item) : Record :=
  ⟨match stamps with
    | .preserve => a.old.timestamp
    | .refresh => now, a.key, a.value⟩

theorem answer_of_storable {a : Item} (h : a.Storable) : a.answer = .ok () := by
  obtain ⟨hv, hk, hl⟩ := h
  rw [answer, if_neg hv, if_neg (Nat.not_le.mpr hk), if_neg (Nat.not_le.mpr hl)]

end Item

def stored (as : List Item) : List Item := as.filter fun a => a.Storable

theorem stored_cons_of_storable {a : Item} (h : a.Storable) (as : List Item) :
    stored (a :: as) = a :: stored as :=
  List.filter_cons_of_pos (decide_eq_true h)

theorem stored_cons_of_not {a : Item} (h : ¬ a.Storable) (as : List Item) :
    stored (a :: as) = stored as :=
  List.filter_cons_of_neg (by simpa using h)

theorem storable_of_mem {a : Item} {as : List Item} (h : a ∈ stored as) : a.Storable :=
  of_decide_eq_true (List.mem_filter.mp h).2

def addAll : Compactor → List Item → Disk → List (Except Error Unit) × Compactor × Disk
  | c, [], d => ([], c, d)
  | c, a :: as, d =>
    let (x, c, d) := c.add a.key a.old a.value d
    let (xs, c, d) := c.addAll as d
    (x :: xs, c, d)

def build (c : Compactor) (as : List Item) (d : Disk) :
    List (Except Error Unit) × Except Error Compacted × Disk :=
  let (xs, c, d) := c.addAll as d
  let (out, d) := c.finish d
  (xs, out, d)

def NoWriteFails (c : Compactor) (as : List Item) (d : Disk) : Prop :=
  (∀ x ∈ (c.build as d).1, ∀ cause, x ≠ .error (.io cause)) ∧
    ∀ cause, (c.build as d).2.1 ≠ .error (.io cause)

variable {c c₀ : Compactor} {d : Disk} {a : Item} {as done : List Item}

/-- What cannot be stored is refused before anything is written or noted. -/
theorem add_refused (h : ¬ a.Storable) (c : Compactor) (d : Disk) :
    c.add a.key a.old a.value d = (a.answer, c, d) := by
  unfold add Item.answer Record.encode Record.checkLengths
  by_cases hv : a.value = []
  · simp only [hv, List.isEmpty_nil, if_true]
  by_cases hk : UInt32.size ≤ a.key.length
  · simp only [List.isEmpty_iff, hv, hk, if_true, if_false]
  by_cases hl : UInt32.size ≤ a.value.length
  · simp only [List.isEmpty_iff, hv, hk, hl, if_true, if_false]
  · exact absurd ⟨hv, Nat.not_le.mp hk, Nat.not_le.mp hl⟩ h

theorem addAll_stored (as : List Item) (c : Compactor) (d : Disk) :
    (c.addAll (stored as) d).2 = (c.addAll as d).2 := by
  induction as generalizing c d with
  | nil => rfl
  | cons a as ih =>
    by_cases ha : a.Storable
    · rw [stored_cons_of_storable ha]
      exact ih _ _
    · rw [stored_cons_of_not ha, ih, addAll, add_refused ha]

def records (c : Compactor) (as : List Item) : List Record :=
  as.map (Item.record c.stamps c.began)

theorem logBytes_records_concat (c : Compactor) (as : List Item) (a : Item) :
    logBytes (c.records (as ++ [a])) =
      logBytes (c.records as) ++ (a.record c.stamps c.began).bytes := by
  rw [records, List.map_append, logBytes_append, List.map_singleton, logBytes_singleton]
  rfl

/-- What has become of a compactor that had nothing yet, with these copied. -/
structure Built (c₀ : Compactor) (as : List Item) (c : Compactor) (d : Disk) : Prop where
  holding : c.Holding d (logBytes (c₀.records as))
  same : c = { c₀ with
    position := c.position
    pending := c.pending
    offset := (logBytes (c₀.records as)).length
    moves := c.moves }
  origins : c.moves.map (fun m => (m.key, m.old)) = as.map fun a => (a.key, a.old)
  targets : c.moves.map (fun m => (m.key, m.new)) =
    (positions 0 (c₀.records as)).map fun p => (p.record.key, p.entry c₀.fileId)

namespace Built

theorem file_eq (h : Built c₀ as c d) : c.file = c₀.file := by
  rw [h.same]

theorem copy_eq (h : Built c₀ as c d) (a : Item) :
    c.copy a.key a.old a.value = a.record c₀.stamps c₀.began := by
  rw [h.same]
  rfl

/-- One more is copied, or it does not fit. -/
theorem add (h : Built c₀ done c d) (ha : a.Storable) :
    ∃ c' d', Only c₀.file d d' ∧
      ((c.add a.key a.old a.value d = (.ok (), c', d') ∧ Built c₀ (done ++ [a]) c' d') ∨
        (c.add a.key a.old a.value d = (.error (.io .fileTooLarge), c', d') ∧
          ceiling d.limit < (logBytes (c₀.records (done ++ [a]))).length)) := by
  have hfits : (c.copy a.key a.old a.value).Fits := ha.2
  have hoffset : c.offset = (logBytes (c₀.records done)).length := by rw [h.same]
  have hid : c.fileId = c₀.fileId := by rw [h.same]
  obtain ⟨c', d', ho, hadd⟩ := h.holding.add ha.1 hfits
  rw [h.file_eq] at ho
  rw [h.copy_eq, ← logBytes_records_concat] at hadd
  refine ⟨c', d', ho, ?_⟩
  rcases hadd with ⟨hadd, hholding, hsame⟩ | ⟨hadd, -, hfull⟩
  · have hmoves : c'.moves = c.moves ++ [⟨a.key, a.old,
        (⟨c.offset, a.record c₀.stamps c₀.began⟩ : Positioned).entry c.fileId⟩] := by rw [hsame]
    refine .inl ⟨hadd, hholding, ?_, ?_, ?_⟩
    · rw [hsame, h.same, logBytes_records_concat, List.length_append]
    · rw [hmoves, List.map_append, List.map_append, h.origins]
      rfl
    · rw [hmoves, List.map_append, h.targets, records, records, List.map_append, positions_append,
        List.map_append, hoffset, hid, Nat.zero_add]
      rfl
  · exact .inr ⟨hadd, hfull⟩

/-- All that can be stored are copied, or not all of them fit. The induction is on what is still
to be copied, with the compactor as it is by then. -/
theorem addAll (h : Built c₀ done c d) (as : List Item) :
    (∃ c' d', c.addAll as d = (as.map Item.answer, c', d') ∧ Only c₀.file d d' ∧
        Built c₀ (done ++ stored as) c' d') ∨
      (.error (.io .fileTooLarge) ∈ (c.addAll as d).1 ∧
        ceiling d.limit <
          (logBytes (c₀.records (done ++ stored as))).length) := by
  induction as generalizing done c d with
  | nil =>
    rw [stored, List.filter_nil, List.append_nil]
    exact .inl ⟨c, d, rfl, .refl .., h⟩
  | cons a as ih =>
    rw [Compactor.addAll]
    by_cases ha : a.Storable
    · rw [stored_cons_of_storable ha, List.append_cons]
      obtain ⟨c₁, d₁, ho, ⟨hadd, h₁⟩ | ⟨hadd, hfull⟩⟩ := h.add ha
      · rw [hadd, ← ho.limit]
        refine (ih h₁).imp (fun ⟨c', d', hall, ho', h'⟩ => ?_) (.imp_left (List.mem_cons_of_mem _))
        refine ⟨c', d', ?_, ho.trans ho', h'⟩
        rw [List.map_cons, Item.answer_of_storable ha]
        simp only [hall]
      · rw [hadd]
        refine .inr ⟨List.mem_cons_self, ?_⟩
        rw [records, List.map_append, logBytes_append, List.length_append]
        exact Nat.lt_add_right _ hfull
    · rw [stored_cons_of_not ha, add_refused ha]
      refine (ih h).imp (fun ⟨c', d', hall, ho', h'⟩ => ?_) (.imp_left (List.mem_cons_of_mem _))
      refine ⟨c', d', ?_, ho', h'⟩
      rw [List.map_cons]
      simp only [hall]

end Built

theorem Item.answer_ne_io (a : Item) (cause : IoError) : a.answer ≠ .error (.io cause) := by
  unfold answer
  split
  · exact nofun
  split
  · exact nofun
  split <;> exact nofun

theorem built_nil {w w' : World} {p : Path} {fileId : FileId} {stamps : StampPolicy}
    (h : create p fileId stamps w = (.ok c, w')) :
    ∃ k, c = ⟨p, k, 0, [], fileId, stamps, w.now, 0, []⟩ ∧ Built c [] c w'.disk ∧
      w'.disk.lookup p = .ok (.file k) ∧ w'.disk.limit = w.disk.limit := by
  rcases hopen : w.disk.openWrite p with ⟨e | k, d⟩
  · rw [create_error hopen] at h
    cases h
  rw [create_ok hopen] at h
  cases h
  have hempty : (d.setContent k []).content k = [] := content_setContent_self ..
  have htree : (d.setContent k []).tree = d.tree := rfl
  refine ⟨k, rfl, ⟨⟨?_, ?_, Nat.zero_le _⟩, rfl, rfl, rfl⟩, ?_, ?_⟩
  · exact (List.append_nil _).trans hempty
  · exact (congrArg List.length hempty).symm
  · exact (lookup_congr htree p).trans (lookup_openWrite hopen)
  · change d.limit = w.disk.limit
    exact limit_openWrite hopen

/-- The file holds the copies and nothing else, and the moves tell where they are. -/
structure Finished (c : Compactor) (as : List Item) (out : Compacted) (d : Disk) : Prop where
  content : d.content c.file = logBytes (c.records as)
  path : out.path = c.path
  bytesWritten : out.bytesWritten = (d.content c.file).length
  origins : out.moves.map (fun m => (m.key, m.old)) = as.map fun a => (a.key, a.old)
  targets : out.moves.map (fun m => (m.key, m.new)) =
    (positions 0 (c.records as)).map fun p => (p.record.key, p.entry c.fileId)

/-- Either everything fits and all goes as asked, or some write fails. -/
theorem build_cases (h : Built c [] c d) (as : List Item) :
    (∃ out d', c.build as d = (as.map Item.answer, .ok out, d') ∧ Only c.file d d' ∧
        Finished c (stored as) out d' ∧
        (logBytes (c.records (stored as))).length ≤ ceiling d.limit) ∨
      (¬ c.NoWriteFails as d ∧
        ceiling d.limit < (logBytes (c.records (stored as))).length) := by
  rcases h.addAll as with ⟨c', d', hall, ho, h'⟩ | ⟨hfailed, hfull⟩
  · rw [List.nil_append] at h'
    have hpath : c'.path = c.path := by rw [h'.same]
    have hoffset : c'.offset = (logBytes (c.records (stored as))).length := by rw [h'.same]
    obtain ⟨d'', ho', hfinish⟩ := h'.holding.finish
    rw [h'.file_eq, ho.limit] at hfinish
    rw [h'.file_eq] at ho'
    rcases hfinish with ⟨hfinish, hcontent, hle⟩ | ⟨hfinish, hfull⟩
    · refine .inl ⟨⟨c'.path, c'.moves, c'.offset⟩, d'', ?_, ho.trans ho', ?_, hle⟩
      · simp only [build, hall, hfinish]
      · exact ⟨hcontent, hpath, by rw [hcontent, hoffset], h'.origins, h'.targets⟩
    · refine .inr ⟨fun hnone => hnone.2 .fileTooLarge ?_, hfull⟩
      simp only [build, hall, hfinish]
  · exact .inr ⟨fun hnone => hnone.1 _ hfailed _ rfl, hfull⟩

theorem noWriteFails_of_build {out : Compacted} {d' : Disk}
    (h : c.build as d = (as.map Item.answer, .ok out, d')) : c.NoWriteFails as d := by
  unfold NoWriteFails
  rw [h]
  refine ⟨fun x hx cause => ?_, nofun⟩
  obtain ⟨a, -, rfl⟩ := List.mem_map.mp hx
  exact a.answer_ne_io cause

/-- Where the last one with a key leads is told by the pairs of keys and entries alone. -/
theorem map_getLast?_filter {α : Type} (l : List α) (f : α → Bytes) (g : α → Entry) (key : Bytes) :
    (l.filter fun x => f x = key).getLast?.map g =
      ((l.map fun x => (f x, g x)).filter fun x => x.1 = key).getLast?.map Prod.snd := by
  rw [List.filter_map, List.getLast?_map, Option.map_map]
  rfl

namespace Finished

variable {out : Compacted}

theorem fits (has : ∀ a ∈ as, a.Storable) : ∀ r ∈ c.records as, r.Fits := by
  intro r hr
  obtain ⟨a, ha, rfl⟩ := List.mem_map.mp hr
  exact (has a ha).2

theorem map_read (h : Finished c as out d) (has : ∀ a ∈ as, a.Storable)
    (hlen : (d.content c.file).length ≤ largest) :
    (out.moves.map fun m => Segment.read ⟨c.fileId, .file c.file⟩ m.new d) =
      as.map fun a => .ok a.value := by
  have hlies : ∀ p ∈ positions 0 (c.records as),
      Segment.read ⟨c.fileId, .file c.file⟩ (p.entry c.fileId) d = .ok p.record.value := by
    intro p hp
    have hlog : p.LiesIn ([] ++ logBytes (c.records as)) :=
      Positioned.liesIn_of_mem_positions (fits has) hp
    rw [List.nil_append, ← h.content] at hlog
    exact hlog.read hlen _ _
  calc (out.moves.map fun m => Segment.read ⟨c.fileId, .file c.file⟩ m.new d)
      = (out.moves.map fun m => (m.key, m.new)).map
          fun x => Segment.read ⟨c.fileId, .file c.file⟩ x.2 d := by
        rw [List.map_map]
        rfl
    _ = (positions 0 (c.records as)).map fun p => .ok p.record.value := by
        rw [h.targets, List.map_map]
        exact List.map_congr_left hlies
    _ = ((positions 0 (c.records as)).map Positioned.record).map fun r => .ok r.value := by
        rw [List.map_map]
        rfl
    _ = as.map fun a => .ok a.value := by
        rw [map_record_positions, records, List.map_map]
        rfl

/-- A replay finds each key where its last copy is. -/
theorem recover (h : Finished c as out d) (has : ∀ a ∈ as, a.Storable) {p : Path}
    (hl : d.lookup p = .ok (.file c.file)) :
    ∃ found ix, Replay.recover p c.fileId ∅ d = (.ok found, ix) ∧
      ∀ key, ix[key]? = (out.moves.filter fun m => m.key = key).getLast?.map Move.new := by
  have hparts : Parts (d.content c.file) (c.records as) [] .endOfLog :=
    h.content ▸ Parts.of_records (fits has)
  have hvalues : ∀ p ∈ positions 0 (c.records as), p.record.value ≠ [] := by
    intro p hp
    obtain ⟨a, ha, hrecord⟩ := List.mem_map.mp (record_mem_of_positions hp)
    rw [← hrecord]
    exact (has a ha).1
  refine ⟨_, _, Replay.recover_parts hl hparts c.fileId ∅, fun key => ?_⟩
  have hrecords := map_getLast?_filter (positions 0 (c.records as)) (fun p => p.record.key)
    (fun p => p.entry c.fileId) key
  have hmoves := map_getLast?_filter out.moves Move.key Move.new key
  rw [h.targets] at hmoves
  rw [Index.getElem?_replay_values hvalues]
  exact hrecords.trans hmoves.symm

end Finished

/-- What can be stored is copied in the order in which it was asked for, and nothing else is in
the file, whatever it held before. The moves are those of the copies, each of them points at its
own value, and to a replay the last copy of a key is the one that counts. No write fails exactly
if all the copies fit under the limit. -/
theorem moves_point_at_copies {w w₀ : World} {p : Path} {fileId : FileId} {stamps : StampPolicy}
    (hcreate : create p fileId stamps w = (.ok c, w₀)) (as : List Item) :
    (c.NoWriteFails as w₀.disk ↔
        (logBytes ((stored as).map (Item.record stamps w.now))).length ≤ ceiling w.disk.limit) ∧
      (c.addAll (stored as) w₀.disk).2 = (c.addAll as w₀.disk).2 ∧
      (c.NoWriteFails as w₀.disk → ∃ out d no s found ix,
        c.build as w₀.disk = (as.map Item.answer, .ok out, d) ∧
        d.lookup p = .ok (.file no) ∧
        d.content no = logBytes ((stored as).map (Item.record stamps w.now)) ∧
        out.path = p ∧ out.bytesWritten = (d.content no).length ∧
        out.moves.map (fun m => (m.key, m.old)) = (stored as).map (fun a => (a.key, a.old)) ∧
        Segment.openFile fileId p d = .ok s ∧
        out.moves.map (fun m => s.read m.new d) = (stored as).map (fun a => .ok a.value) ∧
        Replay.recover p fileId ∅ d = (.ok found, ix) ∧
        ∀ key, ix[key]? = (out.moves.filter fun m => m.key = key).getLast?.map Move.new) := by
  obtain ⟨k, rfl, hbuilt, hlookup, hlimit⟩ := built_nil hcreate
  have hstored : ∀ a ∈ stored as, a.Storable := fun a ha => storable_of_mem ha
  rw [← hlimit]
  rcases build_cases hbuilt as with ⟨out, d, hbuild, ho, hfin, hle⟩ | ⟨hfails, hfull⟩
  · have hthere : d.lookup p = .ok (.file k) := (lookup_congr ho.tree p).trans hlookup
    have hlen : (d.content k).length ≤ largest := by
      rw [hfin.content]
      exact hle.trans (ceiling_le _)
    obtain ⟨found, ix, hrecover, hlast⟩ := hfin.recover hstored hthere
    refine ⟨iff_of_true (noWriteFails_of_build hbuild) hle, addAll_stored .., fun _ => ?_⟩
    refine ⟨out, d, k, _, found, ix, hbuild, hthere, hfin.content, hfin.path, hfin.bytesWritten,
      hfin.origins, ?_, hfin.map_read hstored hlen, hrecover, hlast⟩
    rw [Segment.openFile, hthere]
  · refine ⟨iff_of_false hfails (Nat.not_le.mpr hfull), addAll_stored .., ?_⟩
    intro hnone
    exact absurd hnone hfails

def twice : List Item :=
  [⟨[1], ⟨0, 17, 1, 3⟩, [10]⟩, ⟨[2], ⟨0, 35, 4, 3⟩, []⟩, ⟨[1], ⟨0, 60, 2, 4⟩, [20, 30]⟩]

theorem moves_point_at_copies_twice : ∃ c w₀ out d no s found ix,
    create ['m'] 5 .refresh (World.empty 7) = (.ok c, w₀) ∧
      c.build twice w₀.disk =
        ([.ok (), .error (.corruptIndex 0 35 4 0), .ok ()], .ok out, d) ∧
      d.content no = logBytes [⟨7, [1], [10]⟩, ⟨7, [1], [20, 30]⟩] ∧
      out.moves.map (fun m => (m.key, m.old)) =
        [([1], ⟨0, 17, 1, 3⟩), ([1], ⟨0, 60, 2, 4⟩)] ∧
      out.moves.map (fun m => Segment.read s m.new d) = [.ok [10], .ok [20, 30]] ∧
      Replay.recover ['m'] 5 ∅ d = (.ok found, ix) ∧
      ix[([1] : Bytes)]? = (out.moves.filter fun m => m.key = [1]).getLast?.map Move.new := by
  have hcreate : create ['m'] 5 .refresh (World.empty 7) =
      (.ok ⟨['m'], 0, 0, [], 5, .refresh, 7, 0, []⟩, _) :=
    create_ok (d := (Disk.empty.create [] ['m']).2) rfl 5 .refresh
  obtain ⟨hroom, -, hdone⟩ := moves_point_at_copies hcreate twice
  obtain ⟨out, d, no, s, found, ix, hbuild, -, hcontent, -, -, horigins, -, hread, hrecover,
    hlast⟩ := hdone (hroom.mpr (by decide))
  exact ⟨_, _, out, d, no, s, found, ix, hcreate, hbuild, hcontent, horigins, hread, hrecover,
    hlast [1]⟩

end Compactor

end LogStore
