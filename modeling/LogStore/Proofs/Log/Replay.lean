import LogStore.Proofs.Log.Canonical
import LogStore.Proofs.Log.Cursor

/-! A replay reads the longest part of a file that is records, and no more. What it adds to an
index, what it counts and where it says that appending goes on are all told by those records, and
so is what a pass over the same file gives. -/

namespace LogStore

/-- What records that stand in a file from `o` on make of an index: each takes its key out or puts
its own value in its place, and the last one stays. -/
def Index.after (fileId : FileId) : Nat → List Record → Index → Index
  | _, [], ix => ix
  | o, r :: rs, ix =>
    after fileId (o + r.bytes.length) rs (if r.value = [] then ix.erase r.key
      else ix.insert r.key ⟨fileId, o + 16 + r.key.length, r.value.length, r.timestamp⟩)

theorem Index.replay_positions (fileId : FileId) (o : Nat) (rs : List Record) (ix : Index) :
    ix.replay fileId (positions o rs) = ix.after fileId o rs := by
  induction rs generalizing o ix with
  | nil => rfl
  | cons r rs ih =>
    have hstep : ix.apply fileId ⟨o, r⟩ = if r.value = [] then ix.erase r.key
        else ix.insert r.key ⟨fileId, o + 16 + r.key.length, r.value.length, r.timestamp⟩ := by
      simp only [apply, Record.isTombstone, List.isEmpty_iff, Positioned.entry,
        Positioned.valuePos, Record.valueOffset, Header.size, Nat.add_assoc]
    rw [positions, after, Record.bytes_length, ← ih, ← hstep]
    rfl

theorem countP_positions (q : Record → Bool) (o : Nat) (rs : List Record) :
    (positions o rs).countP (q ·.record) = rs.countP q := by
  conv_rhs => rw [← map_record_positions o rs]
  rw [List.countP_map]
  rfl

theorem Cursor.openLog_eq {d : Disk} {p : Path} {no : FileNo} (hl : d.lookup p = .ok (.file no)) :
    openLog p d = .ok (start (.file no)) := by
  rw [openLog, hl]

/-- A tail is the end of a log, torn or clean, or it is damage. -/
theorem Parts.stop_cases {bs t : Bytes} {rs : List Record} {e : Error} (h : Parts bs rs t e) :
    (e.isEndOfLog = true ∧ (e = .endOfLog ∨ ∃ x y, e = .truncatedRecord x y)) ∨
      (e.isEndOfLog = false ∧ ∃ x y, e = .corruptRecord x y) := by
  rcases Record.decode_error h.stop with ⟨-, rfl⟩ | ⟨-, x, y, rfl⟩ | ⟨-, x, y, rfl⟩
  · exact .inl ⟨rfl, .inl rfl⟩
  · exact .inl ⟨rfl, .inr ⟨x, y, rfl⟩⟩
  · exact .inr ⟨rfl, x, y, rfl⟩

/-- Only of nothing is it said that the log ends here. -/
theorem Parts.endOfLog_iff {bs t : Bytes} {rs : List Record} {e : Error} (h : Parts bs rs t e) :
    e = .endOfLog ↔ t = [] := by
  rcases Record.decode_error h.stop with ⟨rfl, rfl⟩ | ⟨ht, x, y, rfl⟩ | ⟨ht, x, y, rfl⟩
  · exact iff_of_true rfl rfl
  · exact iff_of_false nofun ht
  · exact iff_of_false nofun ht

namespace Replay

variable {d : Disk} {p : Path} {no : FileNo} {rs : List Record} {t : Bytes} {e : Error}

/-- What a replay makes of a file, given its parts. -/
theorem recover_parts (hl : d.lookup p = .ok (.file no)) (hp : Parts (d.content no) rs t e)
    (fileId : FileId) (ix : Index) :
    recover p fileId ix d = (if e.isEndOfLog
        then .ok (ofScan (d.content no).length ⟨positions 0 rs, (logBytes rs).length, e⟩)
        else .error e,
      ix.replay fileId (positions 0 rs)) := by
  have hscan : (Cursor.start (.file no)).rest d =
      ⟨positions 0 rs, (logBytes rs).length, e⟩ := by
    rw [Cursor.rest, scan_feed (f := (Cursor.start (.file no)).feed d) rfl, Feed.coming]
    simp only [Cursor.feed, Cursor.start, List.nil_append, List.drop_zero]
    rw [hp.eq, scan_logBytes hp.fits hp.stop, Nat.zero_add]
  have hsize : d.sizeOf (Cursor.start (.file no)).node = (d.content no).length := rfl
  simp only [recover, Cursor.openLog_eq hl, hscan, Scan.failure?, hsize]
  cases e.isEndOfLog <;> rfl

theorem ofScan_parts {bs : Bytes} (hp : Parts bs rs t e) (he : e.isEndOfLog = true) :
    ofScan bs.length ⟨positions 0 rs, (logBytes rs).length, e⟩ =
      ⟨rs.length, rs.countP (·.value = []), bs.length - t.length, bs.length, decide (t ≠ [])⟩ := by
  have hlen : (positions 0 rs).length = rs.length := by
    rw [← List.length_map, map_record_positions]
  have htombs : Scan.tombstones ⟨positions 0 rs, (logBytes rs).length, e⟩ =
      rs.countP (·.value = []) := by
    refine (countP_positions Record.isTombstone 0 rs).trans (List.countP_congr fun r _ => ?_)
    rw [Record.isTombstone, List.isEmpty_iff, decide_eq_true_iff]
  have hvalid : (logBytes rs).length = bs.length - t.length := by
    rw [hp.eq, List.length_append, Nat.add_sub_cancel]
  have htorn : Scan.isTorn ⟨positions 0 rs, (logBytes rs).length, e⟩ = decide (t ≠ []) := by
    rw [Scan.isTorn, he, Bool.true_and, decide_eq_decide, ne_eq, ne_eq, hp.endOfLog_iff]
  rw [ofScan, hlen, htombs, htorn, hvalid]

/-- Whatever a file holds, it is records, in one way only, and a tail that is none; and a replay
puts into the index those records and nothing else. It succeeds exactly if the tail is not damaged,
and then tells the records and the tail by number and length. A pass over the same file gives the
same records, with their places, and after them the damage if the replay has met any. -/
theorem recover_longest_prefix (hl : d.lookup p = .ok (.file no)) (fileId : FileId) (ix : Index) :
    ∃ rs t e, Parts (d.content no) rs t e ∧
      (∀ rs' t' e', Parts (d.content no) rs' t' e' → rs' = rs ∧ t' = t) ∧
      (recover p fileId ix d).2 = ix.after fileId 0 rs ∧
      ((∃ found, (recover p fileId ix d).1 = .ok found) ↔
        e = .endOfLog ∨ ∃ x y, e = .truncatedRecord x y) ∧
      (∀ found, (recover p fileId ix d).1 = .ok found →
        found.records = rs.length ∧ found.tombstones = rs.countP (·.value = []) ∧
          found.validLen = (d.content no).length - t.length ∧
          found.fileLen = (d.content no).length ∧ (found.wasTruncated = true ↔ t ≠ []) ∧
          found.validLen ≤ found.fileLen ∧ found.discarded = t.length) ∧
      (∀ cause, (recover p fileId ix d).1 = .error cause →
        cause = e ∧ ∃ x y, e = .corruptRecord x y) ∧
      ∃ c, Cursor.openLog p d = .ok c ∧ ∀ n,
        Pass.calls (rs.length + (n + 1)) (Pass.start c) d =
          (positions 0 rs).map (some ∘ .ok) ++
            (match (recover p fileId ix d).1 with
              | .ok _ => none
              | .error cause => some (.error cause)) :: List.replicate n none := by
  obtain ⟨rs, t, e, hp⟩ := exists_parts (d.content no)
  have hrecover := recover_parts hl hp fileId ix
  have hfaces : (Cursor.start (.file no)).Faces d (d.content no) (logBytes rs ++ t) :=
    hp.eq ▸ Cursor.faces_start rfl
  have hpass := Pass.calls_eq hp.fits hp.stop hfaces
  refine ⟨rs, t, e, hp, fun rs' t' e' hp' => ?_, ?_, ?_⟩
  · obtain ⟨hrs, ht, -⟩ := hp'.unique hp
    exact ⟨hrs, ht⟩
  · rw [hrecover, Index.replay_positions]
  rcases hp.stop_cases with ⟨he, hquiet⟩ | ⟨he, x, y, hdamage⟩
  · rw [he, if_pos rfl, ofScan_parts hp he] at hrecover
    have hle : t.length ≤ (d.content no).length := by
      rw [hp.eq, List.length_append]
      exact Nat.le_add_left ..
    rw [hrecover]
    refine ⟨iff_of_true ⟨_, rfl⟩ hquiet, ?_, nofun, _, Cursor.openLog_eq hl, fun n => ?_⟩
    · intro found hfound
      obtain rfl := Except.ok.inj hfound
      refine ⟨rfl, rfl, rfl, rfl, decide_eq_true_iff, Nat.sub_le .., ?_⟩
      exact Nat.sub_sub_self hle
    · rw [hpass, he, if_pos rfl]
      rfl
  · rw [he, if_neg Bool.false_ne_true] at hrecover
    rw [hrecover]
    refine ⟨iff_of_false nofun ?_, nofun, ?_, _, Cursor.openLog_eq hl, fun n => ?_⟩
    · rintro (rfl | ⟨_, _, rfl⟩) <;> cases hdamage
    · intro cause hcause
      exact ⟨(Except.error.inj hcause).symm, x, y, hdamage⟩
    · rw [hpass, he, if_neg Bool.false_ne_true]
      rfl

/-- A value, its deletion, and three bytes of a record that was not written to its end. -/
theorem recover_longest_prefix_torn : ∃ d found, d.lookup ['a'] = .ok (.file 0) ∧
    d.content 0 = Record.bytes ⟨7, [1], [2]⟩ ++ (Record.tombstone [1] 9).bytes ++ [1, 2, 3] ∧
    (recover ['a'] 0 ∅ d).1 = .ok found ∧ found.records = 2 ∧ found.tombstones = 1 ∧
      found.discarded = 3 := by
  let bs := Record.bytes ⟨7, [1], [2]⟩ ++ (Record.tombstone [1] 9).bytes ++ [1, 2, 3]
  let d := (Disk.empty.create [] ['a']).2.setContent 0 bs
  have hp : Parts (d.content 0) [⟨7, [1], [2]⟩, .tombstone [1] 9] [1, 2, 3]
      (.truncatedRecord 16 3) := ⟨rfl, by decide, rfl⟩
  have hl : d.lookup ['a'] = .ok (.file 0) := rfl
  obtain ⟨rs, t, e, hparts, -, -, hok, hfound, -⟩ := recover_longest_prefix hl 0 ∅
  obtain ⟨rfl, rfl, rfl⟩ := hparts.unique hp
  obtain ⟨found, h⟩ := hok.mpr (.inr ⟨16, 3, rfl⟩)
  obtain ⟨hrecords, htombs, -, -, -, -, hdiscarded⟩ := hfound found h
  exact ⟨d, found, hl, rfl, h, hrecords, htombs, hdiscarded⟩

end Replay

end LogStore
