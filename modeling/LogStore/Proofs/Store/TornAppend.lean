import LogStore.Proofs.Store.Recovery

/-! A crash in the middle of an append leaves the log with the front of a record behind it.
Opening saves and cuts that front, and the store is the one that the log had before. The one
exception is a front that turning over a single bit of its lengths makes whole: opening
takes it for a damaged record, and refuses. -/

namespace LogStore

open Disk

/-- Cut off after `n` bytes, the record reads as whole once one bit of a length is turned. -/
def Record.LooksDamaged (r : Record) (n : Nat) : Prop :=
  Header.size ≤ n ∧ ∃ h ∈ r.header.lengthFlips, ∃ s rest,
    Record.decode (h.bytes ++ (r.bytes.take n).drop Header.size) = (.ok s, rest)

namespace Record

variable {r : Record} {n : Nat}

theorem looksDamaged_iff : r.LooksDamaged n ↔ Header.size ≤ n ∧
    r.header.lengthFlips.any (·.fits ((r.bytes.take n).drop Header.size)) = true := by
  simp only [LooksDamaged, List.any_eq_true, Header.fits_iff, decode_header, Prod.mk.injEq,
    exists_and_left, exists_eq', and_true]

instance (r : Record) (n : Nat) : Decidable (r.LooksDamaged n) :=
  decidable_of_iff _ looksDamaged_iff.symm

theorem length_take_bytes (hn : n < r.encodedLen) : (r.bytes.take n).length = n := by
  rw [List.length_take, bytes_length, Nat.min_eq_left hn.le]

/-- What is left of a cut record starts with its header, if it is long enough. -/
theorem take_bytes (hn : Header.size ≤ n) :
    r.bytes.take n = r.header.bytes ++ (r.bytes.take n).drop Header.size := by
  have htake : (r.bytes.take n).take Header.size = r.header.bytes := by
    rw [List.take_take, Nat.min_eq_left hn]
    exact List.take_left' r.header.bytes_length
  rw [← htake, List.take_append_drop]

/-- A cut record reads as torn, or as damaged where it looks so. -/
theorem decode_take (hr : r.Fits) (hpos : 0 < n) (hn : n < r.encodedLen) :
    (decode (r.bytes.take n)).1 = .error (if r.LooksDamaged n
      then .corruptRecord r.header.crc (r.header.checksum ((r.bytes.take n).drop Header.size))
      else .truncatedRecord (if n < Header.size then Header.size else r.encodedLen) n) := by
  have hlen := length_take_bytes hn
  by_cases hshort : n < Header.size
  · have hne : r.bytes.take n ≠ [] := by
      rw [← List.length_pos_iff, hlen]
      exact hpos
    have hnot : ¬ r.LooksDamaged n := fun h => absurd h.1 (Nat.not_le.mpr hshort)
    rw [decode_short hne (by rwa [hlen]), if_neg hnot, if_pos hshort, hlen]
  · have hle := Nat.not_lt.mp hshort
    have hbody : ((r.bytes.take n).drop Header.size).length + Header.size = n := by
      rw [List.length_drop, hlen]
      omega
    have hannounced : r.header.bodyLen + Header.size = r.encodedLen := by
      rw [bodyLen_header hr, encodedLen]
      omega
    have hcut : ((r.bytes.take n).drop Header.size).length < r.header.bodyLen := by omega
    have hdecode := congrArg (fun bs => (decode bs).1) (take_bytes (r := r) hle)
    simp only [decode_header, List.take_of_length_le hcut.le, Header.toRecord_short hcut] at hdecode
    have hiff : r.header.lengthFlips.any (·.fits ((r.bytes.take n).drop Header.size)) = true ↔
        r.LooksDamaged n := by
      rw [looksDamaged_iff, and_iff_right hle]
    rw [hdecode, if_neg hshort, Nat.add_comm Header.size, hannounced, Nat.add_comm Header.size,
      hbody]
    simp only [hiff]

end Record

namespace Store

variable {c : Config} {w w' : World} {no : FileNo} {rs : List Record} {r : Record} {n : Nat}

theorem openWith_ok_logBytes {s : Store} (hd : w.disk.Sound)
    (hl : w.disk.lookup c.path = .ok (.file no)) (hc : w.disk.content no = logBytes rs)
    (hfits : ∀ r ∈ rs, r.Fits) (h : openWith c w = (.ok s, w')) :
    s = onLog c no rs ∧ w'.disk.LogAt c.path no rs := by
  obtain ⟨parent, name, hs⟩ := site_of_lookup hd hl
  rw [openWith_eq hs] at h
  cases hm : w.disk.isDir c.mergePath with
  | true =>
    obtain ⟨e, w₁, hstale⟩ := removeStale_dir hm
    cases h.symm.trans (attach_error_of_stale hstale)
  | false =>
    have hp : Parts (w.disk.content no) rs [] .endOfLog := hc ▸ Parts.of_records hfits
    obtain ⟨w₁, hok, hlog, -⟩ := attach_clean hs hp hm
    cases h.symm.trans hok
    exact ⟨rfl, hlog⟩

/-- Opening after a crash in the middle of an append. Unless what is left of the record looks
damaged, the store that opens is that of the log before the append: it has the same index,
and gives the same answers from then on. What is left of the record has gone from the log to
the file that keeps such tails. If it looks damaged, opening fails, and nothing changes. -/
theorem openWith_torn_append (hd : w.disk.Sound) (hl : w.disk.lookup c.path = .ok (.file no))
    (hc : w.disk.content no = logBytes rs ++ r.bytes.take n) (hfits : ∀ s ∈ rs, s.Fits)
    (hr : r.Fits) (hpos : 0 < n) (hn : n < r.encodedLen)
    (hm : w.disk.isDir c.mergePath = false)
    (hsave : (w.disk.appendFile (Appender.tornPath c.path) (r.bytes.take n)).1 = .ok ()) :
    (r.LooksDamaged n → ∃ x y w',
      openWith c w = (.error (.recoveryFailed (.corruptRecord x y)), w') ∧
      w'.disk.bytesAt c.path = .ok (logBytes rs ++ r.bytes.take n) ∧
      w'.disk.bytesAt (Appender.tornPath c.path) =
        w.disk.bytesAt (Appender.tornPath c.path)) ∧
    (¬ r.LooksDamaged n → ∃ s w', openWith c w = (.ok s, w') ∧
      w'.disk.bytesAt c.path = .ok (logBytes rs) ∧
      w'.disk.bytesAt (Appender.tornPath c.path) =
        .ok (w.disk.found (Appender.tornPath c.path) ++ r.bytes.take n) ∧
      (∀ key, s.get key w'.disk =
        match lastOf key rs with
        | some r => if r.value = [] then .error .keyNotFound else .ok r.value
        | none => .error .keyNotFound) ∧
      ∀ (c₂ : Config) (v v' : World) (s₂ : Store) (i : FileNo), c₂.path = c.path →
        v.disk.Sound → v.disk.lookup c.path = .ok (.file i) →
        v.disk.content i = logBytes rs → openWith c₂ v = (.ok s₂, v') →
        s.index = s₂.index ∧ ∀ ts : List Turn, (∀ t ∈ ts, t.request.StaysAt c.path) →
          Turn.observe ts (some s) w' = Turn.observe ts (some s₂) v') := by
  obtain ⟨parent, name, hs⟩ := site_of_lookup hd hl
  have hp : Parts (w.disk.content no) rs (r.bytes.take n) _ :=
    ⟨hc, hfits, Record.decode_take hr hpos hn⟩
  constructor
  · intro hlooks
    rw [if_pos hlooks] at hp
    obtain ⟨w', herr, hlog, htorn⟩ := openWith_corrupt hs hp hm rfl
    exact ⟨_, _, w', herr, hc ▸ hlog, htorn⟩
  · intro hlooks
    rw [if_neg hlooks] at hp
    obtain ⟨w', hopen, hlog, -, hsaved⟩ := openWith_recovers hs hp hm rfl fun _ => hsave
    have hne : r.bytes.take n ≠ [] := by
      rw [← List.length_pos_iff, Record.length_take_bytes hn]
      exact hpos
    refine ⟨onLog c no rs, w', hopen, ?_, hsaved hne, get_lastOf hlog, ?_⟩
    · rw [bytesAt_file hlog.holds.lookup, hlog.holds.content]
    · intro c₂ v v' s₂ i hpath hdv hlv hcv hopen₂
      rw [← hpath] at hlv
      obtain ⟨rfl, hlog₂⟩ := openWith_ok_logBytes hdv hlv hcv hfits hopen₂
      refine ⟨rfl, fun ts hstay => ?_⟩
      rw [(Stands.opened rfl hlog).observe_eq hstay,
        (Stands.opened hpath (hpath ▸ hlog₂)).observe_eq hstay]

theorem openWith_torn_append_short : ∃ s w' s₂ v',
    openWith { path := ['a'] }
      (worldWithTail ['a'] (logBytes twoSets ++ cutSet) [9]) = (.ok s, w') ∧
    w'.disk.bytesAt ['a'] = .ok (logBytes twoSets) ∧
    w'.disk.bytesAt (Appender.tornPath ['a']) = .ok ([9] ++ cutSet) ∧
    s.get [1] w'.disk = .ok [3] ∧
    openWith { path := ['a'] } (worldOf ['a'] (logBytes twoSets)) = (.ok s₂, v') ∧
    s.index = s₂.index ∧
    Turn.observe [⟨0, none, .get [4]⟩, ⟨0, some 40, .set [4] [5, 6]⟩, ⟨0, none, .merge⟩]
        (some s) w' =
      Turn.observe [⟨0, none, .get [4]⟩, ⟨0, some 40, .set [4] [5, 6]⟩, ⟨0, none, .merge⟩]
        (some s₂) v' := by
  have hl : (worldWithTail ['a'] (logBytes twoSets ++ cutSet) [9]).disk.lookup
      ['a'] = .ok (.file 0) := rfl
  have hall := openWith_torn_append (c := { path := ['a'] }) (r := lastSet) (n := 18)
    (sound_worldWithTail ['a'] (by decide) [9]) hl rfl (by decide) (by decide) (by decide)
    (by decide) rfl rfl
  have hnot : ¬ lastSet.LooksDamaged 18 := by decide +kernel
  obtain ⟨s, w', hopen, hlog, hsaved, hget, hsame⟩ := hall.2 hnot
  have hd : (worldOf ['a'] (logBytes twoSets)).disk.Sound := sound_worldOf ['a'] (by decide)
  have hl₂ : (worldOf ['a'] (logBytes twoSets)).disk.lookup ['a'] = .ok (.file 0) := rfl
  obtain ⟨parent, name, hs⟩ := site_of_lookup hd hl₂
  have hp : Parts ((worldOf ['a'] (logBytes twoSets)).disk.content 0) twoSets [] .endOfLog :=
    .of_records (by decide)
  obtain ⟨v', hopen₂, -⟩ := openWith_recovers (c := { path := ['a'] }) hs hp rfl rfl
    fun hne => absurd rfl hne
  obtain ⟨hindex, hobserve⟩ := hsame { path := ['a'] } _ v' _ 0 rfl hd hl₂ rfl hopen₂
  exact ⟨s, w', _, v', hopen, hlog, hsaved, hget [1], hopen₂, hindex,
    hobserve _ (by simp [Request.StaysAt])⟩

def misleading : Record := ⟨1700000000, [0x6B], [0xB2, 0xDE, 0xF9, 0xF7]⟩

theorem torn_append_refused :
    misleading.Fits ∧ 17 < misleading.encodedLen ∧
    (worldOf ['d', 'b'] (misleading.bytes.take 17)).disk.Sound ∧
    (worldOf ['d', 'b'] (misleading.bytes.take 17)).disk.limit = none ∧
    (worldOf ['d', 'b'] (misleading.bytes.take 17)).disk.bytesAt ['d', 'b'] =
      .ok (misleading.bytes.take 17) ∧
    ((worldOf ['d', 'b'] (misleading.bytes.take 17)).disk.appendFile
      (Appender.tornPath ['d', 'b']) (misleading.bytes.take 17)).1 = .ok () ∧
    ∃ w', openWith { path := ['d', 'b'] } (worldOf ['d', 'b'] (misleading.bytes.take 17)) =
      (.error (.recoveryFailed (.corruptRecord 0xCBD53C7B 0x3E559ABB)), w') := by
  have hd : (worldOf ['d', 'b'] (misleading.bytes.take 17)).disk.Sound :=
    sound_worldOf _ (by decide)
  have hl : (worldOf ['d', 'b'] (misleading.bytes.take 17)).disk.lookup ['d', 'b'] =
      .ok (.file 0) := rfl
  have hstop : (Record.decode (misleading.bytes.take 17)).1 =
      .error (.corruptRecord 0xCBD53C7B 0x3E559ABB) := by decide +kernel
  have hp : Parts ((worldOf ['d', 'b'] (misleading.bytes.take 17)).disk.content 0) []
      (misleading.bytes.take 17) (.corruptRecord 0xCBD53C7B 0x3E559ABB) := ⟨rfl, by simp, hstop⟩
  obtain ⟨parent, name, hs⟩ := site_of_lookup hd hl
  obtain ⟨w', hopen, -⟩ := openWith_corrupt (c := { path := ['d', 'b'] }) hs hp rfl rfl
  exact ⟨by decide, by decide, hd, rfl, rfl, rfl, w', hopen⟩

end Store

end LogStore
