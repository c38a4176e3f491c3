import LogStore.Proofs.Record.Burst
import LogStore.Proofs.Store.Recovery

/-! A log in which a few adjacent bytes have changed. A replay gives the records before the damage
and stops at it; no store opens over such a log, and nothing is written. -/

namespace LogStore

open Disk

/-- Damage stops a replay, and the records before it stay added. -/
theorem Replay.recover_corrupt {d : Disk} {p : Path} {no : FileNo} {before : List Record}
    {t : Bytes} {x y : UInt32} (hl : d.lookup p = .ok (.file no))
    (hp : Parts (d.content no) before t (.corruptRecord x y)) (fileId : FileId) (ix : Index) :
    recover p fileId ix d = (.error (.corruptRecord x y), ix.after fileId 0 before) := by
  rw [recover_parts hl hp, Index.replay_positions]
  rfl

namespace Store

variable {c : Config} {w : World} {parent : List Name} {name : Name} {no : FileNo}

/-- A directory in the place of the merge file keeps a store from opening, before the log is
looked at. -/
theorem openWith_blocked (hs : Site w.disk c.path parent name no)
    (hm : w.disk.isDir c.mergePath = true) :
    openWith c w = (.error (.io .isDirectory), w.report (.removingStale c.mergePath)) :=
  (openWith_eq hs).trans (attach_error_of_stale (removeStale_isDirectory hm))

/-- Damage to four adjacent bytes or fewer of one field of a record, the lengths apart, is found,
whatever follows. A replay of the log gives the records before it. No store opens over the log:
the damage is told, unless a directory stands in the place of the merge file, which is told
first; and nothing is written. -/
theorem burst_found {r : Record} {a n : Nat} {b b' : Bytes} (hb : r.encode = .ok b)
    (h : Burst a n b b') (hn : n ≤ 4)
    (hwhere : a + n ≤ 4 ∨ (4 ≤ a ∧ a + n ≤ 8) ∨ 16 ≤ a) :
    ∃ x y, wordBytes x = b'.take 4 ∧ y ≠ x ∧
      (∀ s, ∃ rest, Record.decode (b' ++ s) = (.error (.corruptRecord x y), rest)) ∧
      (∀ (before : List Record) (s : Bytes) (d : Disk) (p : Path) (no : FileNo) (fileId : FileId)
        (ix : Index), (∀ q ∈ before, q.Fits) → d.lookup p = .ok (.file no) →
        d.content no = logBytes before ++ (b' ++ s) →
        Replay.recover p fileId ix d = (.error (.corruptRecord x y), ix.after fileId 0 before)) ∧
      ∀ (before : List Record) (s : Bytes) (c : Config) (w : World) (no : FileNo),
        (∀ q ∈ before, q.Fits) → w.disk.Sound → w.disk.lookup c.path = .ok (.file no) →
        w.disk.content no = logBytes before ++ (b' ++ s) →
        (w.disk.isDir c.mergePath = false →
          ∃ w', openWith c w = (.error (.recoveryFailed (.corruptRecord x y)), w') ∧
            Cleared w.disk w'.disk c.mergePath ∧
            w'.disk.bytesAt c.path = w.disk.bytesAt c.path ∧
            w'.disk.bytesAt (Appender.tornPath c.path) =
              w.disk.bytesAt (Appender.tornPath c.path)) ∧
        (w.disk.isDir c.mergePath = true →
          ∃ w', openWith c w = (.error (.io .isDirectory), w') ∧ w'.disk = w.disk) := by
  obtain ⟨hr, rfl⟩ := Record.encode_eq_ok_iff.mp hb
  obtain ⟨x, y, hx, hne, hdecode⟩ := Record.decode_burst hr h hn hwhere
  have hparts : ∀ before s, (∀ q ∈ before, q.Fits) →
      Parts (logBytes before ++ (b' ++ s)) before (b' ++ s) (.corruptRecord x y) := by
    intro before s hfits
    exact ⟨rfl, hfits, congrArg Prod.fst (hdecode s)⟩
  refine ⟨x, y, hx, hne, fun s => ⟨s, hdecode s⟩, ?_, ?_⟩
  · intro before s d p no fileId ix hfits hl hc
    exact Replay.recover_corrupt hl (hc ▸ hparts before s hfits) fileId ix
  · intro before s c w no hfits hd hl hc
    obtain ⟨parent, name, hs⟩ := site_of_lookup hd hl
    constructor
    · intro hm
      exact openWith_damaged hs (hc ▸ hparts before s hfits) hm rfl
    · intro hm
      exact ⟨_, openWith_blocked hs hm, rfl⟩

def marred : Bytes := (Record.bytes ⟨7, [1], [2]⟩).set 17 3

theorem burst_marred : Burst 17 1 (Record.bytes ⟨7, [1], [2]⟩) marred :=
  .set (by decide) (by decide)

def marredLog : World :=
  worldOf ['a'] (logBytes [⟨6, [1], [1]⟩] ++ (marred ++ logBytes [⟨8, [1], [4]⟩]))

theorem sound_marredLog : marredLog.disk.Sound := sound_worldOf ['a'] (by decide)

theorem burst_found_marred : Record.encode ⟨7, [1], [2]⟩ = .ok (Record.bytes ⟨7, [1], [2]⟩) ∧
    Burst 17 1 (Record.bytes ⟨7, [1], [2]⟩) marred ∧ marredLog.disk.Sound ∧ ∃ x y w', y ≠ x ∧
      Replay.recover ['a'] 0 ∅ marredLog.disk =
        (.error (.corruptRecord x y), Index.after 0 0 [⟨6, [1], [1]⟩] ∅) ∧
      openWith { path := ['a'] } marredLog =
        (.error (.recoveryFailed (.corruptRecord x y)), w') := by
  have hb : Record.encode ⟨7, [1], [2]⟩ = .ok (Record.bytes ⟨7, [1], [2]⟩) :=
    Record.encode_of_fits (by decide)
  obtain ⟨x, y, -, hne, -, hrecover, hopen⟩ :=
    burst_found hb burst_marred (by decide) (by decide)
  have hfits : ∀ q ∈ [(⟨6, [1], [1]⟩ : Record)], q.Fits := by decide
  obtain ⟨w', hw', -⟩ :=
    (hopen _ _ { path := ['a'] } marredLog 0 hfits sound_marredLog rfl rfl).1 rfl
  exact ⟨hb, burst_marred, sound_marredLog, x, y, w', hne,
    hrecover _ _ marredLog.disk ['a'] 0 0 ∅ hfits rfl rfl, hw'⟩

def marredBlocked : World :=
  { marredLog with disk := (createDirs "a.merge".toList marredLog.disk).2 }

theorem recovery_not_told : Record.encode ⟨7, [1], [2]⟩ = .ok (Record.bytes ⟨7, [1], [2]⟩) ∧
    Burst 17 1 (Record.bytes ⟨7, [1], [2]⟩) marred ∧ marredBlocked.disk.Sound ∧
    marredBlocked.disk.lookup ['a'] = .ok (.file 0) ∧ marredBlocked.disk.content 0 =
      logBytes [⟨6, [1], [1]⟩] ++ (marred ++ logBytes [⟨8, [1], [4]⟩]) ∧
    (openWith { path := ['a'] } marredBlocked).1 = .error (.io .isDirectory) ∧
    ¬ ∃ cause w', openWith { path := ['a'] } marredBlocked =
      (.error (.recoveryFailed cause), w') := by
  have hd : marredBlocked.disk.Sound := (moreDirs_createDirs _ _).sound sound_marredLog
  have hl : marredBlocked.disk.lookup ['a'] = .ok (.file 0) := by decide +kernel
  obtain ⟨parent, name, hs⟩ := site_of_lookup hd hl
  have hopen := openWith_blocked (c := { path := ['a'] }) hs (by decide +kernel)
  refine ⟨Record.encode_of_fits (by decide), burst_marred, hd, hl, rfl, by rw [hopen], ?_⟩
  rintro ⟨cause, w', htold⟩
  rw [hopen] at htold
  cases htold

end Store

end LogStore
