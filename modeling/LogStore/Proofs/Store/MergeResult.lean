import LogStore.Proofs.Log.Canonical
import LogStore.Proofs.Log.Live
import LogStore.Proofs.Store.Recovery
import LogStore.Proofs.Store.Sound

/-! What a merge that succeeds has done, for any store that any turns have led to. The new log
is the one canonical log of what was live, so it does not depend on how that came to be there,
and the old log was longer by just its dead records. -/

namespace LogStore

def StampPolicy.pick (now : UInt32) : StampPolicy → UInt32 → UInt32
  | .preserve, old => old
  | .refresh, _ => now

namespace Store

open Disk

variable {c : Config} {no : FileNo} {rs : List Record} {u v w w' : World} {s s' : Store}
  {slot : Option Store} {ts : List Turn} {p : Path}

def live (s : Store) (d : Disk) (key : Bytes) : Option (Bytes × UInt32) :=
  match s.index[key]?, s.get key d with
  | some e, .ok value => some (value, e.timestamp)
  | _, _ => none

theorem live_onLog (h : w.disk.LogAt c.path no rs) (key : Bytes) :
    (onLog c no rs).live w.disk key =
      (onLog c no rs).index[key]?.map fun e => (e.window (logBytes rs), e.timestamp) := by
  have hget := get_onLog h key
  rw [(Index.Shows.ofLog rs).same key] at hget
  unfold live
  cases he : (onLog c no rs).index[key]? with
  | none => rfl
  | some e =>
    have hentry : (Index.replay Config.activeFile ∅ (positions 0 rs))[key]? = some e := he
    rw [hentry] at hget
    rw [hget]
    rfl

/-- The last record of a key gives it both. -/
theorem live_onLog_eq_some_iff (h : w.disk.LogAt c.path no rs) {key value : Bytes}
    {stamp : UInt32} : (onLog c no rs).live w.disk key = some (value, stamp) ↔
      value ≠ [] ∧ lastOf key rs = some ⟨stamp, key, value⟩ := by
  rw [live_onLog h, Option.map_eq_some_iff]
  constructor
  · rintro ⟨e, he, heq⟩
    obtain ⟨hwindow, rfl⟩ := Prod.mk.inj heq
    obtain ⟨before, r, after, hrs, rfl, hvalue, hafter, rfl⟩ := Index.getElem?_replay_iff.mp he
    have hlast := lastOf_eq_some_iff.mpr ⟨before, after, hrs, rfl, hafter⟩
    obtain ⟨-, r', hr', hsame⟩ := index_onLog_lastOf he
    cases hlast.symm.trans hr'
    rw [← hwindow, hsame]
    exact ⟨hvalue, hlast⟩
  · rintro ⟨hvalue, hlast⟩
    obtain ⟨before, after, hrs, -, hafter⟩ := lastOf_eq_some_iff.mp hlast
    have he : (onLog c no rs).index[key]? = some _ :=
      Index.getElem?_replay_iff.mpr ⟨before, _, after, hrs, rfl, hvalue, hafter, rfl⟩
    obtain ⟨-, r', hr', hsame⟩ := index_onLog_lastOf he
    cases hlast.symm.trans hr'
    exact ⟨_, he, Prod.ext hsame rfl⟩

def copied (c : Config) (now : UInt32) (live : Bytes → Option (Bytes × UInt32)) (key : Bytes) :
    Option (Bytes × UInt32) :=
  (live key).map fun x => (x.1, c.stamps.pick now x.2)

theorem keys_merged (c : Config) (no : FileNo) (now : UInt32) (rs : List Record) :
    (merged c now rs).map Record.key = (onLog c no rs).index.keys := by
  rw [← Std.ExtTreeMap.map_fst_toList_eq_keys, merged, Compactor.copies, List.map_map]
  rfl

/-- A merge makes the canonical log of what is live. -/
theorem canonical_merged (h : w.disk.LogAt c.path no rs) (now : UInt32) :
    Canonical (copied c now ((onLog c no rs).live w.disk)) (merged c now rs) := by
  constructor
  · rw [keys_merged c no]
    exact (onLog c no rs).index.ordered_keys.imp compare_bytes_eq_lt.mp
  · intro r
    have hstamp : ∀ e : Entry, (blank c 0 now).stamp e = c.stamps.pick now e.timestamp := by
      intro e
      simp only [Compactor.stamp, blank]
      cases c.stamps <;> rfl
    rw [copied, live_onLog h, Option.map_map, Option.map_eq_some_iff, merged, Compactor.copies,
      List.mem_map]
    constructor
    · rintro ⟨x, hx, rfl⟩
      refine ⟨x.2, Std.ExtTreeMap.mem_toList_iff_getElem?_eq_some.mp hx, ?_⟩
      exact congrArg (Prod.mk _) (hstamp x.2).symm
    · rintro ⟨e, he, heq⟩
      obtain ⟨hvalue, hold⟩ : e.window (logBytes rs) = r.value ∧
          c.stamps.pick now e.timestamp = r.timestamp := Prod.mk.inj heq
      refine ⟨(r.key, e), Std.ExtTreeMap.mem_toList_iff_getElem?_eq_some.mpr he, ?_⟩
      rw [Compactor.copy, hstamp, hold, hvalue]

theorem copied_preserve (hc : c.stamps = .preserve) (now : UInt32)
    (live : Bytes → Option (Bytes × UInt32)) : copied c now live = live := by
  funext key
  rw [copied, hc]
  exact Option.map_id'

/-- A merge that keeps the timestamps keeps all that is live. -/
theorem live_merged {i : FileNo} (h : w.disk.LogAt c.path no rs) {now : UInt32}
    (h' : w'.disk.LogAt c.path i (merged c now rs)) (hc : c.stamps = .preserve) :
    (onLog c i (merged c now rs)).live w'.disk = (onLog c no rs).live w.disk := by
  have hcanonical := canonical_merged h now
  rw [copied_preserve hc] at hcanonical
  funext key
  apply Option.ext
  rintro ⟨value, stamp⟩
  rw [live_onLog_eq_some_iff h', hcanonical.lastOf_eq_some_iff, hcanonical.mem_iff]
  constructor
  · rintro ⟨-, hlive, -⟩
    exact hlive
  · intro hlive
    exact ⟨((live_onLog_eq_some_iff h).mp hlive).1, hlive, rfl⟩

/-- A merge that keeps the timestamps makes the same log when it is made again. -/
theorem merged_merged {i : FileNo} {now : UInt32} (h : w.disk.LogAt c.path no rs)
    (h' : w'.disk.LogAt c.path i (merged c now rs)) (hc : c.stamps = .preserve) (now' : UInt32) :
    merged c now' (merged c now rs) = merged c now rs := by
  have hfirst := canonical_merged h now
  have hsecond := canonical_merged h' now'
  rw [live_merged h h' hc, copied_preserve hc] at hsecond
  rw [copied_preserve hc] at hfirst
  exact hsecond.unique hfirst

/-- Opening asks for no store, so it may be at another path each time. -/
theorem ready_run (h : ∃ p, Ready p slot w) (hd : w.disk.Sound) (t : Turn) :
    ∃ p, Ready p (t.run slot w).2.1 (t.run slot w).2.2 := by
  by_cases hopen : ∃ c, t.request = .openWith c
  · obtain ⟨c, hc⟩ := hopen
    have hstay : t.request.StaysAt c.path := by
      rw [hc]
      exact rfl
    have hsame : t.run slot w = t.run none w := by
      unfold Turn.run
      rw [hc]
      rfl
    have hnone : Ready c.path none w := .inl rfl
    rw [hsame]
    exact ⟨c.path, hnone.run hd hstay⟩
  · obtain ⟨p, hp⟩ := h
    have hstay : t.request.StaysAt p := by
      cases hr : t.request with
      | openWith c => exact absurd ⟨c, hr⟩ hopen
      | drop | get | set | delete | merge | close | logSize => trivial
    exact ⟨p, hp.run hd hstay⟩

theorem ready_runAll (h : ∃ p, Ready p slot w) (hd : w.disk.Sound) (ts : List Turn) :
    ∃ p, Ready p (Turn.runAll ts slot w).1 (Turn.runAll ts slot w).2 := by
  induction ts generalizing slot w with
  | nil => exact h
  | cons t ts ih => exact ih (ready_run h hd t) (sound_run _ _ (hd.withLimit _))

theorem merge_done (h : w.disk.LogAt c.path no rs)
    (hm : (onLog c no rs).merge w = (.ok (), s', w')) :
    (Contents.ofLog rs).liveBytes ≤ ceiling w.disk.limit ∧ c.mergePath.tooLong = false ∧
      ∃ i, s' = onLog c i (merged c w.now rs) ∧ w'.disk.LogAt c.path i (merged c w.now rs) := by
  cases hl : c.mergePath.tooLong with
  | true =>
    obtain ⟨v, hfail, -⟩ := merge_tooLong h hl
    cases hm.symm.trans hfail
  | false =>
    rcases merge_onLog h hl with ⟨hle, i, d, hok, hlog⟩ | ⟨-, d, hfail, -⟩
    · cases hm.symm.trans hok
      exact ⟨hle, rfl, i, rfl, hlog⟩
    · cases hm.symm.trans hfail

/-- A merge that makes the same log again does so if it succeeds or not. -/
theorem merge_same (h : w.disk.LogAt c.path no rs) (hname : c.mergePath.tooLong = false)
    (hsame : merged c w.now rs = rs) :
    ((onLog c no rs).merge w).2.2.disk.bytesAt c.path = .ok (logBytes rs) ∧
      ((logBytes rs).length ≤ ceiling w.disk.limit → ((onLog c no rs).merge w).1 = .ok ()) := by
  have hlength := length_merged c w.now rs
  rw [hsame] at hlength
  rcases merge_onLog h hname with ⟨hle, i, d, hok, hlog⟩ | ⟨hlt, d, hfail, hlog⟩
  · rw [hsame] at hlog
    rw [hok]
    exact ⟨hlog.bytesAt_eq, fun _ => rfl⟩
  · rw [hfail]
    exact ⟨hlog.bytesAt_eq, fun hle => absurd hle (by omega)⟩

/-- The store that merges, after any turns, stands over its log before and after it. -/
theorem merge_runAll {t : Turn} (hd : u.disk.Sound) (hrun : Turn.runAll ts none u = (some s, v))
    (hm : s.merge (t.enter v) = (.ok (), s', w)) :
    ∃ c no rs i, s = onLog c no rs ∧ v.disk.LogAt c.path no rs ∧ c.mergePath.tooLong = false ∧
      (Contents.ofLog rs).liveBytes ≤ ceiling t.limit ∧
      s' = onLog c i (merged c (t.enter v).now rs) ∧
      w.disk.LogAt c.path i (merged c (t.enter v).now rs) := by
  obtain ⟨p, hready⟩ := ready_runAll ⟨[], .inl rfl⟩ hd ts
  rw [hrun] at hready
  obtain ⟨m, hstands⟩ := hready.resolve_left (Option.some_ne_none s)
  cases hstands with
  | closed => cases hm
  | @opened c no rs _ hc hlog =>
    subst hc
    have hentered : (t.enter v).disk.LogAt c.path no rs := hlog.withLimit t.limit
    obtain ⟨hle, hname, i, hs', hlog'⟩ := merge_done hentered hm
    exact ⟨c, no, rs, i, rfl, hlog, hname, hle, hs', hlog'⟩

theorem getElem?_index_canonical {live : Bytes → Option (Bytes × UInt32)}
    (h : Canonical live rs) (hvalues : ∀ r ∈ rs, r.value ≠ []) {key : Bytes} {e : Entry} :
    (onLog c no rs).index[key]? = some e ↔ ∃ before r after, rs = before ++ r :: after ∧
      r.key = key ∧ e = (⟨(logBytes before).length, r⟩ : Positioned).entry Config.activeFile := by
  refine Index.getElem?_replay_iff.trans ?_
  constructor
  · rintro ⟨before, r, after, heq, hkey, -, -, he⟩
    exact ⟨before, r, after, heq, hkey, he⟩
  · rintro ⟨before, r, after, heq, rfl, he⟩
    subst heq
    exact ⟨before, r, after, rfl, rfl, hvalues r (by simp), fun x hx => h.key_ne hx, he⟩

theorem retarget_merged (h : w.disk.LogAt c.path no rs) (hname : c.mergePath.tooLong = false)
    (hle : (Contents.ofLog rs).liveBytes ≤ ceiling w.disk.limit) (i : FileNo) :
    ∃ out v', (onLog c no rs).writeMerged w = (.ok out, v') ∧
      Index.retarget out.moves (onLog c no rs).index =
        ((onLog c no rs).keyCount, (onLog c i (merged c w.now rs)).index) := by
  obtain ⟨_, _, j, d, -, -, ⟨hwrite, -⟩ | ⟨-, hlt⟩⟩ := writeMerged_spec h hname
  · exact ⟨_, _, hwrite, Compactor.retarget_movesFrom (blank c j _) fun x hx => inside_live hx⟩
  · rw [length_merged] at hlt
    exact absurd hle (Nat.not_le.mpr hlt)

theorem append_onLog (h : w.disk.LogAt c.path no rs) :
    ∃ a, (onLog c no rs).appender = some a ∧ ∀ (t : Turn) r landing a' w',
      a.append r (t.enter w) = (.ok landing, a', w') →
        landing.offset = (logBytes rs).length ∧
        w'.disk.bytesAt c.path = .ok (logBytes rs ++ r.bytes) := by
  refine ⟨_, rfl, fun t r landing a' w' happend => ?_⟩
  have hentered := h.holds.withLimit t.limit
  obtain ⟨hoffset, hh⟩ := Appender.append_landed (w := t.enter w) hentered happend
  rw [bytesAt_file hh.lookup, hh.content]
  exact ⟨hoffset, rfl⟩

/-- A merge takes the dead records out of the log, and nothing more: the log is shorter by
their lengths. So it never grows, and it stays as long as it is just if nothing in it is dead:
no tombstone, whether its key was ever set or not, and no value that comes before another
record of its key. -/
theorem merge_reclaims_dead {t : Turn} (hd : u.disk.Sound)
    (hrun : Turn.runAll ts none u = (some s, v))
    (hm : s.merge (t.enter v) = (.ok (), s', w)) :
    ∃ bs rs before after, v.disk.bytesAt s.config.path = .ok bs ∧ Parts bs rs [] .endOfLog ∧
      s.logSize v.disk = .ok before ∧ s'.logSize w.disk = .ok after ∧
      after = before - ((deadRecords rs).map Record.encodedLen).sum ∧
      ((deadRecords rs).map Record.encodedLen).sum ≤ before ∧ after ≤ before ∧
      (after < before ↔ ∃ front r rest, rs = front ++ r :: rest ∧
        (r.value = [] ∨ ∃ x ∈ rest, x.key = r.key)) := by
  obtain ⟨c, no, rs, i, rfl, hlog, -, -, rfl, hlog'⟩ := merge_runAll hd hrun hm
  have hlength := length_logBytes_eq rs
  refine ⟨logBytes rs, rs, (logBytes rs).length, (Contents.ofLog rs).liveBytes,
    hlog.bytesAt_eq, .of_records hlog.fits, logSize_onLog hlog, ?_, ?_, ?_, ?_, liveBytes_lt_iff⟩
  · rw [logSize_onLog hlog', length_merged]
  · omega
  · omega
  · omega

/-- The first of two values of a key goes. -/
theorem merge_reclaims_dead_overwrite : ∃ s v s' w,
    Turn.runAll [⟨0, none, .openWith { path := ['a'] }⟩, ⟨0, none, .set [1] [2]⟩,
      ⟨0, none, .set [1] [3]⟩] none (World.empty 0) = (some s, v) ∧
    s.merge (Turn.enter ⟨0, none, .merge⟩ v) = (.ok (), s', w) ∧
    ∃ before after, s.logSize v.disk = .ok before ∧ s'.logSize w.disk = .ok after ∧
      after < before := by
  obtain ⟨s, v, s', w, hrun, hm, hbytes⟩ : ∃ s v s' w,
      Turn.runAll [⟨0, none, .openWith { path := ['a'] }⟩, ⟨0, none, .set [1] [2]⟩,
        ⟨0, none, .set [1] [3]⟩] none (World.empty 0) = (some s, v) ∧
      s.merge (Turn.enter ⟨0, none, .merge⟩ v) = (.ok (), s', w) ∧
      v.disk.bytesAt s.config.path = .ok (logBytes [⟨0, [1], [2]⟩, ⟨0, [1], [3]⟩]) :=
    ⟨_, _, _, _, rfl, rfl, rfl⟩
  obtain ⟨bs, rs, before, after, hfile, hp, hbefore, hafter, -, -, -, hless⟩ :=
    merge_reclaims_dead Sound.empty hrun hm
  cases hfile.symm.trans hbytes
  obtain ⟨rfl, -⟩ := hp.unique (.of_records (by simp; decide))
  exact ⟨s, v, s', w, hrun, hm, before, after, hbefore, hafter,
    hless.mpr ⟨[], _, _, rfl, .inr ⟨_, List.mem_cons_self, rfl⟩⟩⟩

/-- A merge writes the one canonical log of what is live: for each live key, in the order of the
keys, its value, under its old timestamp or that of the merge. Nothing stands beside that log, and
the index points at the values in it, all of whose entries have been moved there. Where
timestamps are kept, the bytes of the log depend on keys, values and timestamps alone, so
merging again does not change them. -/
theorem merge_writes_canonical {t : Turn} (hd : u.disk.Sound)
    (hrun : Turn.runAll ts none u = (some s, v))
    (hm : s.merge (t.enter v) = (.ok (), s', w)) :
    ∃ rs, w.disk.bytesAt s.config.path = .ok (logBytes rs) ∧
      (∀ r ∈ rs, r.encode = .ok r.bytes) ∧ (∀ r ∈ rs, r.value ≠ []) ∧
      rs.map Record.key = s.index.keys ∧
      Canonical (copied s.config (t.enter v).now (s.live v.disk)) rs ∧
      w.disk.exists? s.config.mergePath = false ∧
      (∀ key e, s'.index[key]? = some e ↔ ∃ before r after, rs = before ++ r :: after ∧
        r.key = key ∧ e = (⟨(logBytes before).length, r⟩ : Positioned).entry Config.activeFile) ∧
      (∃ out v', s.writeMerged (t.enter v) = (.ok out, v') ∧
        Index.retarget out.moves s.index = (s.keyCount, s'.index)) ∧
      (∃ a, s'.appender = some a ∧ ∀ (t' : Turn) r landing a' w',
        a.append r (t'.enter w) = (.ok landing, a', w') →
          landing.offset = (logBytes rs).length ∧
          w'.disk.bytesAt s.config.path = .ok (logBytes rs ++ r.bytes)) ∧
      (s.config.stamps = .preserve →
        (∀ t' : Turn, (s'.merge (t'.enter w)).2.2.disk.bytesAt s.config.path =
            .ok (logBytes rs) ∧
          ((logBytes rs).length ≤ ceiling t'.limit → (s'.merge (t'.enter w)).1 = .ok ())) ∧
        ∀ (u₂ : World) (ts₂ : List Turn) (t₂ : Turn) s₂ v₂ s₂' w₂, u₂.disk.Sound →
          Turn.runAll ts₂ none u₂ = (some s₂, v₂) →
          s₂.merge (t₂.enter v₂) = (.ok (), s₂', w₂) → s₂.config.stamps = .preserve →
          s₂.live v₂.disk = s.live v.disk →
          w₂.disk.bytesAt s₂.config.path = .ok (logBytes rs)) := by
  obtain ⟨c, no, rs, i, rfl, hlog, hname, hle, rfl, hlog'⟩ := merge_runAll hd hrun hm
  have hcanonical := canonical_merged hlog (t.enter v).now
  have hvalues : ∀ r ∈ merged c (t.enter v).now rs, r.value ≠ [] :=
    fun r hr => Compactor.copies_value_ne (fun x hx => inside_live hx) hr
  refine ⟨merged c (t.enter v).now rs, hlog'.bytesAt_eq,
    fun r hr => Record.encode_of_fits (hlog'.fits r hr), hvalues, keys_merged c no _ rs,
    hcanonical, hlog'.quiet, fun key e => getElem?_index_canonical hcanonical hvalues,
    retarget_merged (hlog.withLimit t.limit) hname hle i, append_onLog hlog', fun hstamps => ?_⟩
  have hkept : c.stamps = .preserve := hstamps
  refine ⟨fun t' => ?_, fun u₂ ts₂ t₂ s₂ v₂ s₂' w₂ hd₂ hrun₂ hm₂ hstamps₂ hlive => ?_⟩
  · have hsame := merged_merged hlog hlog' hkept (t'.enter w).now
    exact merge_same (hlog'.withLimit t'.limit) hname hsame
  · obtain ⟨c₂, no₂, rs₂, i₂, rfl, hlog₂, -, -, rfl, hlog₂'⟩ := merge_runAll hd₂ hrun₂ hm₂
    have hkept₂ : c₂.stamps = .preserve := hstamps₂
    have hcanonical₂ := canonical_merged hlog₂ (t₂.enter v₂).now
    rw [copied_preserve hkept₂, hlive] at hcanonical₂
    rw [copied_preserve hkept] at hcanonical
    rw [← hcanonical₂.unique hcanonical]
    exact hlog₂'.bytesAt_eq

/-- Two keys change places, and then they stay. -/
theorem merge_writes_canonical_two : ∃ s v s' w,
    Turn.runAll [⟨0, none, .openWith { path := ['a'] }⟩, ⟨0, none, .set [2] [7]⟩,
      ⟨4, none, .set [1] [3]⟩] none (World.empty 0) = (some s, v) ∧
    s.merge (Turn.enter ⟨9, none, .merge⟩ v) = (.ok (), s', w) ∧
    v.disk.bytesAt ['a'] = .ok (logBytes [⟨0, [2], [7]⟩, ⟨4, [1], [3]⟩]) ∧
    w.disk.bytesAt ['a'] = .ok (logBytes [⟨4, [1], [3]⟩, ⟨0, [2], [7]⟩]) ∧
    (s'.merge (Turn.enter ⟨11, none, .merge⟩ w)).2.2.disk.bytesAt ['a'] =
      w.disk.bytesAt ['a'] := by
  obtain ⟨s, v, s', w, hrun, hm, hpath, hstamps, hbefore, hafter⟩ : ∃ s v s' w,
      Turn.runAll [⟨0, none, .openWith { path := ['a'] }⟩, ⟨0, none, .set [2] [7]⟩,
        ⟨4, none, .set [1] [3]⟩] none (World.empty 0) = (some s, v) ∧
      s.merge (Turn.enter ⟨9, none, .merge⟩ v) = (.ok (), s', w) ∧
      s.config.path = ['a'] ∧ s.config.stamps = .preserve ∧
      v.disk.bytesAt ['a'] = .ok (logBytes [⟨0, [2], [7]⟩, ⟨4, [1], [3]⟩]) ∧
      w.disk.bytesAt ['a'] = .ok (logBytes [⟨4, [1], [3]⟩, ⟨0, [2], [7]⟩]) :=
    ⟨_, _, _, _, rfl, rfl, rfl, rfl, rfl, rfl⟩
  obtain ⟨rs, hfile, -, -, -, -, -, -, -, -, hkept⟩ := merge_writes_canonical Sound.empty hrun hm
  obtain ⟨hagain, -⟩ := (hkept hstamps).1 ⟨11, none, .merge⟩
  rw [hpath] at hfile hagain
  exact ⟨s, v, s', w, hrun, hm, hbefore, hafter, hagain.trans hfile.symm⟩

end Store

end LogStore
