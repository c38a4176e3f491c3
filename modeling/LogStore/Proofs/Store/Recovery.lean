import LogStore.Proofs.Disk.Sound
import LogStore.Proofs.Store.Ideal

/-! What opening makes of any bytes, and that what it makes stays so: at all times the file
holds the records that the open store knows of, and nothing else. An append that was broken
off costs no more than itself, but for one case, in which opening takes it for damage. -/

namespace LogStore.Store

open Disk

variable {c : Config} {w w' : World} {no : FileNo} {bs t : Bytes} {rs : List Record} {e : Error}
  {parent : List Name} {name : Name}

theorem get_lastOf (h : w.disk.LogAt c.path no rs) (key : Bytes) :
    (onLog c no rs).get key w.disk =
      (match lastOf key rs with
        | some r => if r.value = [] then .error .keyNotFound else .ok r.value
        | none => .error .keyNotFound) := by
  rw [get_onLog h, Contents.bytesOf?_ofLog]
  cases lastOf key rs with
  | none => rfl
  | some r => by_cases hv : r.value = [] <;> simp [hv]

theorem attach_error (hs : Site w.disk c.path parent name no) {cause : Error}
    (h : attach c w = (.error cause, w')) :
    w'.disk.bytesAt c.path = .ok (w.disk.content no) ∧
      ∀ old, w.disk.bytesAt (c.path.beside ".torn") = .ok old →
        ∃ more, w'.disk.bytesAt (c.path.beside ".torn") = .ok (old ++ more) := by
  obtain ⟨hheld, htorn⟩ := attach_refused hs h
  exact ⟨by rw [bytesAt_file hheld.lookup, hheld.content], htorn⟩

/-- Damage keeps a store from opening, and at most a stale merge file has gone. -/
theorem openWith_damaged (hs : Site w.disk c.path parent name no)
    (hp : Parts (w.disk.content no) rs t e) (hm : w.disk.isDir c.mergePath = false)
    (he : e.isEndOfLog = false) :
    ∃ w', openWith c w = (.error (.recoveryFailed e), w') ∧
      Cleared w.disk w'.disk c.mergePath ∧ w'.disk.bytesAt c.path = w.disk.bytesAt c.path ∧
      w'.disk.bytesAt (c.path.beside ".torn") = w.disk.bytesAt (c.path.beside ".torn") := by
  obtain ⟨w', herr, hcl⟩ := attach_corrupt hs hp hm he
  refine ⟨w', (openWith_eq hs).trans herr, hcl, ?_,
    (hcl.sameBeside hs isEnding_torn (by decide)).2⟩
  rw [bytesAt_file (hcl.site hs).lookup_eq, bytesAt_file hs.lookup_eq, hcl.content_eq]

theorem openWith_corrupt (hs : Site w.disk c.path parent name no)
    (hp : Parts (w.disk.content no) rs t e) (hm : w.disk.isDir c.mergePath = false)
    (he : e.isEndOfLog = false) :
    ∃ w', openWith c w = (.error (.recoveryFailed e), w') ∧
      w'.disk.bytesAt c.path = .ok (w.disk.content no) ∧
      w'.disk.bytesAt (c.path.beside ".torn") = w.disk.bytesAt (c.path.beside ".torn") := by
  obtain ⟨w', herr, -, hbytes, htorn⟩ := openWith_damaged hs hp hm he
  exact ⟨w', herr, hbytes.trans (bytesAt_file hs.lookup_eq), htorn⟩

/-- Everything else is opened, and what is no record is saved from the log first. -/
theorem openWith_recovers (hs : Site w.disk c.path parent name no)
    (hp : Parts (w.disk.content no) rs t e) (hm : w.disk.isDir c.mergePath = false)
    (he : e.isEndOfLog = true)
    (hsave : t ≠ [] → (w.disk.appendFile (c.path.beside ".torn") t).1 = .ok ()) :
    ∃ w', openWith c w = (.ok (onLog c no rs), w') ∧ w'.disk.LogAt c.path no rs ∧
      (t = [] → w'.disk.bytesAt (c.path.beside ".torn") =
        w.disk.bytesAt (c.path.beside ".torn")) ∧
      (t ≠ [] → w'.disk.bytesAt (c.path.beside ".torn") =
        .ok (w.disk.found (c.path.beside ".torn") ++ t)) := by
  rw [openWith_eq hs]
  obtain ⟨w', hall | ⟨cause, ht, herr, -⟩⟩ := attach_recovers hs hp hm he
  · exact ⟨w', hall⟩
  · obtain ⟨d, happend, -⟩ := hs.appendFile_beside isEnding_torn ht
    have hout := hsave ht
    rw [happend] at hout
    cases hout.symm.trans herr

/-- What opening does with any bytes at the path of the log. They fall into records and a
tail. A damaged tail keeps the store from opening, and nothing changes; with any other the
store opens, and the log ends with its last record, the tail having been saved. Where
opening fails, for whatever reason, no byte is lost. -/
theorem openWith_of_bytes (hd : w.disk.Sound) (hl : w.disk.lookup c.path = .ok (.file no))
    (hb : w.disk.content no = bs) :
    (∃ rs t e, Parts bs rs t e) ∧ ∀ rs t e, Parts bs rs t e →
      (w.disk.isDir c.mergePath = false → (∃ x y, e = .corruptRecord x y) →
        ∃ w', openWith c w = (.error (.recoveryFailed e), w') ∧
          w'.disk.bytesAt c.path = .ok bs ∧
          w'.disk.bytesAt (Appender.tornPath c.path) =
            w.disk.bytesAt (Appender.tornPath c.path)) ∧
      (w.disk.isDir c.mergePath = false → (¬ ∃ x y, e = .corruptRecord x y) →
        (t ≠ [] → (w.disk.appendFile (Appender.tornPath c.path) t).1 = .ok ()) →
        ∃ s w', openWith c w = (.ok s, w') ∧
          w'.disk.bytesAt c.path = .ok (logBytes rs) ∧
          (t = [] → w'.disk.bytesAt (Appender.tornPath c.path) =
            w.disk.bytesAt (Appender.tornPath c.path)) ∧
          (t ≠ [] → w'.disk.bytesAt (Appender.tornPath c.path) =
            .ok (w.disk.found (Appender.tornPath c.path) ++ t)) ∧
          (∀ key, s.get key w'.disk =
            match lastOf key rs with
            | some r => if r.value = [] then .error .keyNotFound else .ok r.value
            | none => .error .keyNotFound) ∧
          ∀ (c₂ : Config) (w₂ : World), c₂.path = c.path → w₂.disk = w'.disk →
            ∃ s₂ w₃, openWith c₂ w₂ = (.ok s₂, w₃) ∧ w₃.disk = w'.disk ∧ s₂.index = s.index) ∧
      ∀ cause w', openWith c w = (.error cause, w') →
        w'.disk.bytesAt c.path = .ok bs ∧
          ∀ old, w.disk.bytesAt (Appender.tornPath c.path) = .ok old →
            ∃ more, w'.disk.bytesAt (Appender.tornPath c.path) = .ok (old ++ more) := by
  obtain ⟨parent, name, hs⟩ := site_of_lookup hd hl
  subst hb
  refine ⟨exists_parts _, fun rs t e hp => ⟨?_, ?_, ?_⟩⟩
  · rintro hm ⟨x, y, rfl⟩
    exact openWith_corrupt hs hp hm rfl
  · intro hm hnot hsave
    have he : e.isEndOfLog = true := by
      rcases Record.decode_error hp.stop with ⟨-, rfl⟩ | ⟨-, _, _, rfl⟩ | ⟨-, x, y, rfl⟩
      · rfl
      · rfl
      · exact absurd ⟨x, y, rfl⟩ hnot
    obtain ⟨w', hopen, hlog, hclean, hsaved⟩ := openWith_recovers hs hp hm he hsave
    refine ⟨onLog c no rs, w', hopen, ?_, hclean, hsaved, get_lastOf hlog, ?_⟩
    · rw [bytesAt_file hlog.holds.lookup, hlog.holds.content]
    · intro c₂ w₂ hpath hdisk
      have hlog₂ : w₂.disk.LogAt c₂.path no rs := by rwa [hdisk, hpath]
      obtain ⟨w₃, hopen₂, hdisk₃⟩ := openWith_logAt hlog₂
      exact ⟨_, w₃, hopen₂, hdisk₃.trans hdisk, rfl⟩
  · intro cause w' herr
    exact attach_error hs ((openWith_eq hs).symm.trans herr)

def worldOf (name : Name) (bs : Bytes) : World :=
  ⟨(Disk.empty.create [] name).2.setContent 0 bs, 0, []⟩

theorem sound_worldOf (name : Name) {bs : Bytes} (h : bs.length ≤ largest) :
    (worldOf name bs).disk.Sound :=
  (Sound.empty.create [] name).of_only (.setContent (Nat.le_trans h (Nat.le_max_left ..)))

def worldWithTail (name : Name) (bs tail : Bytes) : World :=
  { worldOf name bs with
    disk := ((worldOf name bs).disk.putFile (Appender.tornPath name) tail).2 }

theorem sound_worldWithTail (name : Name) {bs : Bytes} (h : bs.length ≤ largest) (tail : Bytes) :
    (worldWithTail name bs tail).disk.Sound :=
  (sound_worldOf name h).putFile _ _

def twoSets : List Record := [⟨5, [1], [2]⟩, ⟨6, [1], [3]⟩]

def lastSet : Record := ⟨7, [4], [5, 6]⟩

def cutSet : Bytes := lastSet.bytes.take 18

theorem openWith_of_bytes_torn : ∃ s w',
    (worldWithTail ['a'] (logBytes twoSets ++ cutSet) [9]).disk.bytesAt
      (Appender.tornPath ['a']) = .ok [9] ∧
    openWith { path := ['a'] } (worldWithTail ['a'] (logBytes twoSets ++ cutSet) [9]) =
      (.ok s, w') ∧
    w'.disk.bytesAt ['a'] = .ok (logBytes twoSets) ∧
    w'.disk.bytesAt (Appender.tornPath ['a']) = .ok ([9] ++ cutSet) ∧
    s.get [1] w'.disk = .ok [3] ∧ s.get [4] w'.disk = .error .keyNotFound ∧
    ∃ s₂ w₂, openWith { path := ['a'] } w' = (.ok s₂, w₂) ∧ w₂.disk = w'.disk ∧
      s₂.index = s.index := by
  have hstop : (Record.decode cutSet).1 = .error (.truncatedRecord 19 18) := by decide +kernel
  have hp : Parts (logBytes twoSets ++ cutSet) twoSets cutSet (.truncatedRecord 19 18) :=
    ⟨rfl, by decide, hstop⟩
  have hl : (worldWithTail ['a'] (logBytes twoSets ++ cutSet) [9]).disk.lookup ['a'] =
      .ok (.file 0) := rfl
  have hall := (openWith_of_bytes (c := { path := ['a'] })
    (sound_worldWithTail ['a'] (by decide) [9]) hl rfl).2 _ _ _ hp
  obtain ⟨s, w', hopen, hlog, -, hsaved, hget, hagain⟩ := hall.2.1 rfl nofun fun _ => rfl
  exact ⟨s, w', rfl, hopen, hlog, hsaved (by decide), hget [1], hget [4],
    hagain { path := ['a'] } w' rfl rfl⟩

/-- A replay of the file gives the index of the store over it. -/
theorem recover_onLog (h : w.disk.LogAt c.path no rs) :
    ∃ found, Replay.recover c.path Config.activeFile ∅ w.disk = (.ok found, (onLog c no rs).index) ∧
      found.validLen = (logBytes rs).length ∧ found.fileLen = (logBytes rs).length := by
  exact ⟨_, Replay.recover_eq h.holds (.of_records h.fits) Config.activeFile ∅, rfl, rfl⟩

theorem index_onLog_lastOf {key : Bytes} {x : Entry}
    (hx : (onLog c no rs).index[key]? = some x) :
    x.Inside (logBytes rs) ∧ ∃ r, lastOf key rs = some r ∧ x.window (logBytes rs) = r.value := by
  have hshow := Index.Shows.ofLog rs
  have hsame := hshow.same key
  rw [show (Index.replay Config.activeFile ∅ (positions 0 rs))[key]? = some x from hx,
    Option.map_some, Contents.bytesOf?_ofLog] at hsame
  obtain ⟨r, hr, hv⟩ := Option.bind_eq_some_iff.mp hsame
  refine ⟨hshow.inside hx, r, hr, ?_⟩
  split at hv
  · cases hv
  · exact (Option.some.inj hv).symm

theorem set_done {key value : Bytes} {s : Store} (h : w.disk.LogAt c.path no rs)
    (hset : (onLog c no rs).set key value w = (.ok (), s, w')) :
    ∃ rs', s = onLog c no rs' ∧ w'.disk.LogAt c.path no rs' ∧
      (Contents.ofLog rs').bytesOf? key = some value := by
  rcases set_onLog h key value with ⟨e, d, hfail, -⟩ | ⟨hv, d, hok, hlog⟩
  · cases hset.symm.trans hfail
  · cases hset.symm.trans hok
    refine ⟨_, rfl, hlog, ?_⟩
    rw [Contents.ofLog_append, List.foldl_cons, List.foldl_nil, Contents.bytesOf?_apply,
      if_pos rfl, if_neg hv]

theorem delete_done {key : Bytes} {s : Store} (h : w.disk.LogAt c.path no rs)
    (hdelete : (onLog c no rs).delete key w = (.ok (), s, w')) :
    ∃ rs', s = onLog c no rs' ∧ w'.disk.LogAt c.path no rs' ∧
      (Contents.ofLog rs').bytesOf? key = none := by
  rcases delete_onLog h key with ⟨e, d, hfail, -⟩ | ⟨d, hok, hlog⟩
  · cases hdelete.symm.trans hfail
  · cases hdelete.symm.trans hok
    refine ⟨_, rfl, hlog, ?_⟩
    rw [Contents.ofLog_append, List.foldl_cons, List.foldl_nil, Contents.bytesOf?_apply]
    simp [Record.tombstone]

/-- At all times the file tells what the open store knows: it holds whole records and
nothing else, its length is where the next append goes, the store reads and writes this
very file, and a replay gives the index of the store, in which each entry points at the last
value of its key. So a write that has succeeded is there to be recovered. -/
theorem recover_eq_index {s₀ s : Store} {w₀ : World} {ts : List Turn} (hd : w.disk.Sound)
    (hopen : openWith c w = (.ok s₀, w₀)) (hstay : ∀ t ∈ ts, t.request.StaysAt c.path)
    (hrun : Turn.runAll ts (some s₀) w₀ = (some s, w')) (hopened : s.isClosed = false) :
    ∃ no rs, (∀ r ∈ rs, r.Fits) ∧ w'.disk.lookup c.path = .ok (.file no) ∧
      w'.disk.content no = logBytes rs ∧
      s.appender = some ⟨no, Config.activeFile, (logBytes rs).length⟩ ∧
      s.logSize w'.disk = .ok (logBytes rs).length ∧
      s.segments = Segments.single ⟨Config.activeFile, .file no⟩ ∧
      (∃ found, Replay.recover c.path Config.activeFile ∅ w'.disk = (.ok found, s.index) ∧
        found.validLen = (logBytes rs).length ∧ found.fileLen = (logBytes rs).length) ∧
      (∀ key x, s.index[key]? = some x → x.valueSize ≠ 0 ∧ ∃ r, lastOf key rs = some r ∧
        ((logBytes rs).drop x.valuePos).take x.valueSize = r.value) ∧
      (∀ key value s₁ w₁, s.set key value w' = (.ok (), s₁, w₁) →
        ∃ found bs x, Replay.recover c.path Config.activeFile ∅ w₁.disk = (.ok found, s₁.index) ∧
          w₁.disk.bytesAt c.path = .ok bs ∧ s₁.index[key]? = some x ∧
          (bs.drop x.valuePos).take x.valueSize = value) ∧
      ∀ key s₁ w₁, s.delete key w' = (.ok (), s₁, w₁) →
        ∃ found, Replay.recover c.path Config.activeFile ∅ w₁.disk = (.ok found, s₁.index) ∧
          s₁.index[key]? = none := by
  obtain ⟨no₀, rs₀, t, e, -, rfl, hlog₀⟩ := openWith_ok hd hopen
  obtain ⟨m, hstands⟩ := (Stands.opened rfl hlog₀).runAll hstay
  rw [hrun] at hstands
  cases hstands with
  | closed => cases hopened
  | @opened c' no rs _ hc hlog =>
    rw [← hc] at hlog ⊢
    refine ⟨no, rs, hlog.fits, hlog.holds.lookup, hlog.holds.content, rfl, logSize_onLog hlog, rfl,
      recover_onLog hlog, fun key x hx => ?_, fun key value s₁ w₁ hset => ?_,
      fun key s₁ w₁ hdelete => ?_⟩
    · obtain ⟨hin, hlast⟩ := index_onLog_lastOf hx
      exact ⟨Nat.pos_iff_ne_zero.mp hin.pos, hlast⟩
    · obtain ⟨rs', rfl, hlog', hvalue⟩ := set_done hlog hset
      obtain ⟨found, hfound, -⟩ := recover_onLog hlog'
      rw [(Index.Shows.ofLog rs').same, Option.map_eq_some_iff] at hvalue
      obtain ⟨x, hx, hwindow⟩ := hvalue
      refine ⟨found, logBytes rs', x, hfound, ?_, hx, hwindow⟩
      rw [bytesAt_file hlog'.holds.lookup, hlog'.holds.content]
    · obtain ⟨rs', rfl, hlog', hnone⟩ := delete_done hlog hdelete
      obtain ⟨found, hfound, -⟩ := recover_onLog hlog'
      rw [(Index.Shows.ofLog rs').same, Option.map_eq_none_iff] at hnone
      exact ⟨found, hfound, hnone⟩

theorem recover_eq_index_set : ∃ s₀ w₀ s w',
    openWith { path := ['a'] } (World.empty 0) = (.ok s₀, w₀) ∧
    Turn.runAll [⟨0, none, .set [1] [2]⟩] (some s₀) w₀ = (some s, w') ∧ s.isClosed = false ∧
    ∃ no rs, w'.disk.lookup ['a'] = .ok (.file no) ∧ w'.disk.content no = logBytes rs ∧
      ∃ found, Replay.recover ['a'] Config.activeFile ∅ w'.disk = (.ok found, s.index) := by
  obtain ⟨s₀, w₀, s, w', hopen, hrun, hopened⟩ : ∃ s₀ w₀ s w',
      openWith { path := ['a'] } (World.empty 0) = (.ok s₀, w₀) ∧
      Turn.runAll [⟨0, none, .set [1] [2]⟩] (some s₀) w₀ = (some s, w') ∧
      s.isClosed = false := ⟨_, _, _, _, rfl, rfl, rfl⟩
  obtain ⟨no, rs, -, hlook, hc, -, -, -, ⟨found, hfound, -⟩, -⟩ :=
    recover_eq_index Sound.empty hopen (by simp [Request.StaysAt]) hrun hopened
  exact ⟨s₀, w₀, s, w', hopen, hrun, hopened, no, rs, hlook, hc, found, hfound⟩

end LogStore.Store
