import LogStore.Proofs.Store.Growth

/-! Readers of a log are never disturbed. Whoever has opened the file that lies at the path,
and has an index of the records at its front, reads the same values for ever: appending,
rolling back and cutting a torn tail leave those records where they are, and a merge puts
another file in the place of this one, which stays with those who hold it. -/

namespace LogStore

open Disk

/-- What a reader with a segment and an index finds under a key. -/
def Segment.find (s : Segment) (ix : Index) (key : Bytes) (d : Disk) : Except Error Bytes :=
  match ix[key]? with
  | none => .error .keyNotFound
  | some e => s.read e d

theorem Index.getElem?_replay_renumbered (id id' : FileId) (ps : List Positioned) {ix ix' : Index}
    (h : ∀ key : Bytes, ix'[key]? = ix[key]?.map fun e => { e with fileId := id' }) (key : Bytes) :
    (replay id' ix' ps)[key]? = (replay id ix ps)[key]?.map fun e => { e with fileId := id' } := by
  induction ps generalizing ix ix' with
  | nil => exact h key
  | cons p ps ih =>
    refine ih fun key => ?_
    unfold apply
    split
    · rw [Std.ExtTreeMap.getElem?_erase, Std.ExtTreeMap.getElem?_erase]
      split
      · rfl
      · exact h key
    · rw [Std.ExtTreeMap.getElem?_insert, Std.ExtTreeMap.getElem?_insert]
      split
      · rfl
      · exact h key

variable {p : Path} {i : FileNo} {rs : List Record} {w w' : World} {slot : Option Store}
  {c : Config} {t : Bytes} {e : Error} {parent : List Name} {name : Name}

def Contents.find (m : Contents) (key : Bytes) : Except Error Bytes :=
  match m.bytesOf? key with
  | some bs => .ok bs
  | none => .error .keyNotFound

/-- With the records at the front of the file, all reads are what these say. -/
theorem Segment.find_eq {d : Disk} (hd : d.Sound) (hfront : logBytes rs <+: d.content i)
    (id fileId : FileId) (key : Bytes) :
    Segment.find ⟨id, .file i⟩ (Index.replay fileId ∅ (positions 0 rs)) key d =
      (Contents.ofLog rs).find key := by
  have hshow := Index.Shows.ofLog rs
  have hsame : (Index.replay fileId ∅ (positions 0 rs))[key]? =
      (Index.replay Config.activeFile ∅ (positions 0 rs))[key]?.map
        fun e => { e with fileId } := Index.getElem?_replay_renumbered _ _ _ (by simp) key
  obtain ⟨more, hmore⟩ := hfront
  rw [Contents.find, hshow.same key, find, hsame]
  cases he : (Index.replay Config.activeFile ∅ (positions 0 rs))[key]? with
  | none => rfl
  | some x =>
    have hin : x.Inside (d.content i) := hmore ▸ (hshow.inside he).append more
    change Segment.read ⟨id, .file i⟩ x d = .ok (x.window (logBytes rs))
    rw [Segment.read_inside hin hd, ← hmore, Entry.window_append (hshow.inside he)]

namespace Store

/-- A store over a log reads as such a reader does. -/
theorem get_onLog_eq_find (c : Config) (i : FileNo) (rs : List Record) (key : Bytes) (d : Disk) :
    (onLog c i rs).get key d =
      Segment.find ⟨Config.activeFile, .file i⟩ (onLog c i rs).index key d := by
  have hopened : (onLog c i rs).segments.isEmpty = false := segments_onLog_ne i
  simp only [get, Segments.get, hopened, Bool.false_eq_true, if_false, Segment.find]
  cases he : (onLog c i rs).index[key]? with
  | none => rfl
  | some x =>
    have hactive : x.fileId = Config.activeFile := ((Index.Shows.ofLog rs).inside he).active
    simp [Segments.read, onLog, Segments.single, hactive]

/-- Opening over the file at the path leaves its records there, whether it succeeds or not. -/
theorem openWith_found {x : Except Error Store} (hs : Site w.disk c.path parent name i)
    (hp : Parts (w.disk.content i) rs t e) (h : openWith c w = (x, w')) :
    (x = .ok (onLog c i rs) ∧ w'.disk.LogAt c.path i rs) ∨
      ∃ cause, x = .error cause ∧ w'.disk.Holds c.path i (w.disk.content i) := by
  rw [openWith_eq hs] at h
  cases x with
  | error cause => exact .inr ⟨cause, rfl, (attach_refused hs h).1⟩
  | ok s =>
    cases hm : w.disk.isDir c.mergePath with
    | true =>
      obtain ⟨cause, v, hstale⟩ := removeStale_dir hm
      cases h.symm.trans (attach_error_of_stale hstale)
    | false =>
      cases he : e.isEndOfLog with
      | false =>
        obtain ⟨v, herr, -⟩ := attach_corrupt hs hp hm he
        cases h.symm.trans herr
      | true =>
        obtain ⟨v, ⟨hok, hlog, -⟩ | ⟨cause, -, -, herr, -⟩⟩ := attach_recovers hs hp hm he
        · cases h.symm.trans hok
          exact .inl ⟨rfl, hlog⟩
        · cases h.symm.trans herr

theorem Stands.of_disk {m : Ideal} (h : Stands p m slot w) (hdisk : w'.disk = w.disk) :
    Stands p m slot w' := by
  cases h with
  | absent h => exact .absent (hdisk ▸ h)
  | opened hc h => exact .opened hc (hdisk ▸ h)
  | closed h => exact .closed (hdisk ▸ h)

/-- These records are at the front of the file, for good. Either no store has been opened yet,
and the file is the one at the path; or a store stands, over this file or another. -/
inductive Served (p : Path) (i : FileNo) (rs : List Record) : Option Store → World → Prop
  | found {w : World} {bs t : Bytes} {e : Error} (h : w.disk.Holds p i bs) (hp : Parts bs rs t e) :
    Served p i rs none w
  | standing {m : Ideal} {slot : Option Store} {w : World} (h : Stands p m slot w)
    (hi : i < w.disk.fresh) (hfront : logBytes rs <+: w.disk.content i) : Served p i rs slot w

namespace Served

theorem of_logAt {m : Ideal} (h : Stands p m slot w) (hlog : w.disk.LogAt p i rs) :
    Served p i rs slot w :=
  .standing h hlog.holds.below (by rw [hlog.holds.content])

theorem front (h : Served p i rs slot w) :
    w.disk.Sound ∧ logBytes rs <+: w.disk.content i := by
  cases h with
  | found h hp =>
    refine ⟨h.sound, ?_⟩
    rw [h.content, hp.eq]
    exact List.prefix_append _ _
  | standing h _ hfront =>
    obtain ⟨no, rs', phase, hlog, -⟩ := h.log
    exact ⟨hlog.holds.sound, hfront⟩

theorem run (h : Served p i rs slot w) (turn : Turn) (hstay : turn.request.StaysAt p) :
    Served p i rs (turn.run slot w).2.1 (turn.run slot w).2.2 := by
  cases h with
  | standing h hi hfront =>
    have hgrows := h.grows hstay
    exact .standing (h.step hstay).2 (hi.trans_le hgrows.fresh)
      (hfront.trans (hgrows.content i hi))
  | found h hp =>
    replace h := h.withLimit turn.limit
    unfold Turn.run
    cases hr : turn.request with
    | drop | get | set | delete | merge | close | logSize => exact .found h hp
    | openWith c =>
      rw [hr] at hstay
      have hc : c.path = p := hstay
      subst hc
      obtain ⟨parent, name, hs⟩ := site_of_lookup h.sound h.lookup
      rcases hopen : openWith c (turn.enter w) with ⟨x, v⟩
      simp only [Request.run, hopen]
      rcases openWith_found (w := turn.enter w) hs (h.content.symm ▸ hp) hopen with
        ⟨rfl, hlog⟩ | ⟨cause, rfl, hheld⟩
      · exact .of_logAt (.opened rfl hlog) hlog
      · exact .found hheld (h.content.symm ▸ hp)

theorem runAll {ts : List Turn} (h : Served p i rs slot w)
    (hstay : ∀ t ∈ ts, t.request.StaysAt p) :
    Served p i rs (Turn.runAll ts slot w).1 (Turn.runAll ts slot w).2 := by
  induction ts generalizing slot w with
  | nil => exact h
  | cons turn ts ih =>
    exact ih (h.run turn (hstay turn List.mem_cons_self))
      fun t ht => hstay t (List.mem_cons_of_mem _ ht)

/-- At no later moment is there another answer. -/
theorem find_eq {ts : List Turn} (h : Served p i rs slot w)
    (hstay : ∀ t ∈ ts, t.request.StaysAt p) (id fileId : FileId) (key : Bytes) :
    Segment.find ⟨id, .file i⟩ (Index.replay fileId ∅ (positions 0 rs)) key
        (Turn.runAll ts slot w).2.disk =
      Segment.find ⟨id, .file i⟩ (Index.replay fileId ∅ (positions 0 rs)) key w.disk := by
  obtain ⟨hd, hfront⟩ := h.front
  obtain ⟨hd', hfront'⟩ := (h.runAll hstay).front
  rw [Segment.find_eq hd hfront, Segment.find_eq hd' hfront']

end Served

theorem Ready.served (h : Ready p slot w) (hd : w.disk.Sound)
    (hl : w.disk.lookup p = .ok (.file i)) :
    ∃ rs t e, Parts (w.disk.content i) rs t e ∧ Served p i rs slot w := by
  rcases h with rfl | ⟨m, h⟩
  · obtain ⟨rs, t, e, hp⟩ := exists_parts (w.disk.content i)
    exact ⟨rs, t, e, hp, .found ⟨hd, hl, rfl⟩ hp⟩
  · obtain ⟨no, rs, phase, hlog, -⟩ := h.log
    cases hl.symm.trans hlog.holds.lookup
    exact ⟨rs, [], .endOfLog, hlog.holds.content ▸ .of_records hlog.fits, .of_logAt h hlog⟩

theorem Ready.served_opened {s : Store} {turn : Turn} (h : Ready p slot w) (hd : w.disk.Sound)
    (hc : c.path = p) (hopen : openWith c (turn.enter w) = (.ok s, w')) :
    ∃ i rs t e, Parts (initialLog c (turn.enter w).disk) rs t e ∧ s = onLog c i rs ∧
      Served p i rs slot w' := by
  subst hc
  obtain ⟨i, rs, t, e, hp, rfl, hlog⟩ := openWith_ok (w := turn.enter w) (hd.withLimit _) hopen
  refine ⟨i, rs, t, e, hp, rfl, ?_⟩
  rcases h with rfl | ⟨m, h⟩
  · exact .of_logAt (.absent hlog) hlog
  · -- over a log that stands, opening changes nothing
    replace h := h.enter turn
    obtain ⟨no, rs', phase, hstood, -⟩ := h.log
    obtain ⟨v, hopen', hdisk⟩ := openWith_logAt hstood
    obtain ⟨-, rfl⟩ := Prod.mk.inj (hopen.symm.trans hopen')
    exact .of_logAt (h.of_disk hdisk) hlog

/-- Readers are not disturbed. At any moment in a life at the path, whatever bytes it began
with, let someone open the file there and replay it, or open a second store: the reader finds
under each key what the records at the front of the log say, a value or that there is none,
and after any number of further turns it finds the same. -/
theorem reader_undisturbed {u : World} {ts : List Turn} (hd : u.disk.Sound)
    (hstay : ∀ t ∈ ts, t.request.StaysAt p) (hrun : Turn.runAll ts none u = (slot, w)) :
    (∀ (id fileId : FileId) segment x ix, Segment.openFile id p w.disk = .ok segment →
      Replay.recover p fileId ∅ w.disk = (x, ix) →
        ∃ rs tail e, Parts (w.disk.found p) rs tail e ∧ ∀ key,
          segment.find ix key w.disk = (Contents.ofLog rs).find key ∧
          ∀ ts' : List Turn, (∀ t ∈ ts', t.request.StaysAt p) →
            segment.find ix key (Turn.runAll ts' slot w).2.disk = segment.find ix key w.disk) ∧
    ∀ (c : Config) (t : Turn) s v, c.path = p → openWith c (t.enter w) = (.ok s, v) →
      ∃ rs tail e, Parts (initialLog c (t.enter w).disk) rs tail e ∧ ∀ key,
        s.get key v.disk = (Contents.ofLog rs).find key ∧
        ∀ ts' : List Turn, (∀ t ∈ ts', t.request.StaysAt p) →
          s.get key (Turn.runAll ts' slot v).2.disk = s.get key v.disk := by
  have hready : Ready p slot w := by
    have h := (show Ready p none u from .inl rfl).runAll hd hstay
    rwa [hrun] at h
  have hsound : w.disk.Sound := by
    have h := sound_runAll ts none hd
    rwa [hrun] at h
  constructor
  · intro id fileId segment x ix hopen hrecover
    unfold Segment.openFile at hopen
    split at hopen
    · cases hopen
    · rename_i node hl
      cases hopen
      cases node with
      | dir =>
        -- nothing is recovered from a directory, and so nothing is looked for
        rw [Replay.recover_dir hl] at hrecover
        cases hrecover
        have hempty : w.disk.found p = [] := by
          rw [found, bytesAt, hl]
          rfl
        refine ⟨[], [], .endOfLog, ⟨hempty, by simp, rfl⟩, fun key => ⟨?_, fun ts' _ => ?_⟩⟩
        · simp [Segment.find, Contents.find, Contents.ofLog]
        · simp [Segment.find]
      | file i =>
        obtain ⟨rs, tail, e, hp, hserved⟩ := hready.served hsound hl
        rw [Replay.recover_eq ⟨hsound, hl, rfl⟩ hp] at hrecover
        cases hrecover
        have hfound : w.disk.found p = w.disk.content i := by
          rw [found, bytesAt_file hl]
          rfl
        exact ⟨rs, tail, e, hfound ▸ hp, fun key =>
          ⟨Segment.find_eq hsound hserved.front.2 id fileId key,
            fun ts' hstay' => hserved.find_eq hstay' id fileId key⟩⟩
  · intro c t s v hc hopen
    obtain ⟨i, rs, tail, e, hp, rfl, hserved⟩ := hready.served_opened hsound hc hopen
    refine ⟨rs, tail, e, hp, fun key => ?_⟩
    simp only [get_onLog_eq_find]
    exact ⟨Segment.find_eq hserved.front.1 hserved.front.2 _ _ key,
      fun ts' hstay' => hserved.find_eq hstay' _ _ key⟩

theorem reader_undisturbed_merge : ∃ slot w segment found ix s v,
    Turn.runAll [⟨0, none, .openWith { path := ['a'] }⟩, ⟨0, none, .set [1] [2]⟩] none
      (World.empty 0) = (slot, w) ∧
    Segment.openFile 0 ['a'] w.disk = .ok segment ∧
    Replay.recover ['a'] 0 ∅ w.disk = (.ok found, ix) ∧
    segment.find ix [1] (Turn.runAll [⟨0, none, .set [1] [3]⟩, ⟨0, none, .merge⟩] slot w).2.disk =
      .ok [2] ∧
    openWith { path := ['a'] } w = (.ok s, v) ∧
    s.get [1] (Turn.runAll [⟨0, none, .set [1] [3]⟩, ⟨0, none, .merge⟩] slot v).2.disk =
      .ok [2] := by
  obtain ⟨slot, w, hrun, hl, hc, hquiet⟩ : ∃ slot w,
      Turn.runAll [⟨0, none, .openWith { path := ['a'] }⟩, ⟨0, none, .set [1] [2]⟩] none
        (World.empty 0) = (slot, w) ∧
      w.disk.lookup ['a'] = .ok (.file 0) ∧ w.disk.content 0 = logBytes [⟨0, [1], [2]⟩] ∧
      w.disk.exists? (Path.beside ['a'] ".merge") = false := ⟨_, _, rfl, rfl, rfl, rfl⟩
  have hd : (slot, w).2.disk.Sound := hrun ▸ sound_runAll _ none Sound.empty
  have hlog : w.disk.LogAt ['a'] 0 [⟨0, [1], [2]⟩] := ⟨⟨hd, hl, hc⟩, by simp; decide, hquiet⟩
  have hopen : Segment.openFile 0 ['a'] w.disk = .ok ⟨0, .file 0⟩ := by rw [Segment.openFile, hl]
  have hrecover := Replay.recover_eq hlog.holds (.of_records hlog.fits) 0 ∅
  obtain ⟨v, hstore, hdisk⟩ := openWith_logAt (c := { path := ['a'] }) hlog
  have hfind := Segment.find_eq hd (i := 0) (by rw [hc]) 0 0 [1]
  have hget := get_onLog (c := { path := ['a'] }) (w := v) (hdisk ▸ hlog) [1]
  have hstay : ∀ t ∈ [(⟨0, none, .set [1] [3]⟩ : Turn), ⟨0, none, .merge⟩],
      t.request.StaysAt ['a'] := by simp [Request.StaysAt]
  obtain ⟨hsegment, hsecond⟩ := reader_undisturbed (p := ['a']) (u := World.empty 0) Sound.empty
    (by simp [Request.StaysAt]) hrun
  obtain ⟨_, _, _, -, hfirst⟩ := hsegment 0 0 _ _ _ hopen hrecover
  obtain ⟨_, _, _, -, hother⟩ :=
    hsecond { path := ['a'] } ⟨w.clock, w.disk.limit, .drop⟩ _ v rfl hstore
  exact ⟨slot, w, _, _, _, _, v, hrun, hopen, hrecover, ((hfirst [1]).2 _ hstay).trans hfind,
    hstore, ((hother [1]).2 _ hstay).trans hget⟩

end Store

end LogStore
