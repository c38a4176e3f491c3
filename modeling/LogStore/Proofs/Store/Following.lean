import LogStore.Proofs.Log.Following
import LogStore.Proofs.Store.Ideal

/-! A cursor that follows the log of a store, while the store is opened and closed, read and
written. Only a merge puts another file in the place of the log. -/

namespace LogStore

open Disk

namespace Store

variable {p : Path} {no : FileNo} {log more : List Record} {slot slot' : Option Store}
  {w w' : World}

def written (now : UInt32) : Request → Option (Except Error Answer) → List Record
  | .set key value, some (.ok _) => [⟨now, key, value⟩]
  | .delete key, some (.ok _) => [.tombstone key now]
  | _, _ => []

inductive Writes (p : Path) (slot : Option Store) (w : World) :
    List Record → Option Store → World → Prop
  | turn {t : Turn} : t.request.StaysAt p → t.request ≠ .merge →
    Writes p slot w (written (t.enter w).now t.request (t.run slot w).1) (t.run slot w).2.1
      (t.run slot w).2.2

/-- A store over this log, open or closed, or none. -/
inductive Over (p : Path) (no : FileNo) (log : List Record) : Option Store → Prop
  | absent : Over p no log none
  | opened {c : Config} : c.path = p → Over p no log (some (onLog c no log))
  | closed {c : Config} : Over p no log (some (shut c))

theorem Over.of_eq {c : Config} {s : Store} (hs : s = onLog c no log) :
    Over c.path no log (some s) :=
  hs ▸ .opened rfl

theorem written_closed (now : UInt32) (r : Request) :
    written now r (some (Ideal.answerClosed r)) = [] := by
  cases r with
  | set key value =>
    rw [Ideal.answerClosed]
    split <;> rfl
  | openWith | drop | get | delete | merge | close | logSize => rfl

/-- An open store appends the record that is asked for, or the log stays. -/
theorem ask_onLog {c : Config} (h : w.disk.LogAt c.path no log) {r : Request}
    (hclose : r ≠ .close) (hmerge : r ≠ .merge) :
    (r.askStore (onLog c no log) w).2.1 =
        onLog c no (log ++ written w.now r (some (r.askStore (onLog c no log) w).1)) ∧
      (r.askStore (onLog c no log) w).2.2.disk.LogAt c.path no
        (log ++ written w.now r (some (r.askStore (onLog c no log) w).1)) := by
  cases r with
  | close => exact absurd rfl hclose
  | merge => exact absurd rfl hmerge
  | openWith | drop | get | logSize =>
    simp only [Request.askStore, written, List.append_nil]
    exact ⟨trivial, h⟩
  | set key value =>
    rcases set_onLog h key value with ⟨e, d, hset, hlog⟩ | ⟨-, d, hset, hlog⟩
    · simp only [Request.askStore, hset, Except.map, written, List.append_nil]
      exact ⟨trivial, hlog⟩
    · simp only [Request.askStore, hset, Except.map, written]
      exact ⟨trivial, hlog⟩
  | delete key =>
    rcases delete_onLog h key with ⟨e, d, hdelete, hlog⟩ | ⟨d, hdelete, hlog⟩
    · simp only [Request.askStore, hdelete, Except.map, written, List.append_nil]
      exact ⟨trivial, hlog⟩
    · simp only [Request.askStore, hdelete, Except.map, written]
      exact ⟨trivial, hlog⟩

theorem Over.run {r : Request} (hs : Over p no log slot) (h : w.disk.LogAt p no log)
    (hstay : r.StaysAt p) (hmerge : r ≠ .merge) :
    (r.run slot w).2.2.disk.LogAt p no (log ++ written w.now r (r.run slot w).1) ∧
      Over p no (log ++ written w.now r (r.run slot w).1) (r.run slot w).2.1 := by
  cases r with
  | openWith c =>
    cases (show c.path = p from hstay)
    obtain ⟨w', hopen, hdisk⟩ := openWith_logAt h
    simp only [Request.run, hopen, written, List.append_nil, hdisk]
    exact ⟨h, .opened rfl⟩
  | merge => exact absurd rfl hmerge
  | drop =>
    cases hs <;> (simp only [Request.run, written, List.append_nil]; exact ⟨h, .absent⟩)
  | close =>
    cases hs with
    | absent =>
      simp only [Request.run, written, List.append_nil]
      exact ⟨h, .absent⟩
    | opened hc | closed =>
      simp only [Request.run, Request.askStore, written, List.append_nil]
      exact ⟨h, .closed⟩
  | get | set | delete | logSize =>
    cases hs with
    | absent =>
      simp only [Request.run, written, List.append_nil]
      exact ⟨h, .absent⟩
    | opened hc =>
      subst hc
      obtain ⟨hstore, hlog⟩ := ask_onLog h (by rintro ⟨⟩) hmerge
      exact ⟨hlog, .of_eq hstore⟩
    | closed =>
      simp only [Request.run, askStore_shut, written_closed, List.append_nil]
      exact ⟨h, .closed⟩

/-- A log of these records lies at the path, and a store over it, or none. -/
structure Keeps (p : Path) (no : FileNo) (slot : Option Store) (w : World) (log : List Record) :
    Prop where
  logAt : w.disk.LogAt p no log
  store : Over p no log slot

theorem Keeps.writes (h : Keeps p no slot w log) (hw : Writes p slot w more slot' w') :
    Keeps p no slot' w' (log ++ more) := by
  cases hw with
  | @turn t hstay hmerge =>
    have henter : (t.enter w).disk.LogAt p no log := h.logAt.withLimit t.limit
    obtain ⟨hlog, hover⟩ := h.store.run henter hstay hmerge
    exact ⟨hlog, hover⟩

theorem Stands.keeps {m : Ideal} (h : Stands p m slot w) : ∃ no log, Keeps p no slot w log := by
  cases h with
  | absent h => exact ⟨_, _, h, .absent⟩
  | opened hc h => exact ⟨_, _, h, .opened hc⟩
  | closed h => exact ⟨_, _, h, .closed⟩

end Store

/-- Following a growing log. A cursor is opened on a file that is a log, and from then on calls on
it come between the doings of the one who writes there: an appender, whether it was opened before
or is opened now, with any appends; or a store, with anything that is asked of it but merges. No
call fails. The records given are the first ones of the log, each in its place, and the next call
gives the record behind them, or nothing if all that has been written so far has been given. -/
theorem follows_growing_log :
    (∀ (p : Path) (no : FileNo) (w w' : World) (slot slot' : Option Appender) (c c' : Cursor)
      (log rs : List Record) (bss : List Bytes) (xs : List (Except Error (Option Positioned))),
      w.disk.Sound → w.disk.lookup p = .ok (.file no) → Encodings log bss →
      w.disk.content no = bss.flatten →
      (∀ a, slot = some a → a.file = no ∧ Appender.InUse p a w) →
      Cursor.openLog p w.disk = .ok c →
      Cursor.Interleaved (Appender.Writes p) c slot w xs rs c' slot' w' →
      ∃ ys : List (Option Positioned), xs = ys.map .ok ∧ c'.Follows (log ++ rs) ys w'.disk) ∧
    ∀ (config : Config) (w₀ w₁ w w' : World) (s : Store) (ts : List Turn)
      (slot slot' : Option Store) (c c' : Cursor) (rs : List Record)
      (xs : List (Except Error (Option Positioned))),
      w₀.disk.Sound → Store.openWith config w₀ = (.ok s, w₁) →
      (∀ t ∈ ts, t.request.StaysAt config.path) → Turn.runAll ts (some s) w₁ = (slot, w) →
      Cursor.openLog config.path w.disk = .ok c →
      Cursor.Interleaved (Store.Writes config.path) c slot w xs rs c' slot' w' →
      ∃ log bss, Encodings log bss ∧ w.disk.bytesAt config.path = .ok bss.flatten ∧
        ∃ ys : List (Option Positioned), xs = ys.map .ok ∧ c'.Follows (log ++ rs) ys w'.disk := by
  constructor
  · intro p no w w' slot slot' c c' log rs bss xs hd hlook hbss hc hslot hopen h
    obtain ⟨hfits, hbytes⟩ := hbss.logBytes_eq
    rw [hbytes] at hc
    cases hopen.symm.trans (Cursor.openLog_eq hlook)
    have hkeeps : Appender.Keeps p no slot w log := by
      refine ⟨hd, hc, hfits, fun _ => hlook, fun {a} ha => ?_⟩
      obtain ⟨hfile, huse⟩ := hslot a ha
      have hstep := huse.inStep
      rw [hfile, hc] at hstep
      exact ⟨hfile, hstep⟩
    exact h.follows (fun hinv => ⟨hinv.content, hinv.fits⟩) (fun hinv hw => hinv.writes hw)
      (Cursor.before_start hc) hkeeps
  · intro config w₀ w₁ w w' s ts slot slot' c c' rs xs hd hopened hstay hrun hopen h
    obtain ⟨no₀, log₀, t, e, -, rfl, hlog₀⟩ := Store.openWith_ok hd hopened
    obtain ⟨m, hstands⟩ := (Store.Stands.opened rfl hlog₀).runAll hstay
    rw [hrun] at hstands
    obtain ⟨no, log, hlog⟩ := hstands.keeps
    cases hopen.symm.trans (Cursor.openLog_eq hlog.logAt.holds.lookup)
    have hbss := encodings_of_fits hlog.logAt.fits
    refine ⟨log, _, hbss, hbss.logBytes_eq.2 ▸ hlog.logAt.bytesAt_eq, ?_⟩
    exact h.follows (fun hinv => ⟨hinv.logAt.holds.content, hinv.logAt.fits⟩)
      (fun hinv hw => hinv.writes hw) (Cursor.before_start hlog.logAt.holds.content) hlog

/-- A record is read, and the end of the log; then an appender is opened and appends another, which
is read. And a store is opened, and what it sets is read. -/
theorem follows_growing_log_two :
    (∃ (w w' : World) (slot : Option Appender) (c : Cursor), w.disk.Sound ∧
      w.disk.content 0 = Record.bytes ⟨1, [1], [5]⟩ ∧
      Cursor.Interleaved (Appender.Writes ['a']) (Cursor.start (.file 0)) none w
        [.ok (some ⟨0, ⟨1, [1], [5]⟩⟩), .ok none, .ok (some ⟨18, ⟨2, [2], [6]⟩⟩)]
        [⟨2, [2], [6]⟩] c slot w') ∧
    ∃ (s : Store) (slot : Option Store) (w₁ w : World) (c : Cursor) (q : Positioned),
      Store.openWith { path := ['a'] } (World.empty 0) = (.ok s, w₁) ∧
      Turn.runAll [⟨0, none, .set [1] [5]⟩] (some s) w₁ = (slot, w) ∧
      Cursor.openLog ['a'] w.disk = .ok c ∧ (c.next w.disk).1 = .ok (some q) ∧ q.offset = 0 := by
  constructor
  · let w : World :=
      ⟨(Disk.empty.create [] ['a']).2.setContent 0 (Record.bytes ⟨1, [1], [5]⟩), 0, []⟩
    have hd : w.disk.Sound := (Sound.empty.create [] ['a']).of_only (.setContent (by decide))
    have hbss : Encodings [⟨1, [1], [5]⟩] [Record.bytes ⟨1, [1], [5]⟩] :=
      encodings_of_fits (by decide)
    have hall : ∀ (zs : List (Option Positioned)) (rs : List Record) (c : Cursor)
        (slot : Option Appender) (w' : World), Cursor.Interleaved (Appender.Writes ['a'])
          (Cursor.start (.file 0)) none w (zs.map .ok) rs c slot w' →
        c.Follows ([⟨1, [1], [5]⟩] ++ rs) zs w'.disk := by
      intro zs rs c slot w' h
      obtain ⟨ys, hys, hfollows⟩ := follows_growing_log.1 ['a'] 0 w w' none slot _ c _ rs _ _ hd rfl
        hbss (List.append_nil _).symm nofun rfl h
      cases List.map_injective_iff.mpr (fun _ _ => Except.ok.inj) hys
      exact hfollows
    have h₀ : Cursor.Interleaved (Appender.Writes ['a']) (Cursor.start (.file 0)) none w [] []
        (Cursor.start (.file 0)) none w := .start
    have hfirst : (Cursor.next _ w.disk).1 = .ok (some ⟨0, ⟨1, [1], [5]⟩⟩) :=
      (hall [] [] _ _ _ h₀).next (k := 0) rfl
    have h₁ := h₀.read
    rw [hfirst] at h₁
    have hend : (Cursor.next _ w.disk).1 = .ok none := (hall [_] [] _ _ _ h₁).next (k := 1) rfl
    have h₂ := h₁.read
    rw [hend] at h₂
    have hwhole : ∀ n, none = some n → (w.disk.found ['a']).length ≤ n := nofun
    have hwrite : w.disk.openWrite ['a'] = (.ok 0, w.disk) := rfl
    obtain ⟨a, v, hopen, hopened⟩ := Appender.openAt_whole hd hwrite hwhole 7
    have hstep : a.InStep (Appender.limited 100 v).disk (Record.bytes ⟨1, [1], [5]⟩) :=
      ⟨hopened.inStep.sound.withLimit (some 100), hopened.inStep.content, hopened.inStep.offset⟩
    obtain ⟨d, happend, -⟩ := hstep.append_ok (r := ⟨2, [2], [6]⟩) (by decide)
      (show 18 + 18 ≤ ceiling (some 100) by decide)
    have hruns := (Appender.Runs.start (a := a) (w := v)).meanwhile hstep.sound rfl
    have h₃ := (h₂.write (.opened hopen List.take_length)).write
      (.appended (hruns.appended happend))
    have hsecond := (hall [_, none] [⟨2, [2], [6]⟩] _ _ _ h₃).next (k := 1) rfl
    have h₄ := h₃.read
    rw [hsecond] at h₄
    exact ⟨w, _, _, _, hd, rfl, h₄⟩
  · obtain ⟨s, w₁, slot, w, hopen, hrun, hlook, hbytes⟩ : ∃ s w₁ slot w,
        Store.openWith { path := ['a'] } (World.empty 0) = (.ok s, w₁) ∧
        Turn.runAll [⟨0, none, .set [1] [5]⟩] (some s) w₁ = (slot, w) ∧
        Cursor.openLog ['a'] w.disk = .ok (Cursor.start (.file 0)) ∧
        w.disk.bytesAt ['a'] = .ok (Record.bytes ⟨0, [1], [5]⟩) :=
      ⟨_, _, _, _, rfl, rfl, rfl, rfl⟩
    obtain ⟨log, bss, hbss, hfile, ys, hys, hfollows⟩ := follows_growing_log.2 { path := ['a'] }
      (World.empty 0) w₁ w w s _ slot slot _ _ [] [] Sound.empty hopen (by simp [Request.StaysAt])
      hrun hlook .start
    have hnext := hfollows.next (k := 0) (by rw [List.map_eq_nil_iff.mp hys.symm]; rfl)
    rw [List.append_nil] at hnext
    cases log with
    | nil =>
      cases hbss
      rw [hbytes] at hfile
      cases hfile
    | cons r log => exact ⟨s, slot, w₁, w, _, _, hopen, hrun, hlook, hnext, rfl⟩

end LogStore
