import LogStore.Proofs.Store.Merge
import LogStore.Proofs.Store.Open
import LogStore.Store.Request

/-! The store as a map. Seen through its answers, a store over a log is a map from keys to
values, with the length of its log: both give the same answer to every request, whatever
the clock shows and wherever the limit stands, and so they do over a whole life. -/

namespace LogStore

structure Turn where
  clock : Int
  limit : Option Nat
  request : Request

namespace Turn

def enter (t : Turn) (w : World) : World :=
  { w with clock := t.clock, disk := { w.disk with limit := t.limit } }

def run (t : Turn) (slot : Option Store) (w : World) :
    Option (Except Error Answer) × Option Store × World :=
  t.request.run slot (t.enter w)

def runAll : List Turn → Option Store → World → Option Store × World
  | [], slot, w => (slot, w)
  | t :: ts, slot, w => runAll ts (t.run slot w).2.1 (t.run slot w).2.2

def observe : List Turn → Option Store → World →
    List (Option (Except Error Answer) × Option Nat)
  | [], _, _ => []
  | t :: ts, slot, w =>
    ((t.run slot w).1, (t.run slot w).2.1.map Store.keyCount) ::
      observe ts (t.run slot w).2.1 (t.run slot w).2.2

end Turn

/-- The request opens no other log. -/
def Request.StaysAt (p : Path) : Request → Prop
  | .openWith c => c.path = p
  | _ => True

inductive Phase where
  | absent
  | opened
  | closed
  deriving DecidableEq, Repr

/-- A map, the length of its log, and whether a store of it is open. -/
structure Ideal where
  contents : Contents
  length : Nat
  phase : Phase

namespace Ideal

/-- A record of this length is written, if it fits under the limit, and the map changes. -/
def write (limit : Option Nat) (recordLen : Nat) (contents : Contents) (m : Ideal) :
    Except Error (Answer × Ideal) :=
  if m.length + recordLen ≤ Disk.ceiling limit then
    .ok (.done, { m with contents, length := m.length + recordLen })
  else .error (.io .fileTooLarge)

/-- What an open store answers, and the map after it. Merging needs a name for its file,
which is `nameless` if that name is too long. -/
def askOpened (nameless : Bool) (limit : Option Nat) (m : Ideal) :
    Request → Except Error (Answer × Ideal)
  | .get key =>
    match m.contents.bytesOf? key with
    | some bs => .ok (.value bs, m)
    | none => .error .keyNotFound
  | .set key value =>
    if h : value = [] then .error .emptyValue
    else
      match Record.checkLengths key.length value.length with
      | .error e => .error e
      | .ok () =>
        m.write limit (Header.size + key.length + value.length)
          (m.contents.insert key ⟨value, h⟩)
  | .delete key =>
    if m.contents.contains key then
      m.write limit (Header.size + key.length) (m.contents.erase key)
    else .error .keyNotFound
  | .merge =>
    if nameless then .error (.io .nameTooLong)
    else if m.contents.liveBytes ≤ Disk.ceiling limit then
      .ok (.done, { m with length := m.contents.liveBytes })
    else .error (.io .fileTooLarge)
  | .close => .ok (.done, { m with phase := .closed })
  | .logSize => .ok (.size m.length, m)
  | .openWith _ | .drop => .ok (.done, m)

def answerClosed : Request → Except Error Answer
  | .set _ value => if value = [] then .error .emptyValue else .error .closed
  | .get _ | .delete _ | .merge | .logSize => .error .closed
  | .close | .openWith _ | .drop => .ok .done

/-- A request that fails leaves all as it was. -/
def settle (m : Ideal) : Except Error (Answer × Ideal) → Except Error Answer × Ideal
  | .ok (a, m') => (.ok a, m')
  | .error e => (.error e, m)

def ask (nameless : Bool) (limit : Option Nat) (r : Request) (m : Ideal) :
    Option (Except Error Answer) × Ideal :=
  match r, m.phase with
  | .openWith _, _ => (some (.ok .done), { m with phase := .opened })
  | _, .absent => (none, m)
  | .drop, _ => (some (.ok .done), { m with phase := .absent })
  | r, .opened =>
    let (a, m) := m.settle (m.askOpened nameless limit r)
    (some a, m)
  | r, .closed => (some (answerClosed r), m)

def keyCount (m : Ideal) : Option Nat :=
  match m.phase with
  | .absent => none
  | .opened => some m.contents.size
  | .closed => some 0

def observe (nameless : Bool) : List Turn → Ideal →
    List (Option (Except Error Answer) × Option Nat)
  | [], _ => []
  | t :: ts, m =>
    ((m.ask nameless t.limit t.request).1, (m.ask nameless t.limit t.request).2.keyCount) ::
      observe nameless ts (m.ask nameless t.limit t.request).2

def ofLog (rs : List Record) (phase : Phase) : Ideal :=
  ⟨Contents.ofLog rs, (logBytes rs).length, phase⟩

theorem ofLog_append (rs : List Record) (r : Record) (phase : Phase) :
    ofLog (rs ++ [r]) phase =
      ⟨(Contents.ofLog rs).apply r, (logBytes rs).length + r.encodedLen, phase⟩ := by
  rw [ofLog, Contents.ofLog_append, logBytes_append, List.length_append, logBytes_singleton,
    Record.bytes_length]
  rfl

end Ideal

namespace Store

variable {c : Config} {no : FileNo} {rs : List Record} {w : World}

/-- The answer is the map's, and so are the store and the log that are left. -/
def Agrees (c : Config) (a : Except Error Answer × Ideal)
    (x : Except Error Answer × Store × World) : Prop :=
  x.1 = a.1 ∧ ∃ no rs, a.2 = Ideal.ofLog rs .opened ∧ x.2.1 = onLog c no rs ∧
    x.2.2.disk.LogAt c.path no rs

abbrev expected (c : Config) (rs : List Record) (limit : Option Nat) (r : Request) :
    Except Error Answer × Ideal :=
  (Ideal.ofLog rs .opened).settle
    ((Ideal.ofLog rs .opened).askOpened c.mergePath.tooLong limit r)

theorem get_agrees (h : w.disk.LogAt c.path no rs) (key : Bytes) :
    Agrees c (expected c rs w.disk.limit (.get key))
      (Request.askStore (.get key) (onLog c no rs) w) := by
  have hget := get_onLog h key
  cases hb : (Contents.ofLog rs).bytesOf? key with
  | none =>
    simp only [hb] at hget
    simp only [expected, Ideal.askOpened, Ideal.ofLog, hb, Request.askStore, hget]
    exact ⟨rfl, no, rs, rfl, rfl, h⟩
  | some bs =>
    simp only [hb] at hget
    simp only [expected, Ideal.askOpened, Ideal.ofLog, hb, Request.askStore, hget]
    exact ⟨rfl, no, rs, rfl, rfl, h⟩

theorem set_agrees (h : w.disk.LogAt c.path no rs) (key value : Bytes) :
    Agrees c (expected c rs w.disk.limit (.set key value))
      (Request.askStore (.set key value) (onLog c no rs) w) := by
  simp only [expected, Ideal.askOpened, Request.askStore]
  by_cases hv : value = []
  · subst hv
    rw [set_empty, dif_pos rfl]
    exact ⟨rfl, no, rs, rfl, rfl, h⟩
  · rw [dif_neg hv]
    cases hl : Record.checkLengths key.length value.length with
    | error e =>
      have he : Record.encode ⟨w.now, key, value⟩ = .error e := by simp only [Record.encode, hl]
      rw [set_misfit hv he]
      exact ⟨rfl, no, rs, rfl, rfl, h⟩
    | ok =>
      have hr : Record.Fits ⟨w.now, key, value⟩ :=
        (Record.encode_eq_ok_iff.mp (by simp only [Record.encode, hl]; rfl)).1
      have happly : (Contents.ofLog rs).apply ⟨w.now, key, value⟩ =
          (Contents.ofLog rs).insert key ⟨value, hv⟩ := dif_neg hv
      dsimp only [Ideal.write]
      by_cases hroom : (Ideal.ofLog rs .opened).length +
          (Header.size + key.length + value.length) ≤ Disk.ceiling w.disk.limit
      · obtain ⟨d, hset, hlog⟩ := set_ok h hv hr hroom
        rw [hset, if_pos hroom]
        refine ⟨rfl, no, _, ?_, rfl, hlog⟩
        rw [Ideal.ofLog_append, happly]
        rfl
      · obtain ⟨d, hset, hlog⟩ := set_full h hv hr (Nat.not_le.mp hroom)
        rw [hset, if_neg hroom]
        exact ⟨rfl, no, rs, rfl, rfl, hlog⟩

theorem delete_agrees (h : w.disk.LogAt c.path no rs) (key : Bytes) :
    Agrees c (expected c rs w.disk.limit (.delete key))
      (Request.askStore (.delete key) (onLog c no rs) w) := by
  simp only [expected, Ideal.askOpened, Request.askStore]
  cases hk : (Contents.ofLog rs).contains key with
  | false =>
    rw [delete_absent hk, Ideal.ofLog, hk]
    exact ⟨rfl, no, rs, rfl, rfl, h⟩
  | true =>
    have happly : (Contents.ofLog rs).apply (Record.tombstone key w.now) =
        (Contents.ofLog rs).erase key := dif_pos rfl
    have hif : (Ideal.ofLog rs .opened).contents.contains key = true := hk
    rw [if_pos hif]
    dsimp only [Ideal.write]
    by_cases hroom : (Ideal.ofLog rs .opened).length + (Header.size + key.length) ≤
        Disk.ceiling w.disk.limit
    · obtain ⟨d, hdelete, hlog⟩ := delete_ok h hk hroom
      rw [hdelete, if_pos hroom]
      refine ⟨rfl, no, _, ?_, rfl, hlog⟩
      rw [Ideal.ofLog_append, happly]
      rfl
    · obtain ⟨d, hdelete, hlog⟩ := delete_full h hk (Nat.not_le.mp hroom)
      rw [hdelete, if_neg hroom]
      exact ⟨rfl, no, rs, rfl, rfl, hlog⟩

theorem merge_agrees (h : w.disk.LogAt c.path no rs) :
    Agrees c (expected c rs w.disk.limit .merge) (Request.askStore .merge (onLog c no rs) w) := by
  simp only [expected, Ideal.askOpened, Request.askStore]
  cases hl : c.mergePath.tooLong with
  | true =>
    obtain ⟨w', hmerge, hdisk⟩ := merge_tooLong h hl
    rw [hmerge, if_pos rfl]
    exact ⟨rfl, no, rs, rfl, rfl, hdisk ▸ h⟩
  | false =>
    have hfalse : ¬ (false = true) := Bool.false_ne_true
    rw [if_neg hfalse]
    rcases merge_onLog h hl with ⟨hle, i, d, hmerge, hlog⟩ | ⟨hlt, d, hmerge, hlog⟩
    · have hle' : (Ideal.ofLog rs .opened).contents.liveBytes ≤ Disk.ceiling w.disk.limit := hle
      have hmerged : Ideal.ofLog (merged c w.now rs) .opened =
          ⟨Contents.ofLog rs, (Contents.ofLog rs).liveBytes, .opened⟩ := by
        rw [Ideal.ofLog, ofLog_merged, length_merged]
      rw [hmerge, if_pos hle']
      exact ⟨rfl, i, _, hmerged.symm, rfl, hlog⟩
    · have hlt' : ¬ (Ideal.ofLog rs .opened).contents.liveBytes ≤ Disk.ceiling w.disk.limit :=
        Nat.not_le.mpr hlt
      rw [hmerge, if_neg hlt']
      exact ⟨rfl, no, rs, rfl, rfl, hlog⟩

theorem logSize_agrees (h : w.disk.LogAt c.path no rs) :
    Agrees c (expected c rs w.disk.limit .logSize)
      (Request.askStore .logSize (onLog c no rs) w) := by
  simp only [Request.askStore, logSize_onLog h]
  exact ⟨rfl, no, rs, rfl, rfl, h⟩

def shut (c : Config) : Store := ⟨c, ∅, ∅, none⟩

theorem askStore_shut (c : Config) (r : Request) (w : World) :
    r.askStore (shut c) w = (Ideal.answerClosed r, shut c, w) := by
  cases r with
  | set key value =>
    by_cases hv : value = []
    · subst hv
      rfl
    · simp [Request.askStore, set, shut, hv, Ideal.answerClosed, Except.map]
  | get key => simp [Request.askStore, get, Segments.get, shut, Ideal.answerClosed, Except.map]
  | delete key => rfl
  | merge => rfl
  | close => rfl
  | logSize =>
    simp [Request.askStore, logSize, Segments.length, shut, Ideal.answerClosed, Except.map]
  | openWith c => rfl
  | drop => rfl

/-- What stands between requests: a log at the path, the map that it says, and the store
over it, if one is open. -/
inductive Stands (p : Path) : Ideal → Option Store → World → Prop where
  | absent {no : FileNo} {rs : List Record} {w : World} (h : w.disk.LogAt p no rs) :
    Stands p (Ideal.ofLog rs .absent) none w
  | opened {c : Config} {no : FileNo} {rs : List Record} {w : World} (hc : c.path = p)
    (h : w.disk.LogAt p no rs) : Stands p (Ideal.ofLog rs .opened) (some (onLog c no rs)) w
  | closed {c : Config} {no : FileNo} {rs : List Record} {w : World}
    (h : w.disk.LogAt p no rs) : Stands p (Ideal.ofLog rs .closed) (some (shut c)) w

namespace Stands

variable {p : Path} {m : Ideal} {slot : Option Store} {w' : World} {t : Turn}

theorem log (h : Stands p m slot w) :
    ∃ no rs phase, w.disk.LogAt p no rs ∧ m = Ideal.ofLog rs phase := by
  cases h with
  | absent h => exact ⟨_, _, _, h, rfl⟩
  | opened _ h => exact ⟨_, _, _, h, rfl⟩
  | closed h => exact ⟨_, _, _, h, rfl⟩

theorem keyCount_eq (h : Stands p m slot w) : slot.map keyCount = m.keyCount := by
  cases h with
  | absent => rfl
  | opened => exact congrArg some (keyCount_onLog ..)
  | closed => simp [keyCount, shut, Ideal.keyCount, Ideal.ofLog]

theorem enter (h : Stands p m slot w) (t : Turn) : Stands p m slot (t.enter w) := by
  cases h with
  | absent h => exact .absent (h.withLimit _)
  | opened hc h => exact .opened hc (h.withLimit _)
  | closed h => exact .closed (h.withLimit _)

theorem of_agrees {c : Config} {a : Except Error Answer × Ideal} (hc : c.path = p)
    {x : Except Error Answer × Store × World} (h : Agrees c a x) :
    Stands p a.2 (some x.2.1) x.2.2 := by
  obtain ⟨-, no, rs, hm, hs, hlog⟩ := h
  rw [hm, hs]
  exact .opened hc (hc ▸ hlog)

def Matches (p : Path) (a : Option (Except Error Answer) × Ideal)
    (x : Option (Except Error Answer) × Option Store × World) : Prop :=
  x.1 = a.1 ∧ Stands p a.2 x.2.1 x.2.2

/-- Opening, whatever stood before. -/
theorem openWith_step {c : Config} (h : Stands p m slot w) (hc : c.path = p)
    (nameless : Bool) (limit : Option Nat) :
    Matches p (m.ask nameless limit (.openWith c)) (Request.run (.openWith c) slot w) := by
  obtain ⟨no, rs, phase, hlog, rfl⟩ := h.log
  subst hc
  obtain ⟨w', hopen, hdisk⟩ := openWith_logAt hlog
  simp only [Request.run, hopen]
  exact ⟨rfl, .opened rfl (hdisk ▸ hlog)⟩

theorem opened_step {c : Config} {no : FileNo} {rs : List Record}
    (h : w.disk.LogAt c.path no rs) (r : Request) (hr : ∀ c', r ≠ .openWith c') :
    Matches c.path ((Ideal.ofLog rs .opened).ask c.mergePath.tooLong w.disk.limit r)
      (r.run (some (onLog c no rs)) w) := by
  cases r with
  | openWith c' => exact absurd rfl (hr c')
  | drop => exact ⟨rfl, .absent h⟩
  | close => exact ⟨rfl, .closed h⟩
  | get key => exact ⟨congrArg some (get_agrees h key).1, of_agrees rfl (get_agrees h key)⟩
  | set key value =>
    exact ⟨congrArg some (set_agrees h key value).1, of_agrees rfl (set_agrees h key value)⟩
  | delete key =>
    exact ⟨congrArg some (delete_agrees h key).1, of_agrees rfl (delete_agrees h key)⟩
  | merge => exact ⟨congrArg some (merge_agrees h).1, of_agrees rfl (merge_agrees h)⟩
  | logSize => exact ⟨congrArg some (logSize_agrees h).1, of_agrees rfl (logSize_agrees h)⟩

theorem closed_step {c : Config} {no : FileNo} {rs : List Record}
    (h : w.disk.LogAt p no rs) (r : Request) (hr : ∀ c', r ≠ .openWith c') (nameless : Bool)
    (limit : Option Nat) :
    Matches p ((Ideal.ofLog rs .closed).ask nameless limit r) (r.run (some (shut c)) w) := by
  have hshut := askStore_shut c r w
  cases r with
  | openWith c' => exact absurd rfl (hr c')
  | drop => exact ⟨rfl, .absent h⟩
  | close | get | set | delete | merge | logSize =>
    simp only [Request.run, hshut]
    exact ⟨rfl, .closed h⟩

/-- One turn: the answer is the map's, and what stands after it goes with the map. -/
theorem step (h : Stands p m slot w) (hstay : t.request.StaysAt p) :
    Matches p (m.ask (p.beside ".merge").tooLong t.limit t.request) (t.run slot w) := by
  replace h := h.enter t
  unfold Turn.run
  cases hr : t.request with
  | openWith c =>
    rw [hr] at hstay
    exact h.openWith_step hstay _ _
  | drop | get | set | delete | merge | close | logSize =>
    cases h with
    | absent h => exact ⟨rfl, .absent h⟩
    | opened hc h =>
      subst hc
      exact opened_step h _ (by rintro _ ⟨⟩)
    | closed h => exact closed_step h _ (by rintro _ ⟨⟩) _ _

theorem observe_eq {ts : List Turn} (h : Stands p m slot w)
    (hstay : ∀ t ∈ ts, t.request.StaysAt p) :
    Turn.observe ts slot w = m.observe (p.beside ".merge").tooLong ts := by
  induction ts generalizing m slot w with
  | nil => rfl
  | cons t ts ih =>
    obtain ⟨hanswer, hnext⟩ := h.step (hstay t List.mem_cons_self)
    rw [Turn.observe, Ideal.observe, hanswer, hnext.keyCount_eq,
      ih hnext fun t' ht' => hstay t' (List.mem_cons_of_mem _ ht')]

theorem runAll {ts : List Turn} (h : Stands p m slot w)
    (hstay : ∀ t ∈ ts, t.request.StaysAt p) :
    ∃ m', Stands p m' (Turn.runAll ts slot w).1 (Turn.runAll ts slot w).2 := by
  induction ts generalizing m slot w with
  | nil => exact ⟨m, h⟩
  | cons t ts ih =>
    exact ih (h.step (hstay t List.mem_cons_self)).2
      fun t' ht' => hstay t' (List.mem_cons_of_mem _ ht')

end Stands

/-- A store is a map. Opened on whatever was found, it starts with the last value of each
key in the records at the front of that, and all it answers afterwards, over any number of
turns in which it alone uses the log, is what the map answers. Where the name of the merge file
is too long for a file, the map refuses to be merged, and stays as it is. -/
theorem observe_eq_map {c : Config} {w w₀ : World} {s : Store} (hd : w.disk.Sound)
    (hopen : openWith c w = (.ok s, w₀)) :
    ∃ rs t e, Parts (initialLog c w.disk) rs t e ∧
      (∀ key, (Contents.ofLog rs).bytesOf? key =
        (lastOf key rs).bind fun r => if r.value = [] then none else some r.value) ∧
      s.keyCount = (Contents.ofLog rs).size ∧
      ∀ ts : List Turn, (∀ t ∈ ts, t.request.StaysAt c.path) →
        Turn.observe ts (some s) w₀ =
          (Ideal.ofLog rs .opened).observe c.mergePath.tooLong ts := by
  obtain ⟨no, rs, t, e, hp, rfl, hlog⟩ := openWith_ok hd hopen
  refine ⟨rs, t, e, hp, Contents.bytesOf?_ofLog rs, keyCount_onLog .., fun ts hstay => ?_⟩
  exact (Stands.opened rfl hlog).observe_eq hstay

theorem observe_eq_map_empty : ∃ s w₀,
    openWith { path := ['a'] } (World.empty 0) = (.ok s, w₀) ∧
    ∃ rs t e, Parts (initialLog { path := ['a'] } Disk.empty) rs t e ∧
      (∀ key, (Contents.ofLog rs).bytesOf? key =
        (lastOf key rs).bind fun r => if r.value = [] then none else some r.value) ∧
      s.keyCount = (Contents.ofLog rs).size ∧
      ∀ ts : List Turn, (∀ t ∈ ts, t.request.StaysAt ['a']) →
        Turn.observe ts (some s) w₀ =
          (Ideal.ofLog rs .opened).observe (Config.mergePath { path := ['a'] }).tooLong ts := by
  obtain ⟨s, w₀, h⟩ : ∃ s w₀, openWith { path := ['a'] } (World.empty 0) = (.ok s, w₀) :=
    ⟨_, _, rfl⟩
  exact ⟨s, w₀, h, observe_eq_map Disk.Sound.empty h⟩

end Store

end LogStore
