import LogStore.Proofs.Disk.Mirror
import LogStore.Proofs.Log.Stamps
import LogStore.Proofs.Store.Recovery
import LogStore.Proofs.Store.Sound

/-! The clock decides timestamps, and nothing else. Two runs of the same requests under the same
limits, each with clocks of its own and its own rule for the timestamps of merged records, answer
alike at every turn and leave logs that differ in checksums and timestamps alone. -/

namespace LogStore

open Disk

structure Config.Akin (c c' : Config) : Prop where
  path : c'.path = c.path
  createDirs : c'.createDirs = c.createDirs

theorem Config.mergePath_congr {c c' : Config} (h : c'.path = c.path) :
    c'.mergePath = c.mergePath := by
  rw [mergePath, mergePath, h]

namespace Action

variable {α β γ δ : Type} {Q : α → β → Prop} {P : γ → δ → Prop}

/-- Started on the same disk, the actions fail alike or end with values that go together, and
they leave the same disk, whatever the clocks show. -/
def Timeless (Q : α → β → Prop) (x : Action α) (y : Action β) : Prop :=
  ∀ w w' : World, w'.disk = w.disk →
    Matched Q (x w).1 (y w').1 ∧ (y w').2.disk = (x w).2.disk

namespace Timeless

theorem pure {a : α} {b : β} (h : Q a b) :
    Timeless Q (Pure.pure a : Action α) (Pure.pure b : Action β) :=
  fun _ _ hw => ⟨.ok h, hw⟩

theorem throw (e : Error) :
    Timeless Q (MonadExcept.throw e : Action α) (MonadExcept.throw e : Action β) :=
  fun _ _ hw => ⟨.error e, hw⟩

theorem world : Timeless (fun w w' => w'.disk = w.disk) Action.world Action.world :=
  fun _ _ hw => ⟨.ok hw, hw⟩

theorem report (e e' : Event) : Timeless Eq (Action.report e) (Action.report e') :=
  fun _ _ hw => ⟨.ok rfl, hw⟩

theorem ask (f : Disk → Except Error α) : Timeless Eq (Action.ask f) (Action.ask f) := by
  intro w w' hw
  simp only [Action.ask, hw, and_true]
  cases f w.disk with
  | error e => exact .error e
  | ok a => exact .ok rfl

theorem onDisk (f : Disk → Except IoError α × Disk) :
    Timeless Eq (Action.onDisk f) (Action.onDisk f) := by
  intro w w' hw
  simp only [Action.onDisk, hw]
  rcases f w.disk with ⟨_ | a, d⟩
  · exact ⟨.error _, rfl⟩
  · exact ⟨.ok rfl, rfl⟩

theorem bind {x : Action α} {y : Action β} {f : α → Action γ} {g : β → Action δ}
    (h : Timeless Q x y) (hf : ∀ {a b}, Q a b → Timeless P (f a) (g b)) :
    Timeless P (x >>= f) (y >>= g) := by
  intro w w' hw
  obtain ⟨hm, hd⟩ := h w w' hw
  rcases hx : x w with ⟨a, v⟩
  rcases hy : y w' with ⟨b, v'⟩
  rw [hx, hy] at hm hd
  rw [bind_eq, bind_eq, hx, hy]
  cases hm with
  | error e => exact ⟨.error e, hd⟩
  | ok hq => exact hf hq _ _ hd

theorem andThen {x y : Action α} {f : α → Action γ} {g : α → Action δ} (h : Timeless Eq x y)
    (hf : ∀ a, Timeless P (f a) (g a)) : Timeless P (x >>= f) (y >>= g) :=
  .bind h fun hab => hab ▸ hf _

end Timeless

end Action

open LogStore.Action

namespace Appender

theorem timeless_openEnd (p : Path) (fileId : FileId) :
    Timeless Eq (openEnd p fileId) (openEnd p fileId) := by
  refine .andThen (.onDisk _) fun i => .bind .world fun {w w'} hw => ?_
  rw [hw]
  exact .pure rfl

theorem timeless_openAfter (p : Path) (fileId : FileId) (validLen : Nat) :
    Timeless Eq (openAfter p fileId validLen) (openAfter p fileId validLen) := by
  refine .andThen (timeless_openEnd p fileId) fun a => ?_
  split
  · exact .pure rfl
  · have hsave : Timeless Eq (saveTail a.file validLen (tornPath p))
        (saveTail a.file validLen (tornPath p)) := .andThen (.onDisk _) fun _ => .onDisk _
    exact .andThen hsave fun _ => .andThen (.report _ _) fun _ =>
      .andThen (.onDisk _) fun _ => .pure rfl

end Appender

namespace Store

theorem timeless_removeStale (p : Path) : Timeless Eq (removeStale p) (removeStale p) := by
  refine .bind .world fun {w w'} hw => ?_
  rw [hw]
  split
  · exact .andThen (.report _ _) fun _ => .onDisk _
  · exact .pure rfl

theorem timeless_reopen (p : Path) : Timeless Eq (reopen p) (reopen p) := by
  refine .bind .world fun {w w'} hw => ?_
  rw [hw]
  split
  · exact .throw _
  · refine .andThen (.report _ _) fun _ => ?_
    dsimp only
    split
    · exact .andThen (.report _ _) fun _ =>
        .andThen (Appender.timeless_openAfter _ _ _) fun _ => .pure rfl
    · exact .andThen (Appender.timeless_openAfter _ _ _) fun _ => .pure rfl

theorem timeless_start (p : Path) : Timeless Eq (start p) (start p) :=
  .andThen (.report _ _) fun _ => .andThen (Appender.timeless_openEnd _ _) fun _ => .pure rfl

variable {c c' : Config}

theorem timeless_attach (h : c.Akin c') :
    Timeless (fun s s' => s' = { s with config := c' }) (attach c) (attach c') := by
  unfold attach
  rw [Config.mergePath_congr h.path, h.path]
  refine .andThen (timeless_removeStale _) fun _ => .bind .world fun {w w'} hw => ?_
  rw [hw]
  dsimp only
  split
  · exact .andThen (timeless_reopen _) fun _ => .andThen (.ask _) fun _ => .pure rfl
  · exact .andThen (timeless_start _) fun _ => .andThen (.ask _) fun _ => .pure rfl

/-- Opening does not look at the clock, nor at what becomes of timestamps. -/
theorem timeless_openWith (h : c.Akin c') :
    Timeless (fun s s' => s' = { s with config := c' }) (openWith c) (openWith c') := by
  have hvalidate : c'.validate = c.validate := by
    funext d
    rw [Config.validate, Config.validate, h.path]
  unfold openWith
  rw [hvalidate, h.createDirs, h.path]
  refine .andThen (.ask _) fun _ => ?_
  dsimp only
  split
  · exact .andThen (.onDisk _) fun _ => timeless_attach h
  · exact timeless_attach h

theorem merged_akin {rs rs' : List Record} (h : AkinLogs rs rs') (c c' : Config)
    (now now' : UInt32) : AkinLogs (merged c now rs) (merged c' now' rs') := by
  have hpairs := (pairs_merged c now rs).trans (h.ofLog_eq ▸ (pairs_merged c' now' rs').symm)
  generalize merged c now rs = ms at hpairs ⊢
  generalize merged c' now' rs' = ms' at hpairs ⊢
  induction ms generalizing ms' with
  | nil =>
    rw [List.map_nil, eq_comm, List.map_eq_nil_iff] at hpairs
    rw [hpairs]
    exact .nil
  | cons r ms ih =>
    cases ms' with
    | nil => cases hpairs
    | cons r' ms' =>
      obtain ⟨hpair, hrest⟩ := List.cons.inj hpairs
      obtain ⟨hkey, hvalue⟩ := Prod.mk.inj hpair
      exact .cons ⟨hkey.symm, hvalue.symm⟩ (ih ms' hrest)

end Store

namespace Request

variable {c c' : Config} {rs rs' : List Record}

def logAfter (c : Config) (now : UInt32) (rs : List Record) (r : Request)
    (a : Except Error Answer) : List Record :=
  match r, a with
  | .set key value, .ok _ => rs ++ [⟨now, key, value⟩]
  | .delete key, .ok _ => rs ++ [.tombstone key now]
  | .merge, .ok _ => Store.merged c now rs
  | _, _ => rs

theorem logAfter_akin (h : AkinLogs rs rs') (c c' : Config) (now now' : UInt32) (r : Request)
    (a : Except Error Answer) : AkinLogs (r.logAfter c now rs a) (r.logAfter c' now' rs' a) := by
  cases a with
  | error e => cases r <;> exact h
  | ok a =>
    cases r with
    | set key value => exact h.snoc ⟨rfl, rfl⟩
    | delete key => exact h.snoc ⟨rfl, rfl⟩
    | merge => exact Store.merged_akin h ..
    | get | close | logSize | openWith | drop => exact h

theorem askStore_onLog {no : FileNo} {w : World} (h : w.disk.LogAt c.path no rs) (r : Request)
    (hr : r ≠ .close) : ∃ no',
      (r.askStore (Store.onLog c no rs) w).2.1 = Store.onLog c no'
        (r.logAfter c w.now rs (r.askStore (Store.onLog c no rs) w).1) ∧
      (r.askStore (Store.onLog c no rs) w).2.2.disk.LogAt c.path no'
        (r.logAfter c w.now rs (r.askStore (Store.onLog c no rs) w).1) := by
  cases r with
  | close => exact absurd rfl hr
  | get | logSize | openWith | drop => exact ⟨no, rfl, h⟩
  | set key value =>
    simp only [askStore]
    rcases Store.set_onLog h key value with ⟨e, d, hset, hlog⟩ | ⟨-, d, hset, hlog⟩ <;> rw [hset]
    · exact ⟨no, rfl, hlog⟩
    · exact ⟨no, rfl, hlog⟩
  | delete key =>
    simp only [askStore]
    rcases Store.delete_onLog h key with ⟨e, d, hdelete, hlog⟩ | ⟨d, hdelete, hlog⟩ <;>
      rw [hdelete]
    · exact ⟨no, rfl, hlog⟩
    · exact ⟨no, rfl, hlog⟩
  | merge =>
    simp only [askStore]
    cases hl : c.mergePath.tooLong with
    | true =>
      obtain ⟨v, hfail, hdisk⟩ := Store.merge_tooLong h hl
      rw [hfail]
      exact ⟨no, rfl, hdisk ▸ h⟩
    | false =>
      rcases Store.merge_onLog h hl with ⟨-, i, d, hok, hlog⟩ | ⟨-, d, hfail, hlog⟩
      · rw [hok]
        exact ⟨i, rfl, hlog⟩
      · rw [hfail]
        exact ⟨no, rfl, hlog⟩

theorem run_none (r : Request) (hr : ∀ c, r ≠ .openWith c) (w : World) :
    r.run none w = (none, none, w) := by
  cases r with
  | openWith c => exact absurd rfl (hr c)
  | drop | get | set | delete | merge | close | logSize => rfl

/-- The same request, up to what becomes of timestamps in merges. -/
inductive Akin : Request → Request → Prop
  | openWith {c c' : Config} (h : c.Akin c') : Akin (.openWith c) (.openWith c')
  | same {r : Request} (h : ∀ c, r ≠ .openWith c) : Akin r r

end Request

structure Turn.Akin (t t' : Turn) : Prop where
  limit : t'.limit = t.limit
  request : t.request.Akin t'.request

def Turn.moments : List Turn → Option Store → World →
    List (Option (Except Error Answer) × Option Store × World)
  | [], _, _ => []
  | t :: ts, slot, w => t.run slot w :: moments ts (t.run slot w).2.1 (t.run slot w).2.2

namespace Store

/-- Nothing has been opened in either run, and the disks are still the same; or in both runs
there is a log, with the same writes in the same order, and what is open in the one is open in
the other. -/
inductive Paired (p : Path) : Option Store → World → Option Store → World → Prop where
  | fresh {w w' : World} (hd : w.disk.Sound) (h : w'.disk = w.disk) : Paired p none w none w'
  | absent {no no' : FileNo} {rs rs' : List Record} {w w' : World} (hrs : AkinLogs rs rs')
    (h : w.disk.LogAt p no rs) (h' : w'.disk.LogAt p no' rs') : Paired p none w none w'
  | opened {c c' : Config} {no no' : FileNo} {rs rs' : List Record} {w w' : World}
    (hrs : AkinLogs rs rs') (hc : c.path = p) (hc' : c'.path = p) (h : w.disk.LogAt p no rs)
    (h' : w'.disk.LogAt p no' rs') :
    Paired p (some (onLog c no rs)) w (some (onLog c' no' rs')) w'
  | closed {c c' : Config} {no no' : FileNo} {rs rs' : List Record} {w w' : World}
    (hrs : AkinLogs rs rs') (h : w.disk.LogAt p no rs) (h' : w'.disk.LogAt p no' rs') :
    Paired p (some (shut c)) w (some (shut c')) w'

namespace Paired

variable {p : Path} {slot slot' : Option Store} {w w' : World} {t t' : Turn}

theorem enter (h : Paired p slot w slot' w') (ht : t.Akin t') :
    Paired p slot (t.enter w) slot' (t'.enter w') := by
  cases h with
  | fresh hd h =>
    refine .fresh (hd.withLimit _) ?_
    simp only [Turn.enter, h, ht.limit]
  | absent hrs h h' => exact .absent hrs (h.withLimit _) (h'.withLimit _)
  | opened hrs hc hc' h h' => exact .opened hrs hc hc' (h.withLimit _) (h'.withLimit _)
  | closed hrs h h' => exact .closed hrs (h.withLimit _) (h'.withLimit _)

/-- Equal answers, and what then is there goes together again. -/
def Goes (p : Path) (x x' : Option (Except Error Answer) × Option Store × World) : Prop :=
  x'.1 = x.1 ∧ Paired p x.2.1 x.2.2 x'.2.1 x'.2.2

/-- The two first opens fail alike, or both find the same log. -/
theorem fresh_openWith {c c' : Config} (hc : c.Akin c') (hd : w.disk.Sound)
    (h : w'.disk = w.disk) :
    Goes c.path (Request.run (.openWith c) none w) (Request.run (.openWith c') none w') := by
  obtain ⟨hm, hdisk⟩ := timeless_openWith hc w w' h
  have hsound := keepsSound_openWith c w hd
  rcases hx : openWith c w with ⟨x, v⟩
  rcases hy : openWith c' w' with ⟨y, v'⟩
  rw [hx, hy] at hm hdisk
  rw [hx] at hsound
  simp only [Request.run, hx, hy]
  cases hm with
  | error e => exact ⟨rfl, .fresh hsound hdisk⟩
  | ok hs =>
    obtain ⟨no, rs, -, -, -, rfl, hlog⟩ := openWith_ok hd hx
    subst hs
    refine ⟨rfl, .opened (.refl rs) rfl hc.path hlog ?_⟩
    change v'.disk = v.disk at hdisk
    rw [hdisk]
    exact hlog

theorem reopened {c c' : Config} {no no' : FileNo} {rs rs' : List Record} (hc : c.Akin c')
    (hrs : AkinLogs rs rs') (h : w.disk.LogAt c.path no rs) (h' : w'.disk.LogAt c.path no' rs') :
    Goes c.path (Request.run (.openWith c) slot w) (Request.run (.openWith c') slot' w') := by
  rw [← hc.path] at h'
  obtain ⟨v, hopen, hdisk⟩ := openWith_logAt h
  obtain ⟨v', hopen', hdisk'⟩ := openWith_logAt h'
  simp only [Request.run, hopen, hopen']
  exact ⟨rfl, .opened hrs rfl hc.path (hdisk ▸ h) (hc.path ▸ hdisk' ▸ h')⟩

/-- Stores over such logs answer alike. -/
theorem asked {c c' : Config} {no no' : FileNo} {rs rs' : List Record} (hrs : AkinLogs rs rs')
    (hc : c'.path = c.path) (h : w.disk.LogAt c.path no rs) (h' : w'.disk.LogAt c'.path no' rs')
    (hlimit : w'.disk.limit = w.disk.limit) (r : Request) (hr : ∀ c, r ≠ .openWith c) :
    Goes c.path (r.run (some (onLog c no rs)) w) (r.run (some (onLog c' no' rs')) w') := by
  have hanswer : (r.run (some (onLog c' no' rs')) w').1 = (r.run (some (onLog c no rs)) w).1 := by
    have hideal : Ideal.ofLog rs' .opened = Ideal.ofLog rs .opened := by
      rw [Ideal.ofLog, Ideal.ofLog, hrs.ofLog_eq, hrs.length_eq]
    rw [(Stands.opened_step h r hr).1, (Stands.opened_step h' r hr).1, hideal,
      Config.mergePath_congr hc, hlimit]
  have hstay : r ≠ .close →
      (r.askStore (onLog c' no' rs') w').1 = (r.askStore (onLog c no rs) w).1 →
      Paired c.path (some (r.askStore (onLog c no rs) w).2.1) (r.askStore (onLog c no rs) w).2.2
        (some (r.askStore (onLog c' no' rs') w').2.1)
        (r.askStore (onLog c' no' rs') w').2.2 := by
    intro hclose ha
    obtain ⟨i, hs, hlog⟩ := r.askStore_onLog h hclose
    obtain ⟨j, hs', hlog'⟩ := r.askStore_onLog h' hclose
    rw [ha, hc] at hlog'
    rw [hs, hs', ha]
    exact .opened (r.logAfter_akin hrs ..) rfl hc hlog hlog'
  refine ⟨hanswer, ?_⟩
  cases r with
  | openWith c => exact absurd rfl (hr c)
  | drop => exact .absent hrs h (hc ▸ h')
  | close => exact .closed hrs h (hc ▸ h')
  | get | set | delete | merge | logSize => exact hstay (by simp) (Option.some.inj hanswer)

theorem step (h : Paired p slot w slot' w') (ht : t.Akin t') (hstay : t.request.StaysAt p) :
    Goes p (t.run slot w) (t'.run slot' w') := by
  replace h := h.enter ht
  have hlimit : (t'.enter w').disk.limit = (t.enter w).disk.limit := ht.limit
  have hr := ht.request
  unfold Turn.run
  generalize t.enter w = v at h hlimit ⊢
  generalize t'.enter w' = v' at h hlimit ⊢
  generalize t.request = r at hr hstay ⊢
  generalize t'.request = r' at hr ⊢
  cases hr with
  | openWith hc =>
    cases (show _ = p from hstay)
    cases h with
    | fresh hd h => exact fresh_openWith hc hd h
    | absent hrs h h' => exact reopened hc hrs h h'
    | opened hrs _ _ h h' => exact reopened hc hrs h h'
    | closed hrs h h' => exact reopened hc hrs h h'
  | same hr =>
    cases h with
    | fresh hd h =>
      rw [r.run_none hr, r.run_none hr]
      exact ⟨rfl, .fresh hd h⟩
    | absent hrs h h' =>
      rw [r.run_none hr, r.run_none hr]
      exact ⟨rfl, .absent hrs h h'⟩
    | opened hrs hc hc' h h' =>
      subst hc
      exact asked hrs hc' h (hc'.symm ▸ h') hlimit r hr
    | @closed c c' _ _ _ _ _ _ hrs h h' =>
      have hshut := askStore_shut c r v
      have hshut' := askStore_shut c' r v'
      cases r with
      | openWith c => exact absurd rfl (hr c)
      | drop => exact ⟨rfl, .absent hrs h h'⟩
      | close | get | set | delete | merge | logSize =>
        simp only [Request.run, hshut, hshut']
        exact ⟨rfl, .closed hrs h h'⟩

end Paired

/-- Two stores, each on its own disk, show the same, but for the timestamps in the index. -/
structure Akin (d d' : Disk) (s s' : Store) : Prop where
  keyCount : s'.keyCount = s.keyCount
  logSize : s'.logSize d' = s.logSize d
  get : ∀ key, s'.get key d' = s.get key d
  index : s'.index.timeless = s.index.timeless

/-- What two runs have come to: the same answer, stores that show the same, and logs that differ
in checksums and timestamps alone. And what is read is the last that was written. -/
structure SameMoment (p : Path) (x x' : Option (Except Error Answer) × Option Store × World) :
    Prop where
  answer : x'.1 = x.1
  store : Option.Rel (Akin x.2.2.disk x'.2.2.disk) x.2.1 x'.2.1
  log : Matched SameButStamps (x.2.2.disk.bytesAt p) (x'.2.2.disk.bytesAt p)
  last : ∀ s, x.2.1 = some s → s.isClosed = false →
    ∃ rs, x.2.2.disk.bytesAt p = .ok (logBytes rs) ∧ (∀ r ∈ rs, r.Fits) ∧
      ∀ key, s.get key x.2.2.disk =
        match lastOf key rs with
        | some r => if r.value = [] then .error .keyNotFound else .ok r.value
        | none => .error .keyNotFound

theorem akin_onLog {c c' : Config} {no no' : FileNo} {rs rs' : List Record} {w w' : World}
    (hrs : AkinLogs rs rs') (h : w.disk.LogAt c.path no rs) (h' : w'.disk.LogAt c'.path no' rs') :
    Akin w.disk w'.disk (onLog c no rs) (onLog c' no' rs') where
  keyCount := by rw [keyCount_onLog, keyCount_onLog, hrs.ofLog_eq]
  logSize := by rw [logSize_onLog h, logSize_onLog h', hrs.length_eq]
  get key := by rw [get_onLog h, get_onLog h', hrs.ofLog_eq]
  index := hrs.timeless_replay rfl _ _

theorem akin_shut (c c' : Config) (d d' : Disk) : Akin d d' (shut c) (shut c') := by
  constructor <;> intros <;> rfl

theorem Paired.sameMoment {p : Path} {x x' : Option (Except Error Answer) × Option Store × World}
    (h : Paired.Goes p x x') : SameMoment p x x' := by
  obtain ⟨a, slot, w⟩ := x
  obtain ⟨a', slot', w'⟩ := x'
  obtain ⟨ha, h⟩ := h
  have hlogs : ∀ {no no' rs rs'}, AkinLogs rs rs' → w.disk.LogAt p no rs →
      w'.disk.LogAt p no' rs' → Matched SameButStamps (w.disk.bytesAt p) (w'.disk.bytesAt p) := by
    intro no no' rs rs' hrs hlog hlog'
    rw [hlog.bytesAt_eq, hlog'.bytesAt_eq]
    exact .ok (hrs.sameButStamps hlog.fits hlog'.fits)
  cases h with
  | fresh hd h =>
    refine ⟨ha, .none, ?_, by simp⟩
    change w'.disk = w.disk at h
    simp only [h]
    cases w.disk.bytesAt p with
    | error e => exact .error e
    | ok bs => exact .ok (.refl bs)
  | absent hrs hlog hlog' => exact ⟨ha, .none, hlogs hrs hlog hlog', by simp⟩
  | opened hrs hc hc' hlog hlog' =>
    refine ⟨ha, .some (akin_onLog hrs (hc.symm ▸ hlog) (hc'.symm ▸ hlog')),
      hlogs hrs hlog hlog', ?_⟩
    rintro _ ⟨⟩ -
    exact ⟨_, hlog.bytesAt_eq, hlog.fits, get_lastOf (hc.symm ▸ hlog)⟩
  | closed hrs hlog hlog' =>
    refine ⟨ha, .some (akin_shut ..), hlogs hrs hlog hlog', ?_⟩
    rintro _ ⟨⟩ hclosed
    cases hclosed

theorem Paired.moments {p : Path} {slot slot' : Option Store} {w w' : World} {ts ts' : List Turn}
    (h : Paired p slot w slot' w') (hts : List.Forall₂ Turn.Akin ts ts')
    (hstay : ∀ t ∈ ts, t.request.StaysAt p) :
    List.Forall₂ (SameMoment p) (Turn.moments ts slot w) (Turn.moments ts' slot' w') := by
  induction hts generalizing slot slot' w w' with
  | nil => exact .nil
  | cons ht _ ih =>
    have hstep := h.step ht (hstay _ List.mem_cons_self)
    exact .cons (sameMoment hstep) (ih hstep.2 fun t ht => hstay t (List.mem_cons_of_mem _ ht))

/-- Clocks, and the rule for the timestamps of merged records, decide timestamps and nothing
else. Two runs on the same files that make the same requests under the same limits are the same
at every moment, whatever their clocks show and wherever they run: they answer alike, hold as
many keys in logs of the same length, and neither the indexes nor the logs differ in anything
but timestamps, and the checksums over them. It is the order in the log that makes a write the
last of its key. -/
theorem clocks_decide_nothing {p : Path} {u u' : World} {ts ts' : List Turn}
    (hd : u.disk.Sound) (hu : u'.disk = u.disk) (hstay : ∀ t ∈ ts, t.request.StaysAt p)
    (hts : List.Forall₂ Turn.Akin ts ts') :
    List.Forall₂ (SameMoment p) (Turn.moments ts none u) (Turn.moments ts' none u') :=
  (Paired.fresh hd hu).moments hts hstay

/-- The second value is the later one although its timestamp is the earlier. -/
theorem clocks_decide_nothing_backwards : ∃ xs xs',
    Turn.moments [⟨9, none, .openWith { path := ['a'] }⟩, ⟨9, none, .set [1] [2]⟩,
      ⟨-1, none, .set [1] [3]⟩, ⟨7, none, .merge⟩] none (World.empty 0) = xs ∧
    Turn.moments [⟨9, none, .openWith { path := ['a'], stamps := .refresh }⟩,
      ⟨4294967296, none, .set [1] [2]⟩, ⟨4294967301, none, .set [1] [3]⟩, ⟨7, none, .merge⟩] none
      (World.empty 8) = xs' ∧
    xs.getLast?.map (fun x => x.2.2.disk.bytesAt ['a']) = some (.ok (logBytes [⟨0, [1], [3]⟩])) ∧
    xs'.getLast?.map (fun x => x.2.2.disk.bytesAt ['a']) = some (.ok (logBytes [⟨7, [1], [3]⟩])) ∧
    List.Forall₂ (SameMoment ['a']) xs xs' := by
  refine ⟨_, _, rfl, rfl, rfl, rfl, ?_⟩
  refine clocks_decide_nothing Sound.empty rfl (by simp [Request.StaysAt]) ?_
  have hset : ∀ key value c, Request.set key value ≠ .openWith c := by simp
  have hmerge : ∀ c, Request.merge ≠ .openWith c := by simp
  exact .cons ⟨rfl, .openWith ⟨rfl, rfl⟩⟩ (.cons ⟨rfl, .same (hset _ _)⟩
    (.cons ⟨rfl, .same (hset _ _)⟩ (.cons ⟨rfl, .same hmerge⟩ .nil)))

end Store

end LogStore
