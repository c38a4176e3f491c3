import LogStore.Proofs.Store.MergeFrame

/-! A merge that fails changes nothing, whatever has become of the disk under the open store.
The store is what it was, the path of the log leads where it led, and no file is left at the
path of the merge file. That path is for merges, and a file that stands there is written over:
all others keep their bytes, and all later answers are what they were unless that file is one
that the store has open, or has another name. A disk has no symbolic links, and refuses nothing
for want of permission. -/

namespace LogStore

namespace Disk

/-- A merge has failed: the path `p` of the log leads where it led, no file is left at the path
`m` of the merge file, and at most the one that stood there has other bytes. -/
structure Undone (p m : Path) (d d' : Disk) : Prop where
  lookup : d'.lookup p = d.lookup p
  gone : ∀ i, d'.lookup m ≠ .ok (.file i)
  kept : ∀ i < d.fresh, d.lookup m ≠ .ok (.file i) → d'.content i = d.content i

namespace Undone

variable {d d₁ d' : Disk} {p m : Path} {parent : List Name} {name : Name} {k : FileNo}

theorem of_refused {e : IoError} (h : d.openWrite m = (.error e, d)) : Undone p m d d where
  lookup := rfl
  gone i hi := by
    obtain ⟨parent, name, hs, hf⟩ := seats_of_lookup hi
    have heq := hs.openWrite_eq
    rw [h, hf] at heq
    cases heq
  kept _ _ _ := rfl

theorem of_put {ending : String} (he : Path.IsEnding ending)
    (hs : Seats d (p.beside ending) parent name) (hput : Put d d₁ (parent ++ [name]) k)
    (herased : Erased d₁ d' (parent ++ [name])) : Undone p (p.beside ending) d d' := by
  have hseat : Seats d' (p.beside ending) parent name :=
    (hput.seats hs).of_dirs (herased.keepsDirs (by rw [hput.tree, if_pos rfl]; rintro ⟨⟩))
  constructor
  case lookup =>
    refine lookup_of_beside_eq he hs hseat fun names hne => ?_
    rw [herased.tree, if_neg hne, hput.tree, if_neg hne]
  case gone =>
    intro i hi
    rw [hseat.lookup_eq, herased.tree, if_pos rfl] at hi
    cases hi
  case kept =>
    intro i hi hne
    rw [herased.content_eq]
    refine hput.others i hi ?_
    rintro rfl
    rcases hput.was with hwas | ⟨-, hfresh⟩
    · exact hne (hs.lookup_file_iff.mpr hwas)
    · exact absurd hfresh hi.ne

theorem bytesAt_eq (h : Undone p m d d') (hd : d.Numbered)
    (hne : ∀ i, d.lookup p = .ok (.file i) → d.lookup m ≠ .ok (.file i)) :
    d'.bytesAt p = d.bytesAt p := by
  rw [bytesAt, bytesAt, h.lookup]
  cases hl : d.lookup p with
  | error cause => rfl
  | ok node =>
    cases node with
    | dir => rfl
    | file i =>
      obtain ⟨_, _, -, hf⟩ := seats_of_lookup hl
      exact congrArg Except.ok (h.kept i (hd _ _ hf) (hne i hl))

end Undone

end Disk

open Disk

namespace Store

/-- The file is behind one of the handles. -/
def Uses (s : Store) (i : FileNo) : Prop :=
  (∃ a, s.appender = some a ∧ a.file = i) ∨
    ∃ (id : FileId) (segment : Segment), s.segments[id]? = some segment ∧ segment.node = .file i

/-- A store may stand in a world in this way: it has been opened there, requests have been put
to it, and meanwhile the disk and the clock have been changed from outside in any way, but for
the numbers that files have been given. A file may have got several names, or none. -/
inductive Reached : Store → World → Prop
  | opened {c : Config} {s : Store} {w w' : World} (hd : w.disk.Numbered)
    (h : openWith c w = (.ok s, w')) : Reached s w'
  | asked {r : Request} {s s' : Store} {w w' : World} {x : Option (Except Error Answer)}
    (h : Reached s w) (hr : r.run (some s) w = (x, some s', w')) : Reached s' w'
  | disturbed {s : Store} {w w' : World} (h : Reached s w) (hd : w'.disk.Numbered)
    (hf : w.disk.fresh ≤ w'.disk.fresh) : Reached s w'

/-- A file at the path of the merge file is not one that the store has open, and it has no
other name. -/
def SparesMerge (s : Store) (d : Disk) : Prop :=
  ∀ i, d.lookup s.config.mergePath = .ok (.file i) →
    ¬ s.Uses i ∧ ∃! names : List Name, d.tree[names]? = some (.file i)

variable {R : Numbering} {s s' : Store} {w w' : World}

theorem Mirrors.uses (h : Mirrors R s s') {i : FileNo} (hi : s.Uses i) : ∃ j, R i j := by
  rcases hi with ⟨a, ha, rfl⟩ | ⟨id, segment, hs, hn⟩
  · have hrel := h.appender
    rw [ha] at hrel
    generalize s'.appender = y at hrel
    cases hrel with
    | some ha =>
      cases ha with
      | mk hij => exact ⟨_, hij⟩
  · have hrel := h.segments id
    rw [hs] at hrel
    generalize s'.segments[id]? = y at hrel
    cases hrel with
    | some hs =>
      cases hs with
      | mk hnode =>
        rw [hn] at hnode
        cases hnode with
        | file hij => exact ⟨_, hij⟩

theorem Mirrors.of_uses (h : ∀ i, s.Uses i → R i i) : Mirrors R s s := by
  refine (.mk (fun id => ?_) ?_ :
    Mirrors R s { s with segments := s.segments, appender := s.appender })
  · cases hs : s.segments[id]? with
    | none => exact .none
    | some segment =>
      have hnode : Node.Mirrors R segment.node segment.node := by
        cases hn : segment.node with
        | dir => exact .dir
        | file i => exact .file (h i (.inr ⟨id, segment, hs, hn⟩))
      exact .some (.mk hnode)
  · cases ha : s.appender with
    | none => exact .none
    | some a => exact .some (.mk (h _ (.inl ⟨a, ha, rfl⟩)))

/-- The files behind the handles are files of the disk. -/
theorem Reached.uses_below (h : Reached s w) :
    w.disk.Numbered ∧ ∀ i, s.Uses i → i < w.disk.fresh := by
  induction h with
  | @opened c s w w' hd h =>
    obtain ⟨R, -, hw, hm⟩ := mirrors_openWith c _ le_rfl (⟨.refl hd, rfl⟩ : World.Mirrors _ w w)
    rw [h] at hw hm
    cases hm with
    | ok hs =>
      refine ⟨hw.disk.numbered, fun i hi => ?_⟩
      obtain ⟨j, hij⟩ := hs.uses hi
      exact (hw.disk.below hij).1
  | @asked r s s' w w' x _ hr ih =>
    obtain ⟨hd, huses⟩ := ih
    obtain ⟨R, -, -, hslot, hw⟩ := r.mirrors_run (.some (.of_uses fun i hi => ⟨huses i hi, rfl⟩))
      (⟨.refl hd, rfl⟩ : World.Mirrors _ w w)
    rw [hr] at hslot hw
    cases hslot with
    | some hs =>
      refine ⟨hw.disk.numbered, fun i hi => ?_⟩
      obtain ⟨j, hij⟩ := hs.uses hi
      exact (hw.disk.below hij).1
  | disturbed _ hd hf ih => exact ⟨hd, fun i hi => (ih.2 i hi).trans_le hf⟩

/-- The store that is there after any turns has been reached. -/
theorem Reached.run {slot : Option Store} (h : ∀ s, slot = some s → Reached s w)
    (hd : w.disk.Sound) (t : Turn) :
    ∀ s, (t.run slot w).2.1 = some s → Reached s (t.run slot w).2.2 := by
  intro s' hs'
  cases slot with
  | some s =>
    have hentered : Reached s (t.enter w) := .disturbed (h s rfl) hd.numbered le_rfl
    exact .asked hentered (Prod.ext rfl (Prod.ext hs' rfl))
  | none =>
    unfold Turn.run at hs' ⊢
    cases hr : t.request with
    | openWith c =>
      rw [hr, Request.run] at hs'
      rw [Request.run]
      rcases hopen : openWith c (t.enter w) with ⟨_ | s, v⟩ <;> rw [hopen] at hs' <;> cases hs'
      exact .opened (w := t.enter w) hd.numbered hopen
    | drop | get | set | delete | merge | close | logSize =>
      rw [hr] at hs'
      cases hs'

theorem Reached.runAll {slot : Option Store} (h : ∀ s, slot = some s → Reached s w)
    (hd : w.disk.Sound) {ts : List Turn} {v : World}
    (hrun : Turn.runAll ts slot w = (some s, v)) : Reached s v := by
  induction ts generalizing slot w with
  | nil =>
    cases hrun
    exact h s rfl
  | cons t ts ih => exact ih (Reached.run h hd t) (sound_run _ _ (hd.withLimit _)) hrun

/-- Whatever a merge that has failed has come to. -/
theorem Reached.undone {e : Error} (h : Reached s w) (hopened : s.isClosed = false)
    (hm : s.merge w = (.error e, s', w')) :
    s' = s ∧ Undone s.config.path s.config.mergePath w.disk w'.disk ∧
      (s.SparesMerge w.disk → Indistinct s.config.path (some s, w) (some s, w')) := by
  obtain ⟨hd, huses⟩ := h.uses_below
  have hsome : s.appender.isSome := by
    rwa [isClosed, ← Option.not_isSome, Bool.not_eq_false'] at hopened
  rcases merge_frame hd hsome hm with ⟨io, hopen, -, rfl, hdisk, hclock⟩ |
    ⟨parent, name, k, d, hs, hput, ⟨_, -, rfl, herased, hclock⟩ | ⟨hok, -⟩⟩
  · -- no file could be opened for the merge
    have hstore : Mirrors (.own w.disk) s' s' := .of_uses fun i hi => ⟨huses i hi, rfl⟩
    have hworld : World.Mirrors (.own w.disk) w w' := ⟨by rw [hdisk]; exact .refl hd, hclock⟩
    exact ⟨rfl, by rw [hdisk]; exact .of_refused hopen, fun _ => ⟨_, .some hstore, .inl hworld⟩⟩
  · -- a file was written, and its name taken away
    refine ⟨rfl, .of_put isEnding_merge hs hput herased, fun hspares => ?_⟩
    have hplace : ∀ {i}, w.disk.tree[parent ++ [name]]? = some (.file i) →
        w.disk.lookup s'.config.mergePath = .ok (.file i) := fun hi => hs.lookup_file_iff.mpr hi
    have hlone : ∀ names i, w.disk.tree[parent ++ [name]]? = some (.file i) →
        w.disk.tree[names]? = some (.file i) → parent ++ [name] = names := fun names i hi hn =>
      (hspares i (hplace hi)).2.unique hi hn
    have hleft := ((Disk.Mirrors.refl hd).leftover_of_put hlone hs hput).erased_right herased
    have hstore : Mirrors (Numbering.leaving (.own w.disk) w.disk (parent ++ [name])) s' s' :=
      .of_uses fun i hi => ⟨⟨huses i hi, rfl⟩, fun hi' => (hspares i (hplace hi')).1 hi⟩
    exact ⟨_, .some hstore, .inr ⟨parent, name, hleft, hclock⟩⟩
  · cases hok

/-- A failed merge leaves the store as it is, and the log; nothing else is left of it either,
unless it has written over a file that can still be found. -/
theorem failed_merge {e : Error} (h : Reached s w) (hopened : s.isClosed = false)
    (hm : s.merge w = (.error e, s', w')) :
    s' = s ∧ w'.disk.lookup s.config.path = w.disk.lookup s.config.path ∧
      (∀ i, w'.disk.lookup s.config.mergePath ≠ .ok (.file i)) ∧
      (∀ i, s.Uses i → w.disk.lookup s.config.mergePath ≠ .ok (.file i) →
        w'.disk.content i = w.disk.content i) ∧
      ((∀ i, w.disk.lookup s.config.path = .ok (.file i) →
          w.disk.lookup s.config.mergePath ≠ .ok (.file i)) →
        w'.disk.bytesAt s.config.path = w.disk.bytesAt s.config.path) ∧
      (s.SparesMerge w.disk → ∀ ts, (∀ t ∈ ts, t.request.StaysAt s.config.path) →
        Turn.chronicle s.config.path ts (some s) w' =
          Turn.chronicle s.config.path ts (some s) w) := by
  obtain ⟨hd, huses⟩ := h.uses_below
  obtain ⟨rfl, hundone, hsame⟩ := h.undone hopened hm
  have hatPath : AtPath s'.config.path (some s') := by
    rintro _ ⟨⟩ -
    rfl
  exact ⟨rfl, hundone.lookup, hundone.gone, fun i hi => hundone.kept i (huses i hi),
    hundone.bytesAt_eq hd, fun hspares _ hstay => (hsame hspares).chronicle_eq hatPath hstay⟩

/-- A file has been left at the path of the merge file, and now there is no room. -/
def leftNoRoom (p : Path) (w : World) : World :=
  { w with disk := { (w.disk.putFile (p.beside ".merge") [7]).2 with limit := some 0 } }

theorem failed_merge_full : ∃ s v e w',
    Turn.runAll [⟨0, none, .openWith { path := ['a'] }⟩, ⟨0, none, .set [1] [2]⟩] none
      (World.empty 0) = (some s, v) ∧
    (leftNoRoom ['a'] v).disk.bytesAt (Path.beside ['a'] ".merge") = .ok [7] ∧
    s.merge (leftNoRoom ['a'] v) = (.error e, s, w') ∧
    (∀ i, w'.disk.lookup (Path.beside ['a'] ".merge") ≠ .ok (.file i)) ∧
    w'.disk.bytesAt ['a'] = v.disk.bytesAt ['a'] ∧
    Turn.chronicle ['a'] [⟨0, none, .get [1]⟩, ⟨0, none, .merge⟩] (some s) w' =
      Turn.chronicle ['a'] [⟨0, none, .get [1]⟩, ⟨0, none, .merge⟩] (some s)
        (leftNoRoom ['a'] v) := by
  obtain ⟨s, v, e, w', hrun, hm, hopened, hpath, hfresh, hfresh', hleft, hbytes, hlog, hkept⟩ :
      ∃ s v e w',
      Turn.runAll [⟨0, none, .openWith { path := ['a'] }⟩, ⟨0, none, .set [1] [2]⟩] none
        (World.empty 0) = (some s, v) ∧
      s.merge (leftNoRoom ['a'] v) = (.error e, s, w') ∧ s.isClosed = false ∧
      s.config.path = ['a'] ∧ v.disk.fresh = 1 ∧ (leftNoRoom ['a'] v).disk.fresh = 2 ∧
      (leftNoRoom ['a'] v).disk.lookup (Path.beside ['a'] ".merge") = .ok (.file 1) ∧
      (leftNoRoom ['a'] v).disk.bytesAt (Path.beside ['a'] ".merge") = .ok [7] ∧
      (leftNoRoom ['a'] v).disk.lookup ['a'] = .ok (.file 0) ∧
      (leftNoRoom ['a'] v).disk.bytesAt ['a'] = v.disk.bytesAt ['a'] :=
    ⟨_, _, _, _, rfl, rfl, rfl, rfl, rfl, rfl, rfl, rfl, rfl, rfl⟩
  have hsound : (some s, v).2.disk.Sound := hrun ▸ sound_runAll _ none Sound.empty
  have hreached : Reached s v := .runAll (by rintro _ ⟨⟩) Sound.empty hrun
  have hsound' : (leftNoRoom ['a'] v).disk.Sound := (hsound.putFile _ _).withLimit _
  have hfull : Reached s (leftNoRoom ['a'] v) :=
    .disturbed hreached hsound'.numbered (by rw [hfresh, hfresh']; decide)
  obtain ⟨parent, name, -, hfile⟩ := seats_of_lookup hleft
  have hspares : s.SparesMerge (leftNoRoom ['a'] v).disk := by
    intro i hi
    rw [Config.mergePath, hpath] at hi
    cases hleft.symm.trans hi
    refine ⟨fun huse => ?_, _, hfile, fun names hn => hsound'.apart hn hfile⟩
    have hold := hreached.uses_below.2 1 huse
    rw [hfresh] at hold
    exact lt_irrefl 1 hold
  obtain ⟨-, -, hgone, -, hsame, hlater⟩ := failed_merge hfull hopened hm
  rw [Config.mergePath, hpath] at hgone hsame
  rw [hpath] at hlater
  refine ⟨s, v, e, w', hrun, hbytes, hm, hgone, (hsame fun i hi => ?_).trans hkept,
    hlater hspares _ (by simp [Request.StaysAt])⟩
  cases hlog.symm.trans hi
  rw [hleft]
  nofun

def moveLog (p : Path) (w : World) : World :=
  { w with disk := (w.disk.rename p (p.beside ".merge")).2 }

def linkLog (name : Name) (w : World) : World :=
  { w with disk := { w.disk with
      tree := w.disk.tree.alter [name ++ ".merge".toList] fun _ => w.disk.tree[[name]]? } }

/-- Moved there, the log of an open store is emptied by a merge, which then fails; and so it is
where that path is a second name of it. -/
theorem merge_over_open_log : ∃ s v w' u,
    Turn.runAll [⟨0, none, .openWith { path := ['a'] }⟩, ⟨0, none, .set [1] [2]⟩] none
      (World.empty 0) = (some s, v) ∧ s.isClosed = false ∧ s.Uses 0 ∧
    s.get [1] v.disk = .ok [2] ∧ v.disk.content 0 = Record.bytes ⟨0, [1], [2]⟩ ∧
    Reached s (moveLog ['a'] v) ∧ (moveLog ['a'] v).disk.content 0 = v.disk.content 0 ∧
    s.merge (moveLog ['a'] v) = (.error (.corruptIndex 0 17 1 0), s, w') ∧
    s.get [1] (moveLog ['a'] v).disk = .ok [2] ∧ w'.disk.content 0 = [] ∧
    s.get [1] w'.disk = .error (.corruptIndex 0 17 1 0) ∧
    Reached s (linkLog ['a'] v) ∧ (linkLog ['a'] v).disk.bytesAt ['a'] = v.disk.bytesAt ['a'] ∧
    s.merge (linkLog ['a'] v) = (.error (.corruptIndex 0 17 1 0), s, u) ∧
    u.disk.bytesAt ['a'] = .ok [] := by
  obtain ⟨s, a, v, w', u, hrun, ha, hfile, hfresh, hfresh', hlinked, hrest⟩ : ∃ s a v w' u,
      Turn.runAll [⟨0, none, .openWith { path := ['a'] }⟩, ⟨0, none, .set [1] [2]⟩] none
        (World.empty 0) = (some s, v) ∧ s.appender = some a ∧ a.file = 0 ∧
      (moveLog ['a'] v).disk.fresh = v.disk.fresh ∧ (linkLog ['a'] v).disk.fresh = v.disk.fresh ∧
      (linkLog ['a'] v).disk.bytesAt ['a'] = v.disk.bytesAt ['a'] ∧
      s.isClosed = false ∧
      s.merge (moveLog ['a'] v) = (.error (.corruptIndex 0 17 1 0), s, w') ∧
      s.merge (linkLog ['a'] v) = (.error (.corruptIndex 0 17 1 0), s, u) ∧
      s.get [1] v.disk = .ok [2] ∧ v.disk.content 0 = Record.bytes ⟨0, [1], [2]⟩ ∧
      (moveLog ['a'] v).disk.content 0 = v.disk.content 0 ∧
      s.get [1] (moveLog ['a'] v).disk = .ok [2] ∧ w'.disk.content 0 = [] ∧
      s.get [1] w'.disk = .error (.corruptIndex 0 17 1 0) ∧ u.disk.bytesAt ['a'] = .ok [] :=
    ⟨_, _, _, _, _, rfl, rfl, rfl, rfl, rfl, rfl, rfl, rfl, rfl, rfl, rfl, rfl, rfl, rfl, rfl, rfl⟩
  have hsound : (some s, v).2.disk.Sound := hrun ▸ sound_runAll _ none Sound.empty
  have hreached : Reached s v := .runAll (by rintro _ ⟨⟩) Sound.empty hrun
  have hmoved : Reached s (moveLog ['a'] v) :=
    .disturbed hreached (hsound.rename _ _).numbered hfresh.ge
  have hlink : Reached s (linkLog ['a'] v) := by
    refine .disturbed hreached (fun names i hn => ?_) hfresh'.ge
    rw [hfresh']
    simp only [linkLog, Std.ExtTreeMap.getElem?_alter] at hn
    split at hn
    · exact hsound.below hn
    · exact hsound.below hn
  obtain ⟨hopened, hm, hm', hget, hlog, hsame, hstill, hempty, hlost, hgone⟩ := hrest
  exact ⟨s, v, w', u, hrun, hopened, .inl ⟨a, ha, hfile⟩, hget, hlog, hmoved, hsame, hm, hstill,
    hempty, hlost, hlink, hlinked, hm', hgone⟩

end Store

end LogStore
