import LogStore.Proofs.Compaction
import LogStore.Proofs.Disk.Site
import LogStore.Proofs.Index
import LogStore.Proofs.Store.Basic
import LogStore.Store.Merge

/-! A merge that succeeds leaves a log of one record for each live key, and the store of
that log; a merge that fails leaves the log and the store as they were. Which of the two
happens depends on the size of what is live, and on whether the merge file can be named. -/

namespace LogStore

namespace Compactor

variable {c : Compactor} {bs : Bytes} {es : List (Bytes × Entry)}

theorem movesFrom_key (c : Compactor) (bs : Bytes) (o : Nat) (es : List (Bytes × Entry)) :
    (c.movesFrom bs o es).map Move.key = es.map Prod.fst := by
  induction es generalizing o with
  | nil => rfl
  | cons x es ih => simp only [movesFrom, List.map_cons, ih]

theorem movesFrom_new (c : Compactor) (bs : Bytes) (o : Nat) (es : List (Bytes × Entry)) :
    (c.movesFrom bs o es).map (fun m => (m.key, m.new)) =
      (positions o (c.copies bs es)).map fun p => (p.record.key, p.entry c.fileId) := by
  induction es generalizing o with
  | nil => rfl
  | cons x es ih =>
    simp only [movesFrom, List.map_cons, ih]
    rfl

theorem movesFrom_old {o : Nat} {m : Move} (h : m ∈ c.movesFrom bs o es) : (m.key, m.old) ∈ es := by
  induction es generalizing o with
  | nil => cases h
  | cons x es ih =>
    rcases List.mem_cons.mp h with rfl | h
    · exact List.mem_cons_self
    · exact List.mem_cons_of_mem _ (ih h)

theorem copies_value_ne {r : Record} (hin : ∀ x ∈ es, x.2.Inside bs) (hr : r ∈ c.copies bs es) :
    r.value ≠ [] := by
  obtain ⟨x, hx, rfl⟩ := List.mem_map.mp hr
  exact Entry.window_ne_nil (hin x hx)

/-- With all entries moved, the index is that of the log of the copies. -/
theorem retarget_movesFrom (c : Compactor) {ix : Index} (hin : ∀ x ∈ ix.toList, x.2.Inside bs) :
    Index.retarget (c.movesFrom bs 0 ix.toList) ix =
      (ix.size, Index.replay c.fileId ∅ (positions 0 (c.copies bs ix.toList))) := by
  have hold : ∀ m ∈ c.movesFrom bs 0 ix.toList, ix[m.key]? = some m.old := by
    intro m hm
    exact Std.ExtTreeMap.mem_toList_iff_getElem?_eq_some.mp (movesFrom_old hm)
  have hkeys : ((c.movesFrom bs 0 ix.toList).map Move.key).Nodup := by
    rw [movesFrom_key]
    exact ix.nodup_toList
  have hlength : (c.movesFrom bs 0 ix.toList).length = ix.size := by
    rw [← List.length_map (f := Move.key), movesFrom_key, List.length_map,
      Std.ExtTreeMap.length_toList]
  have hvalues : ∀ p ∈ positions 0 (c.copies bs ix.toList), p.record.value ≠ [] :=
    fun p hp => copies_value_ne hin (record_mem_of_positions hp)
  have hcovered : ix.insertMany ((c.movesFrom bs 0 ix.toList).map fun m => (m.key, m.new)) =
      (∅ : Index).insertMany ((c.movesFrom bs 0 ix.toList).map fun m => (m.key, m.new)) := by
    apply Index.insertMany_of_covered
    intro key hkey
    obtain ⟨e, he⟩ := Option.ne_none_iff_exists'.mp hkey
    have hmem : key ∈ (c.movesFrom bs 0 ix.toList).map Move.key := by
      rw [movesFrom_key]
      exact List.mem_map_of_mem (Std.ExtTreeMap.mem_toList_iff_getElem?_eq_some.mpr he)
    simpa only [List.map_map] using! hmem
  rw [Index.retarget_eq_insertMany hold hkeys, hlength, hcovered,
    Index.replay_eq_insertMany _ _ hvalues, ← movesFrom_new]

theorem ofLog_copies (c : Compactor) {ix : Index} {m : Contents} (h : ix.Shows bs m) :
    Contents.ofLog (c.copies bs ix.toList) = m := by
  have hin : ∀ x ∈ ix.toList, x.2.Inside bs :=
    fun x hx => h.inside (Std.ExtTreeMap.mem_toList_iff_getElem?_eq_some.mp hx)
  apply Contents.ext_bytesOf?
  intro key
  rw [Contents.bytesOf?_ofLog, h.same key]
  cases he : ix[key]? with
  | none =>
    have hnone : lastOf key (c.copies bs ix.toList) = none := by
      rw [← Option.not_isSome_iff_eq_none, Option.isSome_iff_exists]
      rintro ⟨r, hr⟩
      obtain ⟨hmem, rfl⟩ := lastOf_mem hr
      obtain ⟨x, hx, rfl⟩ := List.mem_map.mp hmem
      cases he.symm.trans (Std.ExtTreeMap.mem_toList_iff_getElem?_eq_some.mp hx)
    rw [hnone]
    rfl
  | some e =>
    have hcopy : c.copy key e (e.window bs) ∈ c.copies bs ix.toList :=
      List.mem_map.mpr ⟨(key, e), Std.ExtTreeMap.mem_toList_iff_getElem?_eq_some.mpr he, rfl⟩
    obtain ⟨r, hr⟩ := lastOf_of_mem hcopy
    obtain ⟨hmem, hkey⟩ := lastOf_mem hr
    have hne := copies_value_ne hin hmem
    obtain ⟨x, hx, rfl⟩ := List.mem_map.mp hmem
    have hx' := Std.ExtTreeMap.mem_toList_iff_getElem?_eq_some.mp hx
    rw [show x.1 = key from hkey, he] at hx'
    change lastOf key _ = _ at hr
    rw [hr, Option.bind_some, if_neg hne, Option.map_some, Option.some.inj hx']
    rfl

end Compactor

namespace Disk

/-- A log, and beside it a file under the name of its merge file. -/
structure Twin (d : Disk) (p : Path) (parent : List Name) (name : Name) (no i : FileNo) : Prop
    extends Site d p parent name no where
  mergeSeat : Seats d (p.beside ".merge") parent (name ++ ".merge".toList)
  merge : d.tree[parent ++ [name ++ ".merge".toList]]? = some (.file i)

namespace Twin

variable {d d' : Disk} {p : Path} {parent : List Name} {name : Name} {no i : FileNo}
  {rs : List Record}

theorem apart (h : Twin d p parent name no i) : no ≠ i := by
  rintro rfl
  exact beside_ne parent name isEnding_merge (h.sound.apart h.merge h.file)

theorem mergeSite (h : Twin d p parent name no i) :
    Site d (p.beside ".merge") parent (name ++ ".merge".toList) i :=
  ⟨h.sound, h.mergeSeat, h.merge⟩

theorem of_only (h : Twin d p parent name no i) {j : FileNo} (ho : Only j d d') :
    Twin d' p parent name no i :=
  ⟨h.toSite.of_only ho, h.mergeSeat.of_tree_eq ho.tree, ho.tree ▸ h.merge⟩

theorem remove_merge (h : Twin d p parent name no i) (hc : d.content no = logBytes rs)
    (hfits : ∀ r ∈ rs, r.Fits) :
    ∃ d', d.remove (p.beside ".merge") = (.ok (), d') ∧ d'.LogAt p no rs := by
  have hdir : d.tree[parent ++ [name ++ ".merge".toList]]? ≠ some .dir := by
    rw [h.merge]
    rintro ⟨⟩
  have hsite := h.toSite.erase_beside isEnding_merge hdir
  exact ⟨_, by rw [h.mergeSeat.remove_eq, h.merge], ⟨hsite.sound, hsite.lookup_eq, hc⟩, hfits,
    exists?_erase h.mergeSeat h.merge⟩

/-- The merge file takes the place of the log. -/
theorem rename_merge (h : Twin d p parent name no i) (hc : d.content i = logBytes rs)
    (hfits : ∀ r ∈ rs, r.Fits) :
    ∃ d', d.rename (p.beside ".merge") p = (.ok (), d') ∧ d'.LogAt p i rs := by
  have hdirs : KeepsDirs d { d with
      tree := (d.tree.erase (parent ++ [name ++ ".merge".toList])).insert (parent ++ [name])
        (.file i) } :=
    keepsDirs_moved (by rw [h.merge]; rintro ⟨⟩) (by rw [h.file]; rintro ⟨⟩)
  refine ⟨_, h.mergeSeat.rename_eq h.seat h.merge h.file, ⟨h.sound.moved h.merge _, ?_, hc⟩,
    hfits, ?_⟩
  · rw [(h.seat.of_dirs hdirs).lookup_eq, getElem?_moved, if_pos rfl]
  · rw [(h.mergeSeat.of_dirs hdirs).exists?_eq, getElem?_moved,
      if_neg (Ne.symm (beside_ne parent name isEnding_merge)), if_pos rfl]
    rfl

end Twin

theorem LogAt.create_merge {d : Disk} {p : Path} {no : FileNo} {rs : List Record}
    (h : d.LogAt p no rs) (hl : (p.beside ".merge").tooLong = false) :
    ∃ parent name d', d.openWrite (p.beside ".merge") = (.ok d.fresh, d') ∧
      d'.content no = logBytes rs ∧ d'.content d.fresh = [] ∧ d'.limit = d.limit ∧
      Twin d' p parent name no d.fresh := by
  obtain ⟨parent, name, hs⟩ := site_of_lookup h.holds.sound h.holds.lookup
  have hm := hs.seat.beside isEnding_merge hl
  have hnone : d.tree[parent ++ [name ++ ".merge".toList]]? = none :=
    hm.exists?_eq_false_iff.mp h.quiet
  have hne : no ≠ d.fresh := (h.holds.sound.below hs.file).ne
  refine ⟨parent, name, (d.create parent (name ++ ".merge".toList)).2,
    by rw [hm.openWrite_eq, hnone], ?_, content_create_self .., rfl,
    hs.create_beside isEnding_merge hnone, hm.of_dirs (keepsDirs_create hnone), ?_⟩
  · rw [content_create_of_ne _ _ _ hne, h.holds.content]
  · rw [getElem?_create, if_pos rfl]

end Disk

namespace Store

open Disk Compactor

variable {bs : Bytes} {no : FileNo}

/-- All values are copied, in order, or the log of the copies is too large. -/
theorem copyAll_spec {c₀ c : Compactor} {d : Disk} {done todo : List (Bytes × Entry)}
    (h : Copied c₀ bs done c d) (hd : d.Sound) (hbs : d.content no = bs) (hne : no ≠ c₀.file)
    (htodo : ∀ x ∈ todo, x.2.Inside bs ∧ (c₀.copy x.1 x.2 (x.2.window bs)).Fits) :
    ∃ c' d', Only c₀.file d d' ∧
      ((copyAll (Segments.single ⟨Config.activeFile, .file no⟩) todo c d = (.ok (), c', d') ∧
          Copied c₀ bs (done ++ todo) c' d') ∨
        (copyAll (Segments.single ⟨Config.activeFile, .file no⟩) todo c d =
            (.error (.io .fileTooLarge), c', d') ∧ c'.file = c₀.file ∧
          ceiling d.limit < (logBytes (c₀.copies bs (done ++ todo))).length)) := by
  induction todo generalizing c d done with
  | nil => exact ⟨c, d, .refl .., .inl ⟨rfl, by rwa [List.append_nil]⟩⟩
  | cons x todo ih =>
    obtain ⟨hin, hfits⟩ := htodo x List.mem_cons_self
    have hread : Segments.read (Segments.single ⟨Config.activeFile, .file no⟩) x.2 d =
        .ok (x.2.window bs) := by
      rw [Segments.read_single (hbs ▸ hin) hd, hbs]
    obtain ⟨c₁, d₁, ho, ⟨ha, h₁⟩ | ⟨ha, hfile, hfull⟩⟩ := h.add_spec hin hfits
    · obtain ⟨c', d', ho', hrest⟩ := ih h₁ (hd.of_only ho) ((ho.others no hne).trans hbs)
        fun y hy => htodo y (List.mem_cons_of_mem _ hy)
      rw [List.append_assoc, List.singleton_append, ho.limit] at hrest
      refine ⟨c', d', ho.trans ho', ?_⟩
      simpa only [copyAll, hread, ha] using hrest
    · refine ⟨c₁, d₁, ho, .inr ⟨by simp only [copyAll, hread, ha], hfile, ?_⟩⟩
      rw [List.append_cons, copies, List.map_append, logBytes_append, List.length_append]
      exact Nat.lt_add_right _ hfull

def blank (c : Config) (no : FileNo) (now : UInt32) : Compactor :=
  ⟨c.mergePath, no, 0, [], Config.activeFile, c.stamps, now, 0, []⟩

def merged (c : Config) (now : UInt32) (rs : List Record) : List Record :=
  (blank c 0 now).copies (logBytes rs)
    (Index.replay Config.activeFile ∅ (positions 0 rs)).toList

theorem inside_live {rs : List Record} {x : Bytes × Entry}
    (hx : x ∈ (Index.replay Config.activeFile ∅ (positions 0 rs)).toList) :
    x.2.Inside (logBytes rs) :=
  (Index.Shows.ofLog rs).inside (Std.ExtTreeMap.mem_toList_iff_getElem?_eq_some.mp hx)

theorem fits_copy {rs : List Record} {x : Bytes × Entry} (hfits : ∀ r ∈ rs, r.Fits)
    (hx : x ∈ (Index.replay Config.activeFile ∅ (positions 0 rs)).toList) (c : Compactor) :
    (c.copy x.1 x.2 (x.2.window (logBytes rs))).Fits := by
  have hlive : (Contents.ofLog rs).bytesOf? x.1 = some (x.2.window (logBytes rs)) := by
    rw [(Index.Shows.ofLog rs).same, Std.ExtTreeMap.mem_toList_iff_getElem?_eq_some.mp hx,
      Option.map_some]
  obtain ⟨r, hr, hkey, hvalue⟩ := Contents.exists_record hlive
  have := hfits r hr
  exact ⟨hkey ▸ this.1, hvalue ▸ this.2⟩

theorem fits_merged {c : Config} {now : UInt32} {rs : List Record} (hfits : ∀ r ∈ rs, r.Fits) :
    ∀ r ∈ merged c now rs, r.Fits := by
  intro r hr
  obtain ⟨x, hx, rfl⟩ := List.mem_map.mp hr
  exact fits_copy hfits hx _

theorem ofLog_merged (c : Config) (now : UInt32) (rs : List Record) :
    Contents.ofLog (merged c now rs) = Contents.ofLog rs :=
  ofLog_copies _ (Index.Shows.ofLog rs)

theorem pairs_merged (c : Config) (now : UInt32) (rs : List Record) :
    (merged c now rs).map (fun r => (r.key, r.value)) =
      ((Contents.ofLog rs).map fun _ v => v.val).toList := by
  rw [(Index.Shows.ofLog rs).map_eq, Std.ExtTreeMap.toList_map, merged, copies, List.map_map]
  rfl

theorem length_merged (c : Config) (now : UInt32) (rs : List Record) :
    (logBytes (merged c now rs)).length = (Contents.ofLog rs).liveBytes := by
  have hpairs := congrArg (List.map fun x : Bytes × Bytes => Header.size + x.1.length + x.2.length)
    (pairs_merged c now rs)
  rw [Std.ExtTreeMap.toList_map, List.map_map, List.map_map] at hpairs
  rw [logBytes_length, Contents.liveBytes]
  exact congrArg List.sum hpairs

variable {c : Config} {rs : List Record} {w : World}

section

variable {s : Store} {co co' : Compactor} {d d' d₂ : Disk}
  (hcreate : Compactor.create s.config.mergePath Config.activeFile s.config.stamps w =
    (.ok co, { w with disk := d }))

include hcreate

theorem writeMerged_of_finish {x : Except Error Compacted}
    (hcopy : copyAll s.segments s.index.toList co d = (.ok (), co', d'))
    (hfinish : co'.finish d' = (x, d₂)) : s.writeMerged w = (x, { w with disk := d₂ }) := by
  rw [writeMerged, Action.bind_ok hcreate]
  cases x <;> simp only [hcopy, hfinish]

theorem writeMerged_of_stop {e : Error}
    (hcopy : copyAll s.segments s.index.toList co d = (.error e, co', d')) :
    s.writeMerged w = (.error e, { w with disk := co'.abandon d' }) := by
  rw [writeMerged, Action.bind_ok hcreate]
  simp only [hcopy]

end

/-- A fresh log is written beside the old one, or it does not fit. -/
theorem writeMerged_spec (h : w.disk.LogAt c.path no rs) (hl : c.mergePath.tooLong = false) :
    ∃ parent name i d', Twin d' c.path parent name no i ∧ d'.content no = logBytes rs ∧
      (((onLog c no rs).writeMerged w = (.ok ⟨c.mergePath, (blank c i w.now).movesFrom (logBytes rs)
            0 (onLog c no rs).index.toList, (logBytes (merged c w.now rs)).length⟩,
            { w with disk := d' }) ∧
          d'.content i = logBytes (merged c w.now rs) ∧
          (logBytes (merged c w.now rs)).length ≤ ceiling w.disk.limit) ∨
        ((onLog c no rs).writeMerged w = (.error (.io .fileTooLarge), { w with disk := d' }) ∧
          ceiling w.disk.limit < (logBytes (merged c w.now rs)).length)) := by
  obtain ⟨parent, name, d₁, hopen, hold, hnew, hlimit, htwin⟩ := h.create_merge hl
  change openWrite c.mergePath w.disk = _ at hopen
  have hempty : Only w.disk.fresh d₁ (d₁.setContent w.disk.fresh []) :=
    .setContent (Nat.zero_le _)
  have hcreate : Compactor.create c.mergePath Config.activeFile c.stamps w =
      (.ok (blank c w.disk.fresh w.now),
        { w with disk := d₁.setContent w.disk.fresh [] }) := create_ok hopen _ _
  have hstart : Copied (blank c w.disk.fresh w.now) (logBytes rs) [] (blank c w.disk.fresh w.now)
      (d₁.setContent w.disk.fresh []) := by
    refine ⟨⟨?_, ?_, Nat.zero_le _⟩, rfl⟩ <;> simp [blank, copies]
  obtain ⟨c₁, d₂, ho, hcopy⟩ := copyAll_spec hstart (htwin.of_only hempty).sound
    ((hempty.others no htwin.apart).trans hold) htwin.apart
    fun x hx => ⟨inside_live hx, fits_copy h.fits hx _⟩
  have hlim : ceiling (d₁.setContent w.disk.fresh []).limit = ceiling w.disk.limit := by
    rw [hempty.limit, hlimit]
  rw [List.nil_append, hlim] at hcopy
  rcases hcopy with ⟨hcopy, h₁⟩ | ⟨hcopy, hfile, hfull⟩
  · obtain ⟨d₃, ho₃, hfinish⟩ := h₁.finish_spec
    have hall := hempty.trans (ho.trans ho₃)
    rw [ho.limit, hlim] at hfinish
    refine ⟨parent, name, _, d₃, htwin.of_only hall, (hall.others no htwin.apart).trans hold, ?_⟩
    rcases hfinish with ⟨hfinish, hc, hle⟩ | ⟨hfinish, hfull⟩
    · exact .inl ⟨writeMerged_of_finish (s := onLog c no rs) hcreate hcopy hfinish, hc, hle⟩
    · exact .inr ⟨writeMerged_of_finish (s := onLog c no rs) hcreate hcopy hfinish, hfull⟩
  · have hall := hempty.trans (ho.trans (hfile ▸ only_abandon c₁ d₂))
    refine ⟨parent, name, _, c₁.abandon d₂, htwin.of_only hall,
      (hall.others no htwin.apart).trans hold,
      .inr ⟨writeMerged_of_stop (s := onLog c no rs) hcreate hcopy, hfull⟩⟩

/-- A finished fresh log takes the place of the old one, and the store follows it. -/
theorem install_spec (rs : List Record) {parent : List Name} {name : Name} {i : FileNo}
    {moved : List Record} {moves : List Move} {n k : Nat} (ht : Twin w.disk c.path parent name no i)
    (hc : w.disk.content i = logBytes moved) (hfits : ∀ r ∈ moved, r.Fits)
    (hindex : Index.retarget moves (onLog c no rs).index =
      (k, Index.replay Config.activeFile ∅ (positions 0 moved))) :
    ∃ d', (onLog c no rs).install ⟨c.mergePath, moves, n⟩ w =
        (.ok (k, onLog c i moved), { w with disk := d' }) ∧ d'.LogAt c.path i moved := by
  obtain ⟨d', hrename, hlog⟩ := ht.rename_merge hc hfits
  refine ⟨d', ?_, hlog⟩
  have hopen : Appender.openEnd c.mergePath Config.activeFile w =
      (.ok (Appender.behind i (logBytes moved)), w) := by
    rw [← hc]
    exact Appender.openEnd_site ht.mergeSite
  have hsegment : Action.ask (Segment.openFile Config.activeFile c.mergePath) w =
      (.ok ⟨Config.activeFile, .file i⟩, w) := by
    have hlook : w.disk.lookup c.mergePath = .ok (.file i) := ht.mergeSite.lookup_eq
    simp only [Action.ask, Segment.openFile, hlook]
  have hcommit : commit ⟨c.mergePath, moves, n⟩ c.path (onLog c no rs).index w.disk =
      (.ok (k, Index.replay Config.activeFile ∅ (positions 0 moved)), d') := by
    change w.disk.rename c.mergePath c.path = _ at hrename
    simp only [commit, hrename, hindex]
  unfold install
  rw [Action.bind_ok hopen, Action.bind_ok hsegment]
  simp only [Segments.swap, onLog, segments_onLog_ne, Bool.false_eq_true, if_false]
    at hcommit ⊢
  simp only [hcommit, Segments.insert_single]

theorem discard_spec {parent : List Name} {name : Name} {i : FileNo}
    (ht : Twin w.disk c.path parent name no i) (hc : w.disk.content no = logBytes rs)
    (hfits : ∀ r ∈ rs, r.Fits) :
    ∃ d', discard c.mergePath w = { w with disk := d' } ∧ d'.LogAt c.path no rs := by
  obtain ⟨d', hremove, hlog⟩ := ht.remove_merge hc hfits
  change Disk.remove c.mergePath w.disk = _ at hremove
  exact ⟨d', by simp only [discard, hremove], hlog⟩

/-- A merge leaves the store of what it made of the log, if that fits under the limit, and
else the store and the log as they were. -/
theorem merge_onLog (h : w.disk.LogAt c.path no rs) (hl : c.mergePath.tooLong = false) :
    ((Contents.ofLog rs).liveBytes ≤ ceiling w.disk.limit ∧ ∃ i d,
        (onLog c no rs).merge w = (.ok (), onLog c i (merged c w.now rs),
          World.report { w with disk := d } (.merged c.path (logBytes rs).length
            (Contents.ofLog rs).liveBytes (onLog c no rs).keyCount)) ∧
        d.LogAt c.path i (merged c w.now rs)) ∨
      (ceiling w.disk.limit < (Contents.ofLog rs).liveBytes ∧ ∃ d,
        (onLog c no rs).merge w =
          (.error (.io .fileTooLarge), onLog c no rs, { w with disk := d }) ∧
        d.LogAt c.path no rs) := by
  obtain ⟨parent, name, i, d, ht, hold, hwrite⟩ := writeMerged_spec h hl
  rw [length_merged] at hwrite
  rcases hwrite with ⟨hwrite, hnew, hle⟩ | ⟨hwrite, hlt⟩
  · obtain ⟨d', hinstall, hlog⟩ := install_spec rs (n := (Contents.ofLog rs).liveBytes)
      (w := { w with disk := d }) ht hnew (fits_merged h.fits)
      (retarget_movesFrom (blank c i w.now) fun x hx => inside_live hx)
    refine .inl ⟨hle, i, d', ?_, hlog⟩
    unfold merge
    simp only [hwrite, hinstall]
    rfl
  · obtain ⟨d', hdiscard, hlog⟩ := discard_spec (w := { w with disk := d }) ht hold h.fits
    refine .inr ⟨hlt, d', ?_, hlog⟩
    unfold merge
    simp only [hwrite]
    change (Except.error _, onLog c no rs, discard c.mergePath _) = _
    rw [hdiscard]

/-- Without a name for the fresh log, none is written. -/
theorem writeMerged_tooLong (h : w.disk.LogAt c.path no rs) (hl : c.mergePath.tooLong = true) :
    (onLog c no rs).writeMerged w = (.error (.io .nameTooLong), w) := by
  obtain ⟨parent, name, hs, -⟩ := seats_of_lookup h.holds.lookup
  obtain ⟨-, hopen, -⟩ := hs.tooLong_beside isEnding_merge hl
  change openWrite c.mergePath w.disk = _ at hopen
  have hcreate : Compactor.create c.mergePath Config.activeFile c.stamps w =
      (.error (.io .nameTooLong), w) := create_error hopen _ _
  exact Action.bind_error hcreate _

/-- Without a name for the merge file, a merge changes nothing. -/
theorem merge_tooLong (h : w.disk.LogAt c.path no rs) (hl : c.mergePath.tooLong = true) :
    ∃ w', (onLog c no rs).merge w = (.error (.io .nameTooLong), onLog c no rs, w') ∧
      w'.disk = w.disk := by
  obtain ⟨parent, name, hs, -⟩ := seats_of_lookup h.holds.lookup
  obtain ⟨-, -, hremove⟩ := hs.tooLong_beside isEnding_merge hl
  change Disk.remove c.mergePath w.disk = _ at hremove
  refine ⟨w.report (.removeFailed c.mergePath .nameTooLong), ?_, rfl⟩
  unfold merge
  simp only [writeMerged_tooLong h hl]
  simp [onLog, discard, hremove]

end Store

end LogStore
