import LogStore.Proofs.Store.Mirror

/-! Programs on two worlds that mirror each other run in lockstep: they fail alike, or end
with values that go together, and the worlds mirror each other still, the files made
meanwhile included. -/

namespace LogStore

open Disk

def Ends {α β : Type} (R : Numbering) (Q : Numbering → α → β → Prop)
    (x : Except Error α × World) (y : Except Error β × World) : Prop :=
  ∃ R' ≥ R, World.Mirrors R' x.2 y.2 ∧ Matched (Q R') x.1 y.1

namespace Action

variable {α β γ δ : Type} {R : Numbering} {Q : Numbering → α → β → Prop}
  {P : Numbering → γ → δ → Prop}

/-- The actions run in lockstep, from now on. -/
def Mirrors (R : Numbering) (Q : Numbering → α → β → Prop) (x : Action α) (y : Action β) : Prop :=
  ∀ R' ≥ R, ∀ {w w' : World}, World.Mirrors R' w w' → Ends R' Q (x w) (y w')

namespace Mirrors

theorem pure {a : α} {b : β} (h : ∀ R' ≥ R, Q R' a b) :
    Mirrors R Q (Pure.pure a : Action α) (Pure.pure b : Action β) :=
  fun R' hR _ _ hw => ⟨R', le_rfl, hw, .ok (h R' hR)⟩

theorem throw (e : Error) :
    Mirrors R Q (MonadExcept.throw e : Action α) (MonadExcept.throw e : Action β) :=
  fun R' _ _ _ hw => ⟨R', le_rfl, hw, .error e⟩

theorem world : Mirrors R World.Mirrors Action.world Action.world :=
  fun R' _ _ _ hw => ⟨R', le_rfl, hw, .ok hw⟩

theorem report (e e' : Event) : Mirrors R (fun _ _ _ => True) (report e) (report e') :=
  fun R' _ _ _ hw => ⟨R', le_rfl, ⟨hw.disk, hw.clock⟩, .ok trivial⟩

theorem ask {f g : Disk → Except Error α} {Q : Numbering → α → α → Prop}
    (h : ∀ R' ≥ R, ∀ {d d' : Disk}, Disk.Mirrors R' d d' → Matched (Q R') (f d) (g d')) :
    Mirrors R Q (ask f) (ask g) :=
  fun R' hR _ _ hw => ⟨R', le_rfl, hw, h R' hR hw.disk⟩

theorem onDisk {f : Disk → Except IoError α × Disk} {g : Disk → Except IoError β × Disk}
    (h : ∀ R' ≥ R, ∀ {d d' : Disk}, Disk.Mirrors R' d d' →
      ∃ R'' ≥ R', Disk.Mirrors R'' (f d).2 (g d').2 ∧ Matched (Q R'') (f d).1 (g d').1) :
    Mirrors R Q (onDisk f) (onDisk g) := by
  intro R' hR w w' hw
  obtain ⟨R'', hle, hd, hm⟩ := h R' hR hw.disk
  rcases hx : f w.disk with ⟨x, d⟩
  rcases hy : g w'.disk with ⟨y, d'⟩
  rw [hx, hy] at hd hm
  simp only [Action.onDisk, hx, hy]
  cases hm with
  | error e => exact ⟨R'', hle, ⟨hd, hw.clock⟩, .error _⟩
  | ok hq => exact ⟨R'', hle, ⟨hd, hw.clock⟩, .ok hq⟩

theorem onDisk_same {f g : Disk → Except IoError α × Disk}
    (h : ∀ R' ≥ R, ∀ {d d' : Disk}, Disk.Mirrors R' d d' →
      (g d').1 = (f d).1 ∧ Disk.Mirrors R' (f d).2 (g d').2) :
    Mirrors R (fun _ a b => b = a) (Action.onDisk f) (Action.onDisk g) := by
  refine .onDisk fun R' hR d d' hd => ⟨R', le_rfl, (h R' hR hd).2, ?_⟩
  rw [(h R' hR hd).1]
  cases (f d).1 with
  | error e => exact .error e
  | ok a => exact .ok rfl

theorem bind {x : Action α} {y : Action β} {f : α → Action γ} {g : β → Action δ}
    (h : Mirrors R Q x y) (hf : ∀ R' ≥ R, ∀ {a : α} {b : β}, Q R' a b → Mirrors R' P (f a) (g b)) :
    Mirrors R P (x >>= f) (y >>= g) := by
  intro R₁ h₁ w w' hw
  obtain ⟨R₂, h₂, hv, hm⟩ := h R₁ h₁ hw
  rcases hx : x w with ⟨a, v⟩
  rcases hy : y w' with ⟨b, v'⟩
  rw [hx, hy] at hv hm
  rw [bind_eq, bind_eq, hx, hy]
  cases hm with
  | error e => exact ⟨R₂, h₂, hv, .error e⟩
  | ok hq =>
    obtain ⟨R₃, h₃, hend⟩ := hf R₂ (le_trans h₁ h₂) hq R₂ le_rfl hv
    exact ⟨R₃, le_trans h₂ h₃, hend⟩

theorem andThen {x y : Action α} {f g : α → Action β} {Q : Numbering → α → α → Prop}
    {P : Numbering → β → β → Prop} (h : Mirrors R Q x y) (hf : ∀ a b, Mirrors R P (f a) (g b)) :
    Mirrors R P (x >>= f) (y >>= g) :=
  .bind h fun _ hR a b _ R' hR' => hf a b R' (le_trans hR hR')

end Mirrors

end Action

open LogStore.Action

variable {R : Numbering}

theorem Appender.Mirrors.mono {R' : Numbering} (hle : R ≤ R') {a b : Appender}
    (h : Appender.Mirrors R a b) : Appender.Mirrors R' a b := by
  cases h with
  | mk hij => exact .mk (hle _ _ hij)

theorem Segments.Mirrors.mono {R' : Numbering} (hle : R ≤ R') {a b : Segments}
    (h : Segments.Mirrors R a b) : Segments.Mirrors R' a b :=
  fun id => rel_mono (fun _ _ hs => by cases hs with | mk hn => exact .mk (hn.mono hle)) (h id)

theorem Store.Mirrors.mono {R' : Numbering} (hle : R ≤ R') {s s' : Store}
    (h : Store.Mirrors R s s') : Store.Mirrors R' s s' := by
  cases h with
  | mk hs ha => exact .mk (hs.mono hle) (rel_mono (fun _ _ ha => ha.mono hle) ha)

namespace Appender

theorem mirrors_openEnd (p : Path) (fileId : FileId) :
    Action.Mirrors R Appender.Mirrors (openEnd p fileId) (openEnd p fileId) := by
  refine .bind (Q := fun R i j => R i j) (.onDisk fun R' _ d d' hd => hd.openWrite p) ?_
  intro R₁ _ i j hij
  refine .bind .world fun R₂ h₂ w w' hw => .pure fun R₃ h₃ => ?_
  rw [hw.disk.content (h₂ _ _ hij)]
  exact .mk (le_trans h₂ h₃ _ _ hij)

theorem mirrors_saveTail {i j : FileNo} (hij : R i j) (pos : Nat) (target : Path) :
    Action.Mirrors R (fun _ a b => b = a) (saveTail i pos target) (saveTail j pos target) := by
  refine .bind (Q := fun R i j => R i j) (.onDisk fun R' _ d d' hd => hd.openWrite target) ?_
  intro R₁ h₁ k l hkl
  refine .onDisk_same fun R₂ h₂ d d' hd => ?_
  rw [hd.content (le_trans h₁ h₂ _ _ hij)]
  obtain ⟨hsame, hd'⟩ := (OnTrees.of_sameFiles hd.toSameFiles).appendAll (h₂ _ _ hkl)
    ((d.content i).drop pos)
  exact ⟨hsame, hd.of_onTrees hd'⟩

theorem mirrors_openAfter (p : Path) (fileId : FileId) (validLen : Nat) :
    Action.Mirrors R Appender.Mirrors (openAfter p fileId validLen)
      (openAfter p fileId validLen) := by
  refine .bind (mirrors_openEnd p fileId) fun R₁ _ a b hab => ?_
  cases hab with
  | @mk j hij =>
    dsimp only
    split
    · exact .pure fun R₂ h₂ => .mk (h₂ _ _ hij)
    · refine .andThen (mirrors_saveTail hij validLen _) fun _ _ => .andThen (.report _ _) fun _ _ =>
        .andThen (.onDisk_same fun R₂ h₂ d d' hd => ?_) fun _ _ =>
          .pure fun R₂ h₂ => .mk (h₂ _ _ hij)
      obtain ⟨hsame, hd'⟩ := (OnTrees.of_sameFiles hd.toSameFiles).setLength (h₂ _ _ hij) validLen
      exact ⟨hsame, hd.of_onTrees hd'⟩

end Appender

theorem Replay.recover_mirrors {d d' : Disk} (h : Disk.Mirrors R d d') (p : Path)
    (fileId : FileId) (ix : Index) : recover p fileId ix d' = recover p fileId ix d := by
  have hl := h.lookup p
  unfold recover Cursor.openLog
  generalize d.lookup p = x at hl ⊢
  generalize d'.lookup p = y at hl ⊢
  cases hl with
  | error e => rfl
  | @ok n n' hn =>
    have hfeed : (Cursor.start n').feed d' = (Cursor.start n).feed d := by
      simp only [Cursor.feed, Cursor.start, h.read_eq hn]
    have hrest : (Cursor.start n').rest d' = (Cursor.start n).rest d := by
      simp only [Cursor.rest, hfeed]
      rfl
    have hsize : d'.sizeOf (Cursor.start n').node = d.sizeOf (Cursor.start n).node :=
      h.sizeOf_eq hn
    simp only [hrest, hsize]

theorem Segment.mirrors_openFile {d d' : Disk} (h : Disk.Mirrors R d d') (fileId : FileId)
    (p : Path) : Matched (Segment.Mirrors R) (openFile fileId p d) (openFile fileId p d') := by
  have hl := h.lookup p
  unfold openFile
  generalize d.lookup p = x at hl ⊢
  generalize d'.lookup p = y at hl ⊢
  cases hl with
  | error e => exact .error _
  | ok hn => exact .ok (.mk hn)

namespace Store

theorem mirrors_removeStale (p : Path) :
    Action.Mirrors R (fun _ a b => b = a) (removeStale p) (removeStale p) := by
  refine .bind .world fun R₁ _ w w' hw => ?_
  rw [hw.disk.exists?_eq]
  split
  · exact .andThen (.report _ _) fun _ _ => .onDisk_same fun R₂ _ d d' hd => hd.remove p
  · exact .pure fun _ _ => rfl

def Readied (R : Numbering) (x y : Index × Appender) : Prop :=
  y.1 = x.1 ∧ Appender.Mirrors R x.2 y.2

theorem mirrors_reopen (p : Path) : Action.Mirrors R Readied (reopen p) (reopen p) := by
  refine .bind .world fun R₁ _ w w' hw => ?_
  rw [Replay.recover_mirrors hw.disk]
  split
  · exact .throw _
  · refine .andThen (.report _ _) fun _ _ => ?_
    split
    · exact .andThen (.report _ _) fun _ _ => .bind (Appender.mirrors_openAfter _ _ _)
        fun _ _ _ _ hab => .pure fun _ hle => ⟨rfl, hab.mono hle⟩
    · exact .bind (Appender.mirrors_openAfter _ _ _)
        fun _ _ _ _ hab => .pure fun _ hle => ⟨rfl, hab.mono hle⟩

theorem mirrors_start (p : Path) : Action.Mirrors R Readied (start p) (start p) :=
  .andThen (.report _ _) fun _ _ => .bind (Appender.mirrors_openEnd _ _)
    fun _ _ _ _ hab => .pure fun _ hle => ⟨rfl, hab.mono hle⟩

theorem mirrors_ready {c : Config} {x y : Index × Appender} (h : Readied R x y) :
    Action.Mirrors R Store.Mirrors
      (do
        let segment ← Action.ask (Segment.openFile Config.activeFile c.path)
        return ⟨c, x.1, Segments.single segment, some x.2⟩)
      (do
        let segment ← Action.ask (Segment.openFile Config.activeFile c.path)
        return ⟨c, y.1, Segments.single segment, some y.2⟩) := by
  obtain ⟨index, a⟩ := x
  obtain ⟨index', b⟩ := y
  obtain ⟨rfl, hab⟩ := h
  refine .bind (.ask fun R₁ _ d d' hd => Segment.mirrors_openFile hd _ _) fun R₁ h₁ s s' hs =>
    .pure fun R₂ h₂ => ?_
  exact (Store.Mirrors.mk (s := ⟨c, _, Segments.single s, some a⟩)
    (Segments.Mirrors.single hs) (.some (hab.mono h₁))).mono h₂

def attachRest (c : Config) : Action Store := do
  let w ← Action.world
  let (index, appender) ← if w.disk.exists? c.path then reopen c.path else start c.path
  let segment ← Action.ask (Segment.openFile Config.activeFile c.path)
  return ⟨c, index, Segments.single segment, some appender⟩

theorem attach_eq (c : Config) :
    attach c = (removeStale c.mergePath >>= fun _ => attachRest c) := rfl

theorem mirrors_attachRest (c : Config) :
    Action.Mirrors R Store.Mirrors (attachRest c) (attachRest c) := by
  refine .bind .world fun R₁ _ w w' hw => ?_
  dsimp only
  rw [hw.disk.exists?_eq]
  split
  · exact .bind (mirrors_reopen _) fun _ _ _ _ h => mirrors_ready h
  · exact .bind (mirrors_start _) fun _ _ _ _ h => mirrors_ready h

theorem mirrors_openWith (c : Config) :
    Action.Mirrors R Store.Mirrors (openWith c) (openWith c) := by
  have hattach : ∀ {R : Numbering}, Action.Mirrors R Store.Mirrors (attach c) (attach c) :=
    .andThen (mirrors_removeStale _) fun _ _ => mirrors_attachRest c
  refine .andThen (Q := fun _ _ _ => True) (.ask fun R₁ _ d d' hd => ?_) fun _ _ => ?_
  · simp only [Config.validate, hd.isDir_eq]
    split
    · exact .error _
    · split
      · exact .error _
      · exact .ok trivial
  · dsimp only
    split
    · exact .andThen (.onDisk_same fun R₁ _ d d' hd => hd.createDirs _) fun _ _ => hattach
    · exact hattach

end Store

theorem Compactor.mirrors_create (p : Path) (fileId : FileId) (stamps : StampPolicy) :
    Action.Mirrors R Compactor.Mirrors (create p fileId stamps) (create p fileId stamps) := by
  refine .bind (Q := fun R i j => R i j) (.onDisk fun R' _ d d' hd => hd.openWrite p) ?_
  intro R₁ _ i j hij
  refine .andThen (Q := fun _ _ _ => True) (fun R₂ h₂ w w' hw => ?_) fun _ _ => ?_
  · exact ⟨R₂, le_rfl, ⟨hw.disk.of_onTrees
      ⟨hw.disk.toSameFiles.setContent (h₂ _ _ hij) [], rfl, rfl, rfl, rfl⟩, hw.clock⟩, .ok trivial⟩
  · refine .bind .world fun R₂ h₂ w w' hw => .pure fun R₃ h₃ => ?_
    have hnow : w'.now = w.now := by rw [World.now, World.now, hw.clock]
    rw [hnow]
    exact .mk (le_trans h₂ h₃ _ _ hij)

theorem Appender.lookup_openEnd {p : Path} {fileId : FileId} {w w' : World} {a : Appender}
    (h : openEnd p fileId w = (.ok a, w')) : w'.disk.lookup p = .ok (.file a.file) := by
  unfold openEnd at h
  rcases hopen : w.disk.openWrite p with ⟨_ | i, d⟩
  · rw [bind_error (onDisk_error hopen)] at h
    cases h
  · rw [bind_ok (onDisk_ok hopen)] at h
    cases h
    exact lookup_openWrite hopen

namespace Store

variable {s s' : Store} {w w' v v' : World}

def fill (s : Store) (c : Compactor) : Action Compacted := fun w =>
  match copyAll s.segments s.index.toList c w.disk with
  | (.error e, c, d) => (.error e, { w with disk := c.abandon d })
  | (.ok (), c, d) =>
    match c.finish d with
    | (.error e, d) => (.error e, { w with disk := d })
    | (.ok out, d) => (.ok out, { w with disk := d })

theorem writeMerged_eq (s : Store) : s.writeMerged =
    (Compactor.create s.config.mergePath Config.activeFile s.config.stamps >>= s.fill) := rfl

theorem Mirrors.fill (h : Mirrors R s s') {c c' : Compactor} (hc : Compactor.Mirrors R c c')
    (hw : World.Mirrors R w w') :
    (s'.fill c' w').1 = (s.fill c w).1 ∧ World.Mirrors R (s.fill c w).2 (s'.fill c' w').2 := by
  have hcopy := copyAll_mirrors h.segments hc hw.onTrees.disk s.index.toList
  simp only [Store.fill, h.index_eq]
  rcases hx : copyAll s.segments s.index.toList c w.disk with ⟨x, c₁, d₁⟩
  rcases hy : copyAll s'.segments s.index.toList c' w'.disk with ⟨y, c₂, d₂⟩
  obtain ⟨hsame, hc, hd⟩ := hcopy
  rw [hx, hy] at hsame hc hd
  cases hsame
  cases x with
  | error e => exact ⟨rfl, hw.of_onTrees ⟨hc.abandon hd, hw.clock⟩⟩
  | ok =>
    obtain ⟨hsame, hd⟩ := hc.finish hd
    dsimp only at hsame hd ⊢
    rcases hx : c₁.finish d₁ with ⟨x, d₃⟩
    rcases hy : c₂.finish d₂ with ⟨y, d₄⟩
    rw [hx, hy] at hsame hd
    cases hsame
    cases x <;> exact ⟨rfl, hw.of_onTrees ⟨hd, hw.clock⟩⟩

theorem commit_mirrors {d d' : Disk} (hd : Disk.Mirrors R d d') {out : Compacted} {i : FileNo}
    (hl : d.lookup out.path = .ok (.file i)) (p : Path) (ix : Index) :
    (commit out p ix d').1 = (commit out p ix d).1 ∧
      Disk.Mirrors R (commit out p ix d).2 (commit out p ix d').2 := by
  obtain ⟨hsame, hd⟩ := hd.rename hl p
  unfold commit
  rcases hx : d.rename out.path p with ⟨x, d₁⟩
  rcases hy : d'.rename out.path p with ⟨y, d₂⟩
  rw [hx, hy] at hsame hd
  cases hsame
  cases x <;> exact ⟨rfl, hd⟩

def moveTo (s : Store) (out : Compacted) (a : Appender) (segment : Segment) :
    Action (Nat × Store) := fun w =>
  match s.segments.swap segment (commit out s.config.path s.index) w.disk with
  | (.error e, _, d) => (.error e, { w with disk := d })
  | (.ok (moved, index), segments, d) =>
    (.ok (moved, { s with index, segments, appender := some a }), { w with disk := d })

def Moved (R : Numbering) (x y : Nat × Store) : Prop := y.1 = x.1 ∧ Mirrors R x.2 y.2

theorem Mirrors.moveTo (h : Mirrors R s s') {out : Compacted} {a b : Appender}
    (hab : Appender.Mirrors R a b) {x y : Segment} (hxy : Segment.Mirrors R x y)
    (hw : World.Mirrors R w w') {i : FileNo} (hl : w.disk.lookup out.path = .ok (.file i)) :
    Ends R Moved (s.moveTo out a x w) (s'.moveTo out b y w') := by
  obtain ⟨hsame, hd⟩ := commit_mirrors hw.disk hl s.config.path s.index
  simp only [Store.moveTo, Segments.swap, h.config_eq, h.index_eq, h.segments.isEmpty_eq]
  by_cases hempty : s.segments.isEmpty = true
  · simp only [hempty, if_true]
    exact ⟨R, le_rfl, hw, .error _⟩
  · simp only [hempty]
    rcases hx : commit out s.config.path s.index w.disk with ⟨r, d₁⟩
    rcases hy : commit out s.config.path s.index w'.disk with ⟨r', d₂⟩
    rw [hx, hy] at hsame hd
    cases hsame
    cases r with
    | error e => exact ⟨R, le_rfl, ⟨hd, hw.clock⟩, .error _⟩
    | ok moved =>
      cases h with
      | mk hs => exact ⟨R, le_rfl, ⟨hd, hw.clock⟩, .ok ⟨rfl, .mk (hs.insert hxy) (.some hab)⟩⟩

theorem Mirrors.install (h : Mirrors R s s') (out : Compacted) (hw : World.Mirrors R w w') :
    Ends R Moved (s.install out w) (s'.install out w') := by
  obtain ⟨R₁, h₁, hw₁, hm⟩ := Appender.mirrors_openEnd out.path Config.activeFile R le_rfl hw
  rcases hx : Appender.openEnd out.path Config.activeFile w with ⟨a, w₁⟩
  rcases hy : Appender.openEnd out.path Config.activeFile w' with ⟨b, w₂⟩
  rw [hx, hy] at hw₁ hm
  have hsegment := Segment.mirrors_openFile hw₁.disk Config.activeFile out.path
  unfold Store.install
  cases hm with
  | error e =>
    rw [bind_error hx, bind_error hy]
    exact ⟨R₁, h₁, hw₁, .error e⟩
  | ok hab =>
    have hl := Appender.lookup_openEnd hx
    rw [bind_ok hx, bind_ok hy]
    have hask (v : World) : ask (Segment.openFile Config.activeFile out.path) v =
        (Segment.openFile Config.activeFile out.path v.disk, v) := rfl
    have hsx := hask w₁
    have hsy := hask w₂
    generalize Segment.openFile Config.activeFile out.path w₁.disk = x at hsegment hsx
    generalize Segment.openFile Config.activeFile out.path w₂.disk = y at hsegment hsy
    cases hsegment with
    | error e =>
      rw [bind_error hsx, bind_error hsy]
      exact ⟨R₁, h₁, hw₁, .error e⟩
    | ok hxy =>
      rw [bind_ok hsx, bind_ok hsy]
      obtain ⟨R₂, h₂, hend⟩ := (h.mono h₁).moveTo hab hxy hw₁ hl
      exact ⟨R₂, le_trans h₁ h₂, hend⟩

theorem discard_mirrors (hw : World.Mirrors R w w') (p : Path) :
    World.Mirrors R (discard p w) (discard p w') := by
  obtain ⟨hsame, hd⟩ := hw.disk.remove p
  unfold discard
  rcases hx : Disk.remove p w.disk with ⟨x, d₁⟩
  rcases hy : Disk.remove p w'.disk with ⟨y, d₂⟩
  rw [hx, hy] at hsame hd
  cases hsame
  cases x with
  | ok => exact ⟨hd, hw.clock⟩
  | error e =>
    dsimp only
    split
    · exact ⟨hd, hw.clock⟩
    · exact ⟨hd, hw.clock⟩

def mergeRest (s : Store) (old : Appender) :
    Except Error Compacted × World → Except Error Unit × Store × World
  | (.error e, w) => (.error e, s, discard s.config.mergePath w)
  | (.ok out, w) =>
    match s.install out w with
    | (.error e, w) => (.error e, s, discard s.config.mergePath w)
    | (.ok (moved, s), w) =>
      (.ok (), s, w.report (.merged s.config.path old.offset out.bytesWritten moved))

theorem merge_eq {old : Appender} (h : s.appender = some old) (w : World) :
    s.merge w = s.mergeRest old (s.writeMerged w) := by
  unfold merge mergeRest
  rw [h]
  rcases s.writeMerged w with ⟨_ | _, _⟩ <;> rfl

theorem Mirrors.mergeRest (h : Mirrors R s s') (old old' : Appender)
    {x y : Except Error Compacted × World} (hsame : y.1 = x.1) (hw : World.Mirrors R x.2 y.2) :
    ∃ R' ≥ R, Parallel (Mirrors R') (World.Mirrors R') (s.mergeRest old x)
      (s'.mergeRest old' y) := by
  obtain ⟨r, w₁⟩ := x
  obtain ⟨r', w₂⟩ := y
  cases hsame
  cases r with
  | error e =>
    refine ⟨R, le_rfl, rfl, h, ?_⟩
    simp only [Store.mergeRest, h.config_eq]
    exact discard_mirrors hw _
  | ok out =>
    obtain ⟨R', hR, hw', hm⟩ := h.install out hw
    simp only [Store.mergeRest, h.config_eq]
    rcases hx : s.install out w₁ with ⟨x, v₁⟩
    rcases hy : s'.install out w₂ with ⟨y, v₂⟩
    rw [hx, hy] at hw' hm
    cases hm with
    | error e => exact ⟨R', hR, rfl, h.mono hR, discard_mirrors hw' _⟩
    | ok hmoved => exact ⟨R', hR, rfl, hmoved.2, hw'.disk, hw'.clock⟩

theorem Mirrors.merge_of_create (h : Mirrors R s s') (hopen : s.appender.isSome) {R₁ : Numbering}
    (hR : R₁ ≥ R) {c c' : Compactor}
    (hx : Compactor.create s.config.mergePath Config.activeFile s.config.stamps w = (.ok c, v))
    (hy : Compactor.create s.config.mergePath Config.activeFile s.config.stamps w' = (.ok c', v'))
    (hc : Compactor.Mirrors R₁ c c') (hw : World.Mirrors R₁ v v') :
    ∃ R' ≥ R, Parallel (Mirrors R') (World.Mirrors R') (s.merge w) (s'.merge w') := by
  obtain ⟨a, ha⟩ := Option.isSome_iff_exists.mp hopen
  have hrel := h.appender
  rw [ha] at hrel
  generalize hb : s'.appender = y at hrel
  cases hrel with
  | @some _ b _ =>
    have h₁ := h.mono hR
    obtain ⟨hsame, hfill⟩ := h₁.fill hc hw
    have hx' : s.writeMerged w = s.fill c v := by rw [writeMerged_eq, bind_ok hx]
    have hy' : s'.writeMerged w' = s'.fill c' v' := by
      rw [writeMerged_eq, h.config_eq, bind_ok hy]
    rw [merge_eq ha, merge_eq hb, hx', hy']
    obtain ⟨R₂, h₂, hrest⟩ := h₁.mergeRest a b hsame hfill
    exact ⟨R₂, le_trans hR h₂, hrest⟩

theorem Mirrors.merge_closed (h : Mirrors R s s') (ha : s.appender = none) (w w' : World) :
    s.merge w = (.error .closed, s, w) ∧ s'.merge w' = (.error .closed, s', w') := by
  have hb := h.appender
  rw [ha] at hb
  generalize hy : s'.appender = y at hb
  cases hb
  unfold Store.merge
  simp only [ha, hy, and_self]

theorem Mirrors.merge (h : Mirrors R s s') (hw : World.Mirrors R w w') :
    ∃ R' ≥ R, Parallel (Mirrors R') (World.Mirrors R') (s.merge w) (s'.merge w') := by
  cases ha : s.appender with
  | none =>
    obtain ⟨hx, hy⟩ := h.merge_closed ha w w'
    rw [hx, hy]
    exact ⟨R, le_rfl, rfl, h, hw⟩
  | some a =>
    obtain ⟨R₁, h₁, hw₁, hm⟩ :=
      Compactor.mirrors_create s.config.mergePath Config.activeFile s.config.stamps R le_rfl hw
    rcases hx : Compactor.create s.config.mergePath Config.activeFile s.config.stamps w with ⟨x, v⟩
    rcases hy : Compactor.create s.config.mergePath Config.activeFile s.config.stamps w' with
      ⟨y, v'⟩
    rw [hx, hy] at hw₁ hm
    cases hm with
    | ok hc => exact h.merge_of_create (ha ▸ rfl) h₁ hx hy hc hw₁
    | error e =>
      have hb := h.appender
      rw [ha] at hb
      generalize hb' : s'.appender = y at hb
      cases hb with
      | @some _ b _ =>
        have hx' : s.writeMerged w = (.error e, v) := by rw [writeMerged_eq, bind_error hx]
        have hy' : s'.writeMerged w' = (.error e, v') := by
          rw [writeMerged_eq, h.config_eq, bind_error hy]
        rw [merge_eq ha, merge_eq hb', hx', hy']
        obtain ⟨R₂, h₂, hrest⟩ := (h.mono h₁).mergeRest a b (x := (.error e, v))
          (y := (.error e, v')) rfl hw₁
        exact ⟨R₂, le_trans h₁ h₂, hrest⟩

end Store

variable {slot slot' : Option Store} {w w' : World}

/-- One request, to stores that go together. -/
theorem Request.mirrors_run (r : Request) (h : Option.Rel (Store.Mirrors R) slot slot')
    (hw : World.Mirrors R w w') :
    ∃ R' ≥ R, Parallel (Option.Rel (Store.Mirrors R')) (World.Mirrors R') (r.run slot w)
      (r.run slot' w') := by
  have hkeep : r.KeepsNames → ∃ R' ≥ R, Parallel (Option.Rel (Store.Mirrors R'))
      (World.Mirrors R') (r.run slot w) (r.run slot' w') := by
    intro hr
    obtain ⟨hsame, hslot, hw'⟩ := run_onTrees h hw.onTrees hr
    exact ⟨R, le_rfl, hsame, hslot, hw.of_onTrees hw'⟩
  cases r with
  | openWith c =>
    obtain ⟨R', hR, hw', hm⟩ := Store.mirrors_openWith c R le_rfl hw
    simp only [Request.run]
    rcases hx : Store.openWith c w with ⟨x, v⟩
    rcases hy : Store.openWith c w' with ⟨y, v'⟩
    rw [hx, hy] at hw' hm
    cases hm with
    | error e => exact ⟨R', hR, rfl, .none, hw'⟩
    | ok hs => exact ⟨R', hR, rfl, .some hs, hw'⟩
  | merge =>
    cases h with
    | none => exact ⟨R, le_rfl, rfl, .none, hw⟩
    | some hs =>
      obtain ⟨R', hR, hsame, hs', hw'⟩ := hs.merge hw
      simp only [Request.run, Request.askStore, hsame]
      exact ⟨R', hR, rfl, .some hs', hw'⟩
  | drop | get | set | delete | close | logSize => exact hkeep trivial

theorem World.Mirrors.enter (hw : World.Mirrors R w w') (t : Turn) :
    World.Mirrors R (t.enter w) (t.enter w') :=
  ⟨hw.disk.withLimit _, rfl⟩

end LogStore
