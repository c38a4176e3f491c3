import LogStore.Proofs.Store.Leftover

/-! A merge that is broken off leaves no trace. Before its rename it has left at most a file
beside the log, and whatever bytes that file holds, opening removes it and finds what was
there before the merge; after the rename, opening finds the same in the fresh log. -/

namespace LogStore

open Disk

/-- A file with these bytes is put at a path from outside, where one can stand; no limit
holds for that. -/
def Disk.leave (p : Path) (bs : Bytes) (d : Disk) : Disk :=
  { ({ d with limit := none }.putFile p bs).2 with limit := d.limit }

/-- What may happen in a life: a turn, or a file left beside the log. -/
inductive Happening where
  | turn (t : Turn)
  | leftover (bs : Bytes)

namespace Happening

def turn? : Happening → Option Turn
  | .turn t => some t
  | .leftover _ => none

/-- What is seen after each turn, with files left at the path of the merge file meanwhile. -/
def chronicle (p : Path) : List Happening → Option Store → World →
    List (Option (Except Error Answer) × Option Nat × Except IoError Bytes)
  | [], _, _ => []
  | .turn t :: hs, slot, w =>
    ((t.run slot w).1, (t.run slot w).2.1.map Store.keyCount,
        (t.run slot w).2.2.disk.bytesAt p) ::
      chronicle p hs (t.run slot w).2.1 (t.run slot w).2.2
  | .leftover bs :: hs, slot, w =>
    chronicle p hs slot { w with disk := w.disk.leave (p.beside ".merge") bs }

end Happening

namespace Disk

variable {d d' : Disk} {p m : Path} {bs : Bytes}

theorem isDir_congr (h : d'.tree = d.tree) (p : Path) : d'.isDir p = d.isDir p := by
  rw [isDir, isDir, lookup_congr h]

theorem Sound.leave (h : d.Sound) (p : Path) (bs : Bytes) : (d.leave p bs).Sound :=
  ((h.withLimit none).putFile p bs).withLimit d.limit

theorem leave_cases (hd : d.Numbered) (m : Path) (bs : Bytes) : d.leave m bs = d ∨
    ∃ parent name k, Seats d m parent name ∧ Put d (d.leave m bs) (parent ++ [name]) k := by
  unfold leave putFile
  rcases hopen : openWrite m { d with limit := none } with ⟨_ | k, d₁⟩
  · rw [openWrite_error hopen]
    exact .inl rfl
  · obtain ⟨parent, name, hs⟩ := seats_of_openWrite hopen
    have hp := put_of_openWrite (d := { d with limit := none }) hd hs hopen
      ((Only.setContent (Nat.zero_le _)).trans (only_write (d₁.setContent k []) k 0 bs))
    exact .inr ⟨parent, name, k, hs.of_tree_eq rfl, rfl, hp.fresh, hp.below, hp.others, hp.tree,
      hp.was⟩

end Disk

namespace Store

variable {p : Path} {slot : Option Store} {w : World}

theorem Ready.atPath (h : Ready p slot w) : AtPath p slot := by
  rintro s rfl hopen
  rcases h with h | ⟨m, h⟩
  · cases h
  · cases h with
    | opened hc => exact hc
    | closed => cases hopen

end Store

namespace Indistinct

variable {p : Path} {slot slot' : Option Store} {w w' : World}

theorem refl (hd : w.disk.Sound) : Indistinct p (none, w) (none, w) :=
  ⟨_, .none, .inl ⟨.refl hd.numbered, rfl⟩⟩

theorem leave (h : Indistinct p (slot, w) (slot', w')) (hd : w.disk.Sound) (hd' : w'.disk.Sound)
    (hquiet : slot = none ∨ w.disk.exists? (p.beside ".merge") = false) (bs : Bytes) :
    Indistinct p (slot, w)
      (slot', { w' with disk := w'.disk.leave (p.beside ".merge") bs }) := by
  rcases leave_cases hd'.numbered (p.beside ".merge") bs with hsame | ⟨parent, name, k, hs', hput⟩
  · rw [hsame]
    exact h
  · obtain ⟨R, hslot, hw | ⟨parent', name', hw⟩⟩ := h
    · have hs : Seats w.disk (p.beside ".merge") parent name :=
        ⟨(hw.disk.locate_eq _).symm.trans hs'.located, hs'.short⟩
      have hleft := hw.disk.leftover_of_put (fun _ _ => hd.apart) hs hput
      refine ⟨_, ?_, .inr ⟨parent, name, hleft, hw.clock⟩⟩
      rcases hquiet with rfl | hquiet
      · cases hslot
        exact .none
      · rw [hs.exists?_eq_false_iff] at hquiet
        refine rel_mono (fun _ _ h => h.mono fun i j hij => ⟨hij, ?_⟩) hslot
        rw [hquiet]
        rintro ⟨⟩
    · have hloc := hw.disk.seat'.located.symm.trans hs'.located
      simp only [Except.ok.injEq, Place.entry.injEq, and_true] at hloc
      obtain ⟨rfl, rfl⟩ := hloc
      exact ⟨R, hslot, .inr ⟨parent', name', hw.disk.put_right hput, hw.clock⟩⟩

end Indistinct

namespace Happening

variable {p : Path} {slot slot' : Option Store} {w w' : World} {hs : List Happening}

theorem chronicle_eq (h : Indistinct p (slot, w) (slot', w')) (hready : Store.Ready p slot w)
    (hd : w.disk.Sound) (hd' : w'.disk.Sound)
    (hstay : ∀ t ∈ hs.filterMap turn?, t.request.StaysAt p) :
    chronicle p hs slot' w' = Turn.chronicle p (hs.filterMap turn?) slot w := by
  induction hs generalizing slot slot' w w' with
  | nil => rfl
  | cons x hs ih =>
    cases x with
    | leftover bs => exact ih (h.leave hd hd' hready.quiet bs) hready hd (hd'.leave ..) hstay
    | turn t =>
      have ht : t.request.StaysAt p := hstay t List.mem_cons_self
      obtain ⟨hsame, hnext⟩ := h.run hready.atPath ht
      have hrest := ih hnext (hready.run hd ht) (Store.sound_run _ _ (hd.withLimit _))
        (Store.sound_run _ _ (hd'.withLimit _))
        fun t' ht' => hstay t' (List.mem_cons_of_mem _ ht')
      have hturns : (Happening.turn t :: hs).filterMap turn? = t :: hs.filterMap turn? := rfl
      rw [hturns, chronicle, Turn.chronicle, hsame, hnext.keyCount_eq, hnext.bytesAt_eq, hrest]

end Happening

namespace Store

variable {p : Path} {c : Config} {w v : World} {no : FileNo} {rs : List Record}

theorem get_congr {c' : Config} {no' : FileNo} {rs' : List Record}
    (h : v.disk.LogAt c.path no rs) (h' : w.disk.LogAt c'.path no' rs')
    (hsame : Contents.ofLog rs' = Contents.ofLog rs) (key : Bytes) :
    (onLog c' no' rs').get key w.disk = (onLog c no rs).get key v.disk := by
  rw [get_onLog h, get_onLog h', hsame]

/-- A file left beside a log leaves the log alone. -/
theorem site_leave {d : Disk} (h : d.LogAt p no rs) (bs : Bytes) :
    ∃ parent name, Site (d.leave (p.beside ".merge") bs) p parent name no ∧
      (d.leave (p.beside ".merge") bs).content no = logBytes rs ∧
      (d.leave (p.beside ".merge") bs).isDir (p.beside ".merge") = false := by
  obtain ⟨parent, name, hs⟩ := site_of_lookup h.holds.sound h.holds.lookup
  have hquiet := h.quiet
  rcases leave_cases h.holds.sound.numbered (p.beside ".merge") bs with
    hsame | ⟨parent', name', k, hm, hput⟩
  · rw [hsame]
    refine ⟨parent, name, hs, h.holds.content, ?_⟩
    unfold isDir
    split
    · rename_i hdir
      rw [exists?_of_lookup hdir] at hquiet
      cases hquiet
    · rfl
  · rw [hm.exists?_eq_false_iff] at hquiet
    have hk : k = d.fresh := hput.eq_fresh hquiet
    have hno := h.holds.sound.below hs.file
    refine ⟨parent, name, ⟨h.holds.sound.leave .., hs.seat.of_dirs hput.keepsDirs, ?_⟩, ?_, ?_⟩
    · rw [hput.tree, if_neg]
      · exact hs.file
      · intro heq
        rw [heq, hs.file] at hquiet
        cases hquiet
    · rw [hput.others no hno (hk ▸ hno.ne), h.holds.content]
    · rw [isDir, (hput.seats hm).lookup_eq, hput.tree, if_pos rfl]

/-- Opening after a merge that was broken off before its rename. -/
theorem openWith_leave (h : v.disk.LogAt c.path no rs) (bs : Bytes) (t : Turn) :
    ∃ w', openWith c (t.enter { v with disk := v.disk.leave c.mergePath bs }) =
      (.ok (onLog c no rs), w') ∧ w'.disk.LogAt c.path no rs := by
  obtain ⟨parent, name, hs, hc, hm⟩ := site_leave h bs
  generalize hv : t.enter { v with disk := v.disk.leave c.mergePath bs } = u
  have hdisk : u.disk = { v.disk.leave c.mergePath bs with limit := t.limit } := by rw [← hv]; rfl
  have ht : u.disk.tree = (v.disk.leave c.mergePath bs).tree := by rw [hdisk]
  have hs' : Site u.disk c.path parent name no :=
    ⟨hdisk ▸ hs.sound.withLimit _, hs.seat.of_tree_eq ht, ht ▸ hs.file⟩
  have hp : Parts (u.disk.content no) rs [] .endOfLog := by
    have hcontent : u.disk.content no = logBytes rs := by rw [hdisk]; exact hc
    rw [hcontent]
    exact .of_records h.fits
  obtain ⟨w', hopen, hlog, -⟩ := attach_clean hs' hp ((isDir_congr ht _).trans hm)
  exact ⟨w', (openWith_eq hs').trans hopen, hlog⟩

/-- A finished fresh log is installed, and it says what the old one said. -/
theorem install_onLog {w : World} {out : Compacted} (h : v.disk.LogAt c.path no rs)
    (hw : (onLog c no rs).writeMerged v = (.ok out, w)) :
    ∃ k i d, (onLog c no rs).install out w =
        (.ok (k, onLog c i (merged c v.now rs)), { w with disk := d }) ∧
      d.LogAt c.path i (merged c v.now rs) := by
  have hl : c.mergePath.tooLong = false := by
    by_contra hl
    rw [Bool.not_eq_false] at hl
    cases hw.symm.trans (writeMerged_tooLong h hl)
  obtain ⟨parent, name, i, d, htwin, -, ⟨hwrite, hc, -⟩ | ⟨hwrite, -⟩⟩ := writeMerged_spec h hl
  · cases hw.symm.trans hwrite
    obtain ⟨d', hinstall, hlog⟩ := install_spec rs (w := { v with disk := d }) htwin hc
      (fits_merged h.fits)
      (Compactor.retarget_movesFrom (blank c i v.now) fun x hx => inside_live hx)
    exact ⟨_, i, d', hinstall, hlog⟩
  · cases hw.symm.trans hwrite

/-- A merge that is broken off costs nothing, and what it leaves has no effect. Let a store
be open after any turns at its path. If it is dropped with the log as it is, and with any
bytes in a file at the path of the merge file, opening removes that file, leaves the log
alone, and gives all that the store gave. If a merge has written its log, it succeeds, and on
the disk with the fresh log in the place of the old one opening gives the same again. And over
a whole life, in which such files are left again and again, all answers and all bytes of the
log are those of the life without them. -/
theorem broken_off_merge {p : Path} {w : World} (hd : w.disk.Sound) :
    (∀ ts s v, (∀ t ∈ ts, t.request.StaysAt p) → Turn.runAll ts none w = (some s, v) →
      s.isClosed = false →
      (∀ (bs : Bytes) (c : Config) (t : Turn), c.path = p → ∃ s' w',
        openWith c (t.enter { v with disk := v.disk.leave (p.beside ".merge") bs }) = (.ok s', w') ∧
        w'.disk.exists? (p.beside ".merge") = false ∧ w'.disk.bytesAt p = v.disk.bytesAt p ∧
        s'.keyCount = s.keyCount ∧ ∀ key, s'.get key w'.disk = s.get key v.disk) ∧
      ∀ (t : Turn) out v₁, s.writeMerged (t.enter v) = (.ok out, v₁) →
        ∃ k s₂ v₂ v₃, s.install out v₁ = (.ok (k, s₂), v₂) ∧
          s.merge (t.enter v) = (.ok (), s₂, v₃) ∧ v₃.disk = v₂.disk ∧
          ∀ (c : Config) (t' : Turn), c.path = p → ∃ s' w',
            openWith c (t'.enter v₂) = (.ok s', w') ∧ w'.disk.bytesAt p = v₂.disk.bytesAt p ∧
            s'.keyCount = s.keyCount ∧ ∀ key, s'.get key w'.disk = s.get key v.disk) ∧
    ∀ hs : List Happening, (∀ t ∈ hs.filterMap Happening.turn?, t.request.StaysAt p) →
      Happening.chronicle p hs none w = Turn.chronicle p (hs.filterMap Happening.turn?) none w := by
  constructor
  · intro ts s v hstay hrun hopened
    have hready := (show Ready p none w from .inl rfl).runAll hd hstay
    rw [hrun] at hready
    obtain ⟨m, hstands⟩ : ∃ m, Stands p m (some s) v := hready.resolve_left nofun
    cases hstands with
    | closed => cases hopened
    | @opened c₀ no rs _ hc hlog =>
      subst hc
      refine ⟨fun bs c t hc => ?_, fun t out v₁ hwrite => ?_⟩
      · rw [← hc] at hlog ⊢
        obtain ⟨w', hopen, hlog'⟩ := openWith_leave hlog bs t
        refine ⟨_, w', hopen, hlog'.quiet, ?_, rfl, fun key => ?_⟩
        · rw [bytesAt_file hlog.holds.lookup, bytesAt_file hlog'.holds.lookup,
            hlog.holds.content, hlog'.holds.content]
        · exact get_congr (c := c₀) (hc ▸ hlog) hlog' rfl key
      · obtain ⟨k, i, d, hinstall, hlog'⟩ := install_onLog (hlog.withLimit t.limit) hwrite
        have hmerge := merge_eq (s := onLog c₀ no rs) rfl (t.enter v)
        rw [hwrite, mergeRest, hinstall] at hmerge
        refine ⟨k, _, _, _, hinstall, hmerge, rfl, fun c t' hc => ?_⟩
        · rw [← hc] at hlog'
          obtain ⟨w', hopen, hdisk⟩ := openWith_logAt (c := c)
            (w := t'.enter { v₁ with disk := d }) (hlog'.withLimit t'.limit)
          refine ⟨_, w', hopen, ?_, ?_, fun key => ?_⟩
          · rw [hdisk]
            exact (LogAt.bytesAt_eq (hc ▸ hlog'.withLimit t'.limit)).trans
              (LogAt.bytesAt_eq (hc ▸ hlog')).symm
          · rw [keyCount_onLog, keyCount_onLog, ofLog_merged]
          · refine get_congr hlog ?_ (ofLog_merged ..) key
            rw [hdisk]
            exact hlog'.withLimit t'.limit
  · intro hs hstay
    exact Happening.chronicle_eq (.refl hd) (.inl rfl) hd hd hstay

def openAndSet : List Turn :=
  [⟨0, none, .openWith { path := ['a'] }⟩, ⟨0, none, .set [1] [2]⟩]

theorem broken_off_merge_set : ∃ s v out v₁ v₂,
    Turn.runAll openAndSet none (World.empty 0) = (some s, v) ∧
    (v.disk.leave (Path.beside ['a'] ".merge") [7]).bytesAt (Path.beside ['a'] ".merge") =
      .ok [7] ∧
    (∃ s' w', openWith { path := ['a'] }
        (Turn.enter ⟨0, none, .openWith { path := ['a'] }⟩
          { v with disk := v.disk.leave (Path.beside ['a'] ".merge") [7] }) = (.ok s', w') ∧
      w'.disk.exists? (Path.beside ['a'] ".merge") = false ∧
      s'.get [1] w'.disk = s.get [1] v.disk) ∧
    s.writeMerged (Turn.enter ⟨9, none, .merge⟩ v) = (.ok out, v₁) ∧
    (∃ k s₂, s.install out v₁ = (.ok (k, s₂), v₂)) ∧
    (∃ s' w', openWith { path := ['a'] }
        (Turn.enter ⟨9, none, .openWith { path := ['a'] }⟩ v₂) = (.ok s', w') ∧
      s'.get [1] w'.disk = s.get [1] v.disk) ∧
    Happening.chronicle ['a']
        (openAndSet.map .turn ++
          [.leftover [7], .turn ⟨9, none, .merge⟩, .turn ⟨9, none, .get [1]⟩])
        none (World.empty 0) =
      Turn.chronicle ['a'] (openAndSet ++ [⟨9, none, .merge⟩, ⟨9, none, .get [1]⟩]) none
        (World.empty 0) := by
  obtain ⟨s, v, out, v₁, hrun, hopened, hleft, hwrite⟩ : ∃ s v out v₁,
      Turn.runAll openAndSet none (World.empty 0) = (some s, v) ∧ s.isClosed = false ∧
      (v.disk.leave (Path.beside ['a'] ".merge") [7]).bytesAt (Path.beside ['a'] ".merge") =
        .ok [7] ∧
      s.writeMerged (Turn.enter ⟨9, none, .merge⟩ v) = (.ok out, v₁) :=
    ⟨_, _, _, _, rfl, rfl, rfl, rfl⟩
  obtain ⟨hlives, hall⟩ := broken_off_merge (p := ['a']) (w := World.empty 0) Sound.empty
  obtain ⟨hbefore, hafter⟩ := hlives _ s v (by simp [openAndSet, Request.StaysAt]) hrun hopened
  obtain ⟨s', w', hopen, hgone, -, -, hget⟩ := hbefore [7] { path := ['a'] }
    ⟨0, none, .openWith { path := ['a'] }⟩ rfl
  obtain ⟨k, s₂, v₂, -, hinstall, -, -, hreopen⟩ := hafter _ out v₁ hwrite
  obtain ⟨s₃, w₃, hopen₃, -, -, hget₃⟩ := hreopen { path := ['a'] }
    ⟨9, none, .openWith { path := ['a'] }⟩ rfl
  have hstay : ∀ t ∈ openAndSet ++ [⟨9, none, .merge⟩, ⟨9, none, .get [1]⟩],
      t.request.StaysAt ['a'] := by simp [openAndSet, Request.StaysAt]
  exact ⟨s, v, out, v₁, v₂, hrun, hleft, ⟨s', w', hopen, hgone, hget [1]⟩, hwrite,
    ⟨k, s₂, hinstall⟩, ⟨s₃, w₃, hopen₃, hget₃ [1]⟩, hall _ hstay⟩

end Store

end LogStore
