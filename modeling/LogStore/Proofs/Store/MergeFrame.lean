import LogStore.Proofs.Store.Leftover

/-! What a merge touches, of whatever store and on whatever disk. It writes to one file alone,
the one at the path of the merge file, and when it fails it takes the name of that file away. -/

namespace LogStore

open Disk

namespace Compactor

/-- Bytes have gone to the file of this compactor at most. -/
structure Fills (c : Compactor) (d : Disk) (c' : Compactor) (d' : Disk) : Prop where
  path : c'.path = c.path
  file : c'.file = c.file
  only : Only c.file d d'

namespace Fills

variable {c c' c'' : Compactor} {d d' d'' : Disk}

theorem refl (c : Compactor) (d : Disk) : Fills c d c d := ⟨rfl, rfl, .refl ..⟩

theorem trans (h : Fills c d c' d') (h' : Fills c' d' c'' d'') : Fills c d c'' d'' :=
  ⟨h'.path.trans h.path, h'.file.trans h.file, h.only.trans (h.file ▸ h'.only)⟩

end Fills

variable {d d' : Disk}

theorem fills_emit (bs : Bytes) (c : Compactor) (d : Disk) :
    Fills c d (c.emit bs d).2.1 (c.emit bs d).2.2 :=
  ⟨rfl, rfl, only_write ..⟩

theorem fills_flush (c : Compactor) (d : Disk) : Fills c d (c.flush d).2.1 (c.flush d).2.2 :=
  ⟨rfl, rfl, only_write ..⟩

theorem fills_push (bs : Bytes) (c : Compactor) (d : Disk) :
    Fills c d (c.push bs d).2.1 (c.push bs d).2.2 := by
  have place : ∀ (c : Compactor) (d : Disk), Fills c d
      (if capacity ≤ bs.length then c.emit bs d
        else (.ok (), { c with pending := c.pending ++ bs }, d)).2.1
      (if capacity ≤ bs.length then c.emit bs d
        else (.ok (), { c with pending := c.pending ++ bs }, d)).2.2 := by
    intro c d
    split
    · exact fills_emit bs c d
    · exact ⟨rfl, rfl, .refl ..⟩
  unfold push
  by_cases hmake : capacity < c.pending.length + bs.length
  · rw [if_pos hmake]
    have hf := fills_flush c d
    rcases hx : c.flush d with ⟨_ | _, c', d'⟩ <;> rw [hx] at hf
    · exact hf
    · exact hf.trans (place c' d')
  · rw [if_neg hmake]
    exact place c d

theorem fills_add (key : Bytes) (old : Entry) (value : Bytes) (c : Compactor) (d : Disk) :
    Fills c d (c.add key old value d).2.1 (c.add key old value d).2.2 := by
  unfold add
  split
  · exact .refl c d
  · dsimp only
    split
    · exact .refl c d
    · rename_i bs _
      have hf := fills_push bs c d
      rcases hx : c.push bs d with ⟨_ | _, c', d'⟩ <;> rw [hx] at hf
      · exact hf
      · exact ⟨hf.path, hf.file, hf.only⟩

end Compactor

namespace Store

open Compactor

variable {s s' : Store} {w w' : World} {m p : Path} {parent : List Name} {name : Name}
  {k : FileNo}

theorem fills_copyAll (segments : Segments) (es : List (Bytes × Entry)) (c : Compactor)
    (d : Disk) : Fills c d (copyAll segments es c d).2.1 (copyAll segments es c d).2.2 := by
  induction es generalizing c d with
  | nil => exact .refl c d
  | cons x es ih =>
    rw [copyAll]
    split
    · exact .refl c d
    · rename_i value _
      have hf := fills_add x.1 x.2 value c d
      rcases hx : c.add x.1 x.2 value d with ⟨_ | _, c', d'⟩ <;> rw [hx] at hf
      · exact hf
      · exact hf.trans (ih c' d')

theorem fill_frame (s : Store) (c : Compactor) (w : World) :
    Only c.file w.disk (s.fill c w).2.disk ∧ (s.fill c w).2.clock = w.clock ∧
      ∀ out, (s.fill c w).1 = .ok out → out.path = c.path := by
  have hf := fills_copyAll s.segments s.index.toList c w.disk
  unfold fill
  rcases hx : copyAll s.segments s.index.toList c w.disk with ⟨_ | _, c', d'⟩ <;> rw [hx] at hf
  · exact ⟨(hf.trans (fills_flush c' d')).only, rfl, nofun⟩
  · have hl := hf.trans (fills_flush c' d')
    unfold finish
    rcases hx : c'.flush d' with ⟨_ | _, c'', d''⟩ <;> simp only [hx] at hl ⊢
    · exact ⟨(hl.trans (fills_flush c'' d'')).only, trivial, nofun⟩
    · refine ⟨hl.only, trivial, fun out hout => ?_⟩
      cases hout
      exact hl.path

theorem rename_frame {d : Disk} (hs : Seats d m parent name)
    (hf : d.tree[parent ++ [name]]? = some (.file k)) (p : Path) :
    (∃ e, d.rename m p = (.error e, d)) ∨
      ∃ d', d.rename m p = (.ok (), d') ∧ d'.files = d.files ∧ d'.fresh = d.fresh := by
  rw [hs.rename_file hf]
  split
  · exact .inl ⟨_, rfl⟩
  · exact .inl ⟨_, rfl⟩
  · split
    · exact .inl ⟨_, rfl⟩
    · split
      · exact .inl ⟨_, rfl⟩
      · split
        · exact .inl ⟨_, rfl⟩
        · split
          · exact .inl ⟨_, rfl⟩
          · exact .inr ⟨_, rfl, rfl, rfl⟩

/-- Moving over to a fresh log that is there either succeeds, or it changes nothing. -/
theorem install_frame {out : Compacted} (hs : Seats w.disk out.path parent name)
    (hf : w.disk.tree[parent ++ [name]]? = some (.file k)) :
    (∃ e, s.install out w = (.error e, w)) ∨
      ∃ x w', s.install out w = (.ok x, w') ∧ w'.disk.files = w.disk.files ∧
        w'.disk.fresh = w.disk.fresh := by
  have hopen := hs.openWrite_eq
  have hlook := hs.lookup_eq
  rw [hf] at hopen hlook
  have hsegment : Action.ask (Segment.openFile Config.activeFile out.path) w =
      (.ok ⟨Config.activeFile, .file k⟩, w) := by
    simp only [Action.ask, Segment.openFile, hlook]
  unfold install
  rw [Action.bind_ok (Appender.openEnd_ok hopen), Action.bind_ok hsegment]
  by_cases hempty : s.segments.isEmpty = true
  · simp only [Segments.swap, hempty, if_true]
    exact .inl ⟨_, rfl⟩
  · simp only [Segments.swap, if_neg hempty, commit]
    rcases rename_frame hs hf s.config.path with ⟨e, hr⟩ | ⟨d', hr, hsame⟩
    · simp only [hr]
      exact .inl ⟨_, rfl⟩
    · simp only [hr]
      exact .inr ⟨_, _, rfl, hsame⟩

theorem discard_frame (p : Path) (w : World) :
    (discard p w).disk = (w.disk.remove p).2 ∧ (discard p w).clock = w.clock := by
  unfold discard
  rcases w.disk.remove p with ⟨_ | _, d⟩
  · dsimp only
    split <;> exact ⟨rfl, rfl⟩
  · exact ⟨rfl, rfl⟩

theorem discard_file (hs : Seats w.disk p parent name)
    (hf : w.disk.tree[parent ++ [name]]? = some (.file k)) :
    Erased w.disk (discard p w).disk (parent ++ [name]) := by
  have hremove := hs.remove_eq
  rw [hf] at hremove
  rw [(discard_frame p w).1, hremove]
  exact erased_erase ..

theorem remove_of_refused {d : Disk} {e : IoError} (h : d.openWrite p = (.error e, d)) :
    (d.remove p).2 = d := by
  rcases hr : d.remove p with ⟨_ | _, d'⟩
  · exact remove_error hr
  · obtain ⟨parent, name, i, hs, hf, -⟩ := remove_ok hr
    have hopen := hs.openWrite_eq
    rw [h, hf] at hopen
    cases hopen

/-- Either no file can be opened for a merge, and nothing changes; or one is written. A merge
that fails then takes its name away, and the store stays as it is. -/
theorem merge_frame (hd : w.disk.Numbered) (hopened : s.appender.isSome) {x : Except Error Unit}
    (h : s.merge w = (x, s', w')) :
    (∃ e, w.disk.openWrite s.config.mergePath = (.error e, w.disk) ∧ x = .error (.io e) ∧
        s' = s ∧ w'.disk = w.disk ∧ w'.clock = w.clock) ∨
      ∃ parent name k d, Seats w.disk s.config.mergePath parent name ∧
        Put w.disk d (parent ++ [name]) k ∧
        ((∃ e, x = .error e ∧ s' = s ∧ Erased d w'.disk (parent ++ [name]) ∧
            w'.clock = w.clock) ∨
          (x = .ok () ∧ w'.disk.files = d.files ∧ w'.disk.fresh = d.fresh)) := by
  obtain ⟨a, ha⟩ := Option.isSome_iff_exists.mp hopened
  rw [merge_eq ha, writeMerged_eq] at h
  rcases hopen : w.disk.openWrite s.config.mergePath with ⟨e | k, d₁⟩
  · cases openWrite_error hopen
    rw [Action.bind_error (create_error hopen _ _)] at h
    cases h
    obtain ⟨hdisk, hclock⟩ := discard_frame s.config.mergePath w
    exact .inl ⟨e, rfl, rfl, rfl, hdisk.trans (remove_of_refused hopen), hclock⟩
  · have hcreate := create_ok hopen Config.activeFile s.config.stamps
    generalize hc : (⟨s.config.mergePath, k, 0, [], Config.activeFile, s.config.stamps, w.now, 0,
      []⟩ : Compactor) = c at hcreate
    have hfile : c.file = k := by rw [← hc]
    have hpath : c.path = s.config.mergePath := by rw [← hc]
    obtain ⟨parent, name, hs⟩ := seats_of_openWrite hopen
    obtain ⟨honly, hclock, hout⟩ := fill_frame s c { w with disk := d₁.setContent k [] }
    rw [Action.bind_ok hcreate] at h
    rcases hx : s.fill c { w with disk := d₁.setContent k [] } with ⟨y, v⟩
    rw [hx] at h honly hclock hout
    have hput : Put w.disk v.disk (parent ++ [name]) k :=
      put_of_openWrite hd hs hopen ((Only.setContent (Nat.zero_le _)).trans (hfile ▸ honly))
    have hf : v.disk.tree[parent ++ [name]]? = some (.file k) := by rw [hput.tree, if_pos rfl]
    have hs' := hput.seats hs
    refine .inr ⟨parent, name, k, v.disk, hs, hput, ?_⟩
    cases y with
    | error e =>
      cases h
      exact .inl ⟨e, rfl, rfl, discard_file hs' hf, (discard_frame _ v).2.trans hclock⟩
    | ok out =>
      have hp : out.path = s.config.mergePath := (hout out rfl).trans hpath
      rw [mergeRest] at h
      rcases install_frame (s := s) (hp.symm ▸ hs') hf with ⟨e, hi⟩ | ⟨z, v', hi, hsame⟩
      · rw [hi] at h
        cases h
        exact .inl ⟨e, rfl, rfl, discard_file hs' hf, (discard_frame _ v).2.trans hclock⟩
      · rw [hi] at h
        cases h
        exact .inr ⟨rfl, hsame⟩

end Store

end LogStore
