import LogStore.Proofs.Disk.Sound
import LogStore.Proofs.Store.Ideal

/-! Whatever is asked of a store, and whatever store it is asked of, the disk stays sound. So
from the first store that opens at a path, there is always one that stands over its log. -/

namespace LogStore

open Disk

namespace Action

variable {α β : Type}

def KeepsSound (x : Action α) : Prop := ∀ w : World, w.disk.Sound → (x w).2.disk.Sound

namespace KeepsSound

theorem pure (a : α) : KeepsSound (Pure.pure a : Action α) := fun _ h => h

theorem throw (e : Error) : KeepsSound (MonadExcept.throw e : Action α) := fun _ h => h

theorem world : KeepsSound Action.world := fun _ h => h

theorem report (e : Event) : KeepsSound (Action.report e) := fun _ h => h

theorem ask (f : Disk → Except Error α) : KeepsSound (Action.ask f) := fun _ h => h

theorem bind {x : Action α} {f : α → Action β} (hx : KeepsSound x) (hf : ∀ a, KeepsSound (f a)) :
    KeepsSound (x >>= f) := by
  intro w h
  have hw := hx w h
  rw [bind_eq]
  split <;> rename_i heq <;> rw [heq] at hw
  · exact hf _ _ hw
  · exact hw

theorem onDisk {f : Disk → Except IoError α × Disk} (hf : ∀ d : Disk, d.Sound → (f d).2.Sound) :
    KeepsSound (Action.onDisk f) := by
  intro w h
  have hd := hf w.disk h
  simp only [Action.onDisk]
  split <;> rename_i heq <;> rw [heq] at hd
  · exact hd
  · exact hd

end KeepsSound

end Action

open LogStore.Action

namespace Appender

theorem keepsSound_openEnd (p : Path) (fileId : FileId) : KeepsSound (openEnd p fileId) :=
  .bind (.onDisk fun _ h => h.openWrite p) fun _ => .bind .world fun _ => .pure _

theorem keepsSound_saveTail (file : FileNo) (pos : Nat) (target : Path) :
    KeepsSound (saveTail file pos target) :=
  .bind (.onDisk fun _ h => h.openWrite target) fun i => .onDisk fun _ h => h.appendAll i _

theorem keepsSound_openAfter (p : Path) (fileId : FileId) (validLen : Nat) :
    KeepsSound (openAfter p fileId validLen) := by
  refine .bind (keepsSound_openEnd p fileId) fun a => ?_
  split
  · exact .pure a
  · exact .bind (keepsSound_saveTail _ _ _) fun _ => .bind (.report _) fun _ =>
      .bind (.onDisk fun _ h => h.setLength _ _) fun _ => .pure _

theorem sound_rollBack (a : Appender) {w : World} (h : w.disk.Sound) :
    (a.rollBack w).disk.Sound := by
  have hd := h.setLength a.file a.offset
  unfold rollBack
  split <;> rename_i heq <;> rw [heq] at hd
  · exact hd
  · exact hd

theorem sound_append (r : Record) (a : Appender) {w : World} (h : w.disk.Sound) :
    (a.append r w).2.2.disk.Sound := by
  unfold append
  split
  · exact h
  · rename_i bs _
    have hd := h.appendAll a.file bs
    split <;> rename_i heq <;> rw [heq] at hd
    · exact sound_rollBack a hd
    · exact hd

end Appender

namespace Compactor

variable {d : Disk}

theorem sound_flush (c : Compactor) (h : d.Sound) : (c.flush d).2.2.Sound := h.write ..

theorem sound_push (bs : Bytes) (c : Compactor) (h : d.Sound) : (c.push bs d).2.2.Sound := by
  unfold push
  split
  rename_i result c' d' heq
  have hd : d'.Sound := by
    split at heq
    · have hf := sound_flush c h
      rwa [heq] at hf
    · cases heq
      exact h
  split
  · exact hd
  · split
    · exact hd.write ..
    · exact hd

theorem sound_add (key : Bytes) (old : Entry) (value : Bytes) (c : Compactor) (h : d.Sound) :
    (c.add key old value d).2.2.Sound := by
  unfold add
  split
  · exact h
  · dsimp only
    split
    · exact h
    · rename_i bs _
      have hd := sound_push bs c h
      split <;> rename_i heq <;> rw [heq] at hd
      · exact hd
      · exact hd

theorem sound_finish (c : Compactor) (h : d.Sound) : (c.finish d).2.Sound := by
  have hd := sound_flush c h
  unfold finish
  split <;> rename_i heq <;> rw [heq] at hd
  · exact sound_flush _ hd
  · exact hd

theorem keepsSound_create (p : Path) (fileId : FileId) (stamps : StampPolicy) :
    KeepsSound (create p fileId stamps) := by
  refine .bind (.onDisk fun _ h => h.openWrite p) fun i => .bind ?_ fun _ =>
    .bind .world fun _ => .pure _
  intro w h
  exact h.truncate i

end Compactor

namespace Store

variable {w : World}

theorem keepsSound_removeStale (p : Path) : KeepsSound (removeStale p) := by
  refine .bind .world fun w => ?_
  split
  · exact .bind (.report _) fun _ => .onDisk fun _ h => h.remove p
  · exact .pure ()

theorem keepsSound_reopen (p : Path) : KeepsSound (reopen p) := by
  refine .bind .world fun w => ?_
  split
  · exact .throw _
  · refine .bind (.report _) fun _ => ?_
    dsimp only
    split
    · exact .bind (.report _) fun _ => .bind (Appender.keepsSound_openAfter _ _ _) fun _ => .pure _
    · exact .bind (Appender.keepsSound_openAfter _ _ _) fun _ => .pure _

theorem keepsSound_start (p : Path) : KeepsSound (start p) :=
  .bind (.report _) fun _ => .bind (Appender.keepsSound_openEnd _ _) fun _ => .pure _

theorem keepsSound_attach (c : Config) : KeepsSound (attach c) := by
  refine .bind (keepsSound_removeStale _) fun _ => .bind .world fun w => ?_
  dsimp only
  split
  · exact .bind (keepsSound_reopen _) fun _ => .bind (.ask _) fun _ => .pure _
  · exact .bind (keepsSound_start _) fun _ => .bind (.ask _) fun _ => .pure _

theorem keepsSound_openWith (c : Config) : KeepsSound (openWith c) := by
  refine .bind (.ask _) fun _ => ?_
  dsimp only
  split
  · exact .bind (.onDisk fun _ h => h.createDirs _) fun _ => keepsSound_attach c
  · exact keepsSound_attach c

theorem sound_set (key value : Bytes) (s : Store) (h : w.disk.Sound) :
    (s.set key value w).2.2.disk.Sound := by
  unfold set
  split
  · exact h
  · split
    · exact h
    · rename_i a _
      have hd := Appender.sound_append ⟨w.now, key, value⟩ a h
      dsimp only
      split <;> rename_i heq <;> rw [heq] at hd
      · exact hd
      · exact hd

theorem sound_delete (key : Bytes) (s : Store) (h : w.disk.Sound) :
    (s.delete key w).2.2.disk.Sound := by
  unfold delete
  split
  · exact h
  · rename_i a _
    have hd := Appender.sound_append (.tombstone key w.now) a h
    split
    · split <;> rename_i heq <;> rw [heq] at hd
      · exact hd
      · exact hd
    · exact h

theorem sound_close (s : Store) (h : w.disk.Sound) : (s.close w).2.disk.Sound := by
  unfold close
  split
  · exact h
  · exact h

theorem sound_copyAll (segments : Segments) (es : List (Bytes × Entry)) (c : Compactor) {d : Disk}
    (h : d.Sound) : (copyAll segments es c d).2.2.Sound := by
  induction es generalizing c d with
  | nil => exact h
  | cons x es ih =>
    rw [copyAll]
    split
    · exact h
    · rename_i value _
      have hd := Compactor.sound_add x.1 x.2 value c h
      split <;> rename_i heq <;> rw [heq] at hd
      · exact hd
      · exact ih _ hd

theorem keepsSound_writeMerged (s : Store) : KeepsSound s.writeMerged := by
  refine .bind (Compactor.keepsSound_create _ _ _) fun c w h => ?_
  have hd := sound_copyAll s.segments s.index.toList c h
  split <;> rename_i heq <;> rw [heq] at hd
  · exact Compactor.sound_flush _ hd
  · rename_i c' _
    have hf := Compactor.sound_finish c' hd
    split <;> rename_i heq' <;> rw [heq'] at hf
    · exact hf
    · exact hf

theorem sound_commit (out : Compacted) (p : Path) (ix : Index) {d : Disk} (h : d.Sound) :
    (commit out p ix d).2.Sound := by
  have hd := h.rename out.path p
  unfold commit
  split <;> rename_i heq <;> rw [heq] at hd
  · exact hd
  · exact hd

theorem keepsSound_install (s : Store) (out : Compacted) : KeepsSound (s.install out) := by
  refine .bind (Appender.keepsSound_openEnd _ _) fun a => .bind (.ask _) fun segment w h => ?_
  have hd := sound_commit out s.config.path s.index h
  by_cases hempty : s.segments.isEmpty = true
  · simp only [Segments.swap, hempty, if_true]
    exact h
  · rcases hc : commit out s.config.path s.index w.disk with ⟨_ | _, d⟩
    · rw [hc] at hd
      simp only [Segments.swap, if_neg hempty, hc]
      exact hd
    · rw [hc] at hd
      simp only [Segments.swap, if_neg hempty, hc]
      exact hd

theorem sound_discard (p : Path) (h : w.disk.Sound) : (discard p w).disk.Sound := by
  have hd := h.remove p
  unfold discard
  split <;> rename_i heq <;> rw [heq] at hd
  · exact hd
  · dsimp only
    split
    · exact hd
    · exact hd

theorem sound_merge (s : Store) (h : w.disk.Sound) : (s.merge w).2.2.disk.Sound := by
  unfold merge
  split
  · exact h
  · have hw := keepsSound_writeMerged s w h
    split <;> rename_i heq <;> rw [heq] at hw
    · exact sound_discard _ hw
    · rename_i out _
      have hi := keepsSound_install s out _ hw
      split <;> rename_i heq' <;> rw [heq'] at hi
      · exact sound_discard _ hi
      · exact hi

/-- One request, to whatever store, whether it is granted or not. -/
theorem sound_run (r : Request) (slot : Option Store) (h : w.disk.Sound) :
    (r.run slot w).2.2.disk.Sound := by
  cases r with
  | openWith c =>
    have ho := keepsSound_openWith c w h
    rw [Request.run]
    split <;> rename_i heq <;> rw [heq] at ho
    · exact ho
    · exact ho
  | drop => cases slot <;> exact h
  | get | logSize => cases slot <;> exact h
  | set key value =>
    cases slot with
    | none => exact h
    | some s => exact sound_set key value s h
  | delete key =>
    cases slot with
    | none => exact h
    | some s => exact sound_delete key s h
  | merge =>
    cases slot with
    | none => exact h
    | some s => exact sound_merge s h
  | close =>
    cases slot with
    | none => exact h
    | some s => exact sound_close s h

theorem sound_runAll (ts : List Turn) (slot : Option Store) (h : w.disk.Sound) :
    (Turn.runAll ts slot w).2.disk.Sound := by
  induction ts generalizing slot w with
  | nil => exact h
  | cons t ts ih => exact ih _ (sound_run t.request slot (h.withLimit t.limit))

/-- No store has been opened yet, or one stands over its log. -/
def Ready (p : Path) (slot : Option Store) (w : World) : Prop :=
  slot = none ∨ ∃ m, Stands p m slot w

variable {p : Path} {slot : Option Store} {t : Turn}

theorem Ready.run (h : Ready p slot w) (hd : w.disk.Sound) (hstay : t.request.StaysAt p) :
    Ready p (t.run slot w).2.1 (t.run slot w).2.2 := by
  rcases h with rfl | ⟨m, h⟩
  · unfold Turn.run
    cases hr : t.request with
    | openWith c =>
      rw [hr] at hstay
      have hc : c.path = p := hstay
      subst hc
      rcases hopen : openWith c (t.enter w) with ⟨_ | s, v⟩
      · simp only [Request.run, hopen]
        exact .inl rfl
      · obtain ⟨no, rs, -, -, -, rfl, hlog⟩ := openWith_ok (w := t.enter w) (hd.withLimit _) hopen
        simp only [Request.run, hopen]
        exact .inr ⟨_, .opened rfl hlog⟩
    | drop | get | set | delete | merge | close | logSize => exact .inl rfl
  · exact .inr ⟨_, (h.step hstay).2⟩

theorem Ready.runAll {ts : List Turn} (h : Ready p slot w) (hd : w.disk.Sound)
    (hstay : ∀ t ∈ ts, t.request.StaysAt p) :
    Ready p (Turn.runAll ts slot w).1 (Turn.runAll ts slot w).2 := by
  induction ts generalizing slot w with
  | nil => exact h
  | cons t ts ih =>
    exact ih (h.run hd (hstay t List.mem_cons_self)) (sound_run _ _ (hd.withLimit _))
      fun t' ht' => hstay t' (List.mem_cons_of_mem _ ht')

theorem Ready.quiet (h : Ready p slot w) :
    slot = none ∨ w.disk.exists? (p.beside ".merge") = false := by
  rcases h with h | ⟨m, h⟩
  · exact .inl h
  · obtain ⟨no, rs, phase, hlog, -⟩ := h.log
    exact .inr hlog.quiet

end Store

end LogStore
