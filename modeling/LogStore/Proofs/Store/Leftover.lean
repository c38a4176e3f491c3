import LogStore.Proofs.Disk.Leftover
import LogStore.Proofs.Store.Lockstep

/-! A file at the path of the merge file makes no difference to a store. Of two worlds that
differ in such a file, if one stands there, and in how files are numbered, none can be told
from the other by any request, nor from the bytes of the log. -/

namespace LogStore

open Disk

structure World.Leftover (R : Numbering) (m : Path) (parent : List Name) (name : Name)
    (w w' : World) : Prop where
  disk : Disk.Leftover R m parent name w.disk w'.disk
  clock : w'.clock = w.clock

/-- No store at the path can tell the one world from the other. -/
def World.Alike (R : Numbering) (p : Path) (w w' : World) : Prop :=
  World.Mirrors R w w' ∨
    ∃ parent name, World.Leftover R (p.beside ".merge") parent name w w'

variable {R : Numbering} {w w' : World} {p m : Path} {parent : List Name} {name : Name}

theorem World.Alike.bytesAt_eq (h : World.Alike R p w w') :
    w'.disk.bytesAt p = w.disk.bytesAt p := by
  rcases h with h | ⟨parent, name, h⟩
  · exact h.disk.bytesAt_eq p
  · exact h.disk.bytesAt_eq isEnding_merge

theorem World.Alike.enter (h : World.Alike R p w w') (t : Turn) :
    World.Alike R p (t.enter w) (t.enter w') := by
  rcases h with h | ⟨parent, name, h⟩
  · exact .inl (h.enter t)
  · exact .inr ⟨parent, name, h.disk.withLimit _, rfl⟩

namespace Store

variable {c : Config}

/-- Opening clears what is left, and then goes on alike. Where it is refused, nothing has
changed. -/
theorem openWith_leftover (h : World.Leftover R c.mergePath parent name w w') :
    ∃ R' ≥ R, World.Alike R' c.path (openWith c w).2 (openWith c w').2 ∧
      Matched (Store.Mirrors R') (openWith c w).1 (openWith c w').1 := by
  have hvalid : c.validate w'.disk = c.validate w.disk := by
    simp only [Config.validate, h.disk.isDir_eq isEnding_merge]
  cases hv : c.validate w.disk with
  | error e =>
    rw [openWith_invalid hv, openWith_invalid (hvalid.trans hv)]
    exact ⟨R, le_rfl, .inr ⟨parent, name, h⟩, .error e⟩
  | ok =>
    have hnil : c.path ≠ [] := by
      rintro hnil
      simp [Config.validate, hnil] at hv
    have hends : c.path.EndsInName := by
      by_contra hends
      have hdir := lookup_of_beside isEnding_merge hnil hends h.disk.seat
      simp [Config.validate, hnil, isDir, hdir] at hv
    obtain ⟨r, hr, hslash, hhere, habove⟩ := hends
    obtain ⟨hs, -⟩ := Seats.of_beside isEnding_merge hr hslash hhere habove h.disk.seat
    obtain ⟨hs', -⟩ := Seats.of_beside isEnding_merge hr hslash hhere habove h.disk.seat'
    obtain ⟨v, hstale, hclock, he⟩ := removeStale_seat h.disk.seat h.disk.ne_dir
    obtain ⟨v', hstale', hclock', he'⟩ := removeStale_seat h.disk.seat' h.disk.ne_dir'
    have hw : World.Mirrors R v v' :=
      ⟨h.disk.erased he he', by rw [hclock, hclock', h.clock]⟩
    rw [openWith_of_seat hs hv, openWith_of_seat hs' (hvalid.trans hv), attach_eq,
      Action.bind_ok hstale, Action.bind_ok hstale']
    obtain ⟨R', hR, hv', hm⟩ := mirrors_attachRest c R le_rfl hw
    exact ⟨R', hR, .inl hv', hm⟩

theorem create_leftover (h : World.Leftover R m parent name w w') (fileId : FileId)
    (stamps : StampPolicy) :
    ∃ R' ≥ R, ∃ c c' v v', Compactor.create m fileId stamps w = (.ok c, v) ∧
      Compactor.create m fileId stamps w' = (.ok c', v') ∧ Compactor.Mirrors R' c c' ∧
      World.Mirrors R' v v' := by
  have made {w : World} (hd : w.disk.Numbered) (hs : Seats w.disk m parent name)
      (hn : w.disk.tree[parent ++ [name]]? ≠ some .dir) : ∃ k v,
      Compactor.create m fileId stamps w =
        (.ok ⟨m, k, 0, [], fileId, stamps, w.now, 0, []⟩, v) ∧ v.clock = w.clock ∧
      v.disk.content k = [] ∧ Put w.disk v.disk (parent ++ [name]) k := by
    have hopen := hs.openWrite_eq
    obtain ⟨k, d, hk⟩ : ∃ k d, w.disk.openWrite m = (.ok k, d) := by
      rw [hopen]
      split
      · exact ⟨_, _, rfl⟩
      · exact ⟨_, _, rfl⟩
      · exact absurd ‹_› hn
    exact ⟨k, { w with disk := d.setContent k [] }, Compactor.create_ok hk _ _, rfl,
      content_setContent_self .., put_of_openWrite hd hs hk (.setContent (Nat.zero_le _))⟩
  obtain ⟨k, v, hx, hclock, hc, hp⟩ := made h.disk.numbered h.disk.seat h.disk.ne_dir
  obtain ⟨k', v', hy, hclock', hc', hp'⟩ := made h.disk.symm.numbered h.disk.seat' h.disk.ne_dir'
  have hnow : w'.now = w.now := by rw [World.now, World.now, h.clock]
  rw [hnow] at hy
  exact ⟨_, R.le_join k k', _, _, v, v', hx, hy, .mk (.inr ⟨rfl, rfl⟩),
    h.disk.put_both hp hp' (hc'.trans hc.symm), by rw [hclock, hclock', h.clock]⟩

theorem Mirrors.merge_leftover {s s' : Store} (h : Mirrors R s s')
    (hpath : s.appender.isSome → s.config.path = p)
    (hw : World.Leftover R (p.beside ".merge") parent name w w') :
    ∃ R' ≥ R, Parallel (Mirrors R') (World.Alike R' p) (s.merge w) (s'.merge w') := by
  cases ha : s.appender with
  | none =>
    obtain ⟨hx, hy⟩ := h.merge_closed ha w w'
    rw [hx, hy]
    exact ⟨R, le_rfl, rfl, h, .inr ⟨parent, name, hw⟩⟩
  | some a =>
    have hp := hpath (ha ▸ rfl)
    subst hp
    obtain ⟨R₁, h₁, c, c', v, v', hx, hy, hc, hv⟩ :=
      create_leftover hw Config.activeFile s.config.stamps
    obtain ⟨R₂, h₂, hsame, hs, hrest⟩ := h.merge_of_create (ha ▸ rfl) h₁ hx hy hc hv
    exact ⟨R₂, h₂, hsame, hs, .inl hrest⟩

/-! A store stays that of its path. -/

theorem config_openWith {c : Config} {s : Store} (h : openWith c w = (.ok s, w')) :
    s.config = c := by
  have hattach : ∀ {v : World}, attach c v = (.ok s, w') → s.config = c := by
    intro v hv
    rw [attach_eq] at hv
    obtain ⟨_, v₁, -, hrest⟩ := Action.ok_of_bind hv
    obtain ⟨u, v₂, -, hrest⟩ := Action.ok_of_bind hrest
    dsimp only at hrest
    split at hrest
    all_goals
      obtain ⟨x, v₃, -, hrest⟩ := Action.ok_of_bind hrest
      obtain ⟨segment, v₄, -, hrest⟩ := Action.ok_of_bind hrest
      cases hrest
      rfl
  obtain ⟨_, v, -, hrest⟩ := Action.ok_of_bind h
  dsimp only at hrest
  split at hrest
  · obtain ⟨_, v₁, -, hrest⟩ := Action.ok_of_bind hrest
    exact hattach hrest
  · exact hattach hrest

theorem config_install {s s' : Store} {out : Compacted} {n : Nat} {v : World}
    (h : s.install out w = (.ok (n, s'), v)) : s'.config = s.config := by
  obtain ⟨a, v₁, -, hrest⟩ := Action.ok_of_bind h
  obtain ⟨segment, v₂, -, hrest⟩ := Action.ok_of_bind hrest
  split at hrest <;> cases hrest
  rfl

theorem config_merge (s : Store) (w : World) : (s.merge w).2.1.config = s.config := by
  unfold merge
  split
  · rfl
  · split
    · rfl
    · split
      · rfl
      · rename_i hinstall
        exact config_install hinstall

theorem config_askStore (r : Request) (s : Store) (w : World) :
    (r.askStore s w).2.1.config = s.config ∧
      ((r.askStore s w).2.1.appender.isSome → s.appender.isSome) := by
  cases ha : s.appender with
  | some a =>
    refine ⟨?_, fun _ => rfl⟩
    cases r with
    | get | logSize | openWith | drop => rfl
    | merge => exact config_merge s w
    | set key value =>
      simp only [Request.askStore, set, ha]
      split
      · rfl
      · split <;> rfl
    | delete key =>
      simp only [Request.askStore, delete, ha]
      split
      · split <;> rfl
      · rfl
    | close =>
      simp only [Request.askStore, close, ha]
  | none =>
    cases r with
    | get | logSize | openWith | drop => exact ⟨rfl, fun h => ha ▸ h⟩
    | merge => simp [Request.askStore, merge, ha]
    | set key value =>
      simp only [Request.askStore, set, ha]
      split <;> simp [ha]
    | delete key => simp [Request.askStore, delete, ha]
    | close => simp [Request.askStore, close, ha]

def AtPath (p : Path) (slot : Option Store) : Prop :=
  ∀ s, slot = some s → s.appender.isSome → s.config.path = p

theorem AtPath.run {slot : Option Store} (h : AtPath p slot) {r : Request}
    (hr : r.StaysAt p) : AtPath p (r.run slot w).2.1 := by
  intro s' hs' hopen
  have hask : ∀ s, slot = some s → (r.askStore s w).2.1 = s' → s'.config.path = p := by
    rintro s hs rfl
    obtain ⟨hconfig, happender⟩ := config_askStore r s w
    exact (congrArg Config.path hconfig).trans (h s hs (happender hopen))
  cases r with
  | openWith c =>
    rw [Request.run] at hs'
    split at hs'
    · rename_i heq
      cases hs'
      exact (congrArg Config.path (config_openWith heq)).trans hr
    · cases hs'
  | drop => cases slot <;> cases hs'
  | get | set | delete | merge | close | logSize =>
    cases slot with
    | none => cases hs'
    | some s => exact hask s rfl (Option.some.inj hs')

end Store

variable {slot slot' : Option Store}

/-- One request cannot tell such worlds from each other, nor do they part. -/
theorem Request.run_alike {r : Request} (h : Option.Rel (Store.Mirrors R) slot slot')
    (hw : World.Alike R p w w')
    (hpath : Store.AtPath p slot) (hr : r.StaysAt p) :
    ∃ R' ≥ R, Parallel (Option.Rel (Store.Mirrors R')) (World.Alike R' p) (r.run slot w)
      (r.run slot' w') := by
  rcases hw with hw | ⟨parent, name, hw⟩
  · obtain ⟨R', hR, hsame, hslot, hrest⟩ := r.mirrors_run h hw
    exact ⟨R', hR, hsame, hslot, .inl hrest⟩
  · have hkeep : r.KeepsNames → ∃ R' ≥ R, Parallel (Option.Rel (Store.Mirrors R'))
        (World.Alike R' p) (r.run slot w) (r.run slot' w') := by
      intro hr
      obtain ⟨hsame, hslot, hrest⟩ := run_onTrees h
        ⟨OnTrees.of_sameFiles hw.disk.toSameFiles, hw.clock⟩ hr
      exact ⟨R, le_rfl, hsame, hslot,
        .inr ⟨parent, name, hw.disk.of_onTrees hrest.disk, hrest.clock⟩⟩
    cases r with
    | openWith c =>
      have hc : c.path = p := hr
      subst hc
      obtain ⟨R', hR, hrest, hm⟩ := Store.openWith_leftover hw
      simp only [Request.run]
      rcases hx : Store.openWith c w with ⟨x, v⟩
      rcases hy : Store.openWith c w' with ⟨y, v'⟩
      rw [hx, hy] at hrest hm
      cases hm with
      | error e => exact ⟨R', hR, rfl, .none, hrest⟩
      | ok hs => exact ⟨R', hR, rfl, .some hs, hrest⟩
    | merge =>
      cases h with
      | none => exact ⟨R, le_rfl, rfl, .none, .inr ⟨parent, name, hw⟩⟩
      | some hs =>
        obtain ⟨R', hR, hsame, hs', hrest⟩ := hs.merge_leftover (hpath _ rfl) hw
        simp only [Request.run, Request.askStore, hsame]
        exact ⟨R', hR, rfl, .some hs', hrest⟩
    | drop | get | set | delete | close | logSize => exact hkeep trivial

/-- Two moments of which no turn at the path can tell which it finds. -/
def Indistinct (p : Path) (x y : Option Store × World) : Prop :=
  ∃ R, Option.Rel (Store.Mirrors R) x.1 y.1 ∧ World.Alike R p x.2 y.2

/-- After each turn, the answer to its request, the number of keys and the bytes at the path. -/
def Turn.chronicle (p : Path) : List Turn → Option Store → World →
    List (Option (Except Error Answer) × Option Nat × Except IoError Bytes)
  | [], _, _ => []
  | t :: ts, slot, w =>
    ((t.run slot w).1, (t.run slot w).2.1.map Store.keyCount,
        (t.run slot w).2.2.disk.bytesAt p) ::
      chronicle p ts (t.run slot w).2.1 (t.run slot w).2.2

namespace Indistinct

variable {x y : Option Store × World} {t : Turn}

theorem keyCount_eq (h : Indistinct p x y) :
    y.1.map Store.keyCount = x.1.map Store.keyCount := by
  obtain ⟨R, hslot, -⟩ := h
  generalize x.1 = a at hslot ⊢
  generalize y.1 = b at hslot ⊢
  cases hslot with
  | none => rfl
  | some hs => exact congrArg some hs.keyCount_eq

theorem bytesAt_eq (h : Indistinct p x y) : y.2.disk.bytesAt p = x.2.disk.bytesAt p :=
  h.choose_spec.2.bytesAt_eq

theorem run (h : Indistinct p (slot, w) (slot', w')) (hpath : Store.AtPath p slot)
    (hstay : t.request.StaysAt p) :
    (t.run slot' w').1 = (t.run slot w).1 ∧
      Indistinct p (t.run slot w).2 (t.run slot' w').2 := by
  obtain ⟨R, hslot, hw⟩ := h
  obtain ⟨R', -, hsame, hslot', hrest⟩ := Request.run_alike hslot (hw.enter t) hpath hstay
  exact ⟨hsame, R', hslot', hrest⟩

theorem chronicle_eq {ts : List Turn} (h : Indistinct p (slot, w) (slot', w'))
    (hpath : Store.AtPath p slot) (hstay : ∀ t ∈ ts, t.request.StaysAt p) :
    Turn.chronicle p ts slot' w' = Turn.chronicle p ts slot w := by
  induction ts generalizing slot slot' w w' with
  | nil => rfl
  | cons t ts ih =>
    have ht := hstay t List.mem_cons_self
    obtain ⟨hsame, hnext⟩ := h.run hpath ht
    rw [Turn.chronicle, Turn.chronicle, hsame, hnext.keyCount_eq, hnext.bytesAt_eq,
      ih hnext (hpath.run (w := t.enter w) ht) fun t' ht' => hstay t' (List.mem_cons_of_mem _ ht')]

end Indistinct

end LogStore
