import LogStore.Proofs.Disk.Seat

/-! What each change to a disk leaves alone. Every file has one name, and none is longer
than a file can be; writing changes the bytes of one file and no name, and the other
changes touch names and no bytes. -/

namespace LogStore.Disk

/-- What holds of every disk: files are numbered, each has one name, and none is longer
than a file can be. -/
structure Sound (d : Disk) : Prop where
  below : ∀ {names : List Name} {i : FileNo}, d.tree[names]? = some (.file i) → i < d.fresh
  apart : ∀ {a b : List Name} {i : FileNo}, d.tree[a]? = some (.file i) →
    d.tree[b]? = some (.file i) → a = b
  sized : ∀ i, (d.content i).length ≤ largest

/-- Files are numbered. They may have several names, and any length. -/
def Numbered (d : Disk) : Prop :=
  ∀ (names : List Name) (i : FileNo), d.tree[names]? = some (.file i) → i < d.fresh

theorem Sound.numbered {d : Disk} (h : d.Sound) : d.Numbered := fun _ _ => h.below

/-- The second disk differs from the first in the bytes of one file, if at all. -/
structure Only (i : FileNo) (d d' : Disk) : Prop where
  tree : d'.tree = d.tree
  fresh : d'.fresh = d.fresh
  limit : d'.limit = d.limit
  others : ∀ j, j ≠ i → d'.content j = d.content j
  sized : (d'.content i).length ≤ max largest (d.content i).length

namespace Only

variable {i : FileNo} {a b c : Disk}

theorem refl (i : FileNo) (d : Disk) : Only i d d :=
  ⟨rfl, rfl, rfl, fun _ _ => rfl, Nat.le_max_right ..⟩

theorem trans (h : Only i a b) (h' : Only i b c) : Only i a c :=
  ⟨h'.tree.trans h.tree, h'.fresh.trans h.fresh, h'.limit.trans h.limit,
    fun _ hj => (h'.others _ hj).trans (h.others _ hj), by
      have := h.sized
      have := h'.sized
      omega⟩

theorem setContent {d : Disk} {i : FileNo} {bs : Bytes}
    (h : bs.length ≤ max largest (d.content i).length) : Only i d (d.setContent i bs) :=
  ⟨rfl, rfl, rfl, fun _ hj => content_setContent_of_ne d bs (Ne.symm hj),
    by rwa [content_setContent_self]⟩

end Only

theorem getElem?_insert_tree (t : Std.ExtTreeMap (List Name) Node) (a b : List Name) (n : Node) :
    (t.insert a n)[b]? = if a = b then some n else t[b]? := by
  rw [Std.ExtTreeMap.getElem?_insert]
  simp only [Std.compare_eq_iff_eq]

theorem getElem?_erase_tree (t : Std.ExtTreeMap (List Name) Node) (a b : List Name) :
    (t.erase a)[b]? = if a = b then none else t[b]? := by
  rw [Std.ExtTreeMap.getElem?_erase]
  simp only [Std.compare_eq_iff_eq]

theorem ceiling_le (limit : Option Nat) : ceiling limit ≤ largest := Nat.min_le_left ..

/-! What a path stands for is in the tree. -/

theorem walk_congr {d d' : Disk} (h : d'.tree = d.tree) (q names : List Name) :
    d'.walk q names = d.walk q names := by
  induction names generalizing q with
  | nil => rfl
  | cons n names ih => simp only [walk, enter, entry?, h, ih]

theorem locate_congr {d d' : Disk} (h : d'.tree = d.tree) (p : Path) :
    d'.locate p = d.locate p := by
  simp only [locate, walk_congr h]

theorem lookup_congr {d d' : Disk} (h : d'.tree = d.tree) (p : Path) :
    d'.lookup p = d.lookup p := by
  simp only [lookup, locate_congr h, entry?, h]

/-! Changes to one file. -/

section Bytes

variable {d : Disk} {i : FileNo} {bs : Bytes} {pos : Nat}

theorem Sound.of_only {d' : Disk} (h : d.Sound) (ho : Only i d d') : d'.Sound where
  below hn := by
    rw [ho.tree] at hn
    rw [ho.fresh]
    exact h.below hn
  apart ha hb := by
    rw [ho.tree] at ha hb
    exact h.apart ha hb
  sized j := by
    by_cases hj : j = i
    · have := h.sized i
      have := ho.sized
      rw [hj]
      omega
    · rw [ho.others j hj]
      exact h.sized j

theorem writable_eq_iff {length : Nat} (h : 0 < length) :
    d.writable pos length = length ↔ pos + length ≤ ceiling d.limit := by
  unfold writable
  omega

theorem writable_room (h : pos ≤ ceiling d.limit) (length : Nat) :
    pos + d.writable pos length ≤ ceiling d.limit := by
  unfold writable
  omega

theorem length_overlay (old : Bytes) (pos : Nat) (new : Bytes) :
    (overlay old pos new).length = max old.length (pos + new.length) := by
  simp only [overlay, List.length_append, List.length_take, List.length_replicate,
    List.length_drop]
  omega

theorem only_write (d : Disk) (i : FileNo) (pos : Nat) (bs : Bytes) :
    Only i d (d.write i pos bs).2 := by
  simp only [write]
  split
  · exact .refl i d
  · refine .setContent ?_
    have := ceiling_le d.limit
    rw [length_overlay, List.length_take]
    unfold writable at *
    omega

theorem write_end (hpos : pos = (d.content i).length) (bs : Bytes) :
    ∃ d', d.write i pos bs = (d.writable pos bs.length, d') ∧ Only i d d' ∧
      d'.content i = d.content i ++ bs.take (d.writable pos bs.length) := by
  refine ⟨(d.write i pos bs).2, rfl, only_write .., ?_⟩
  subst hpos
  simp only [write]
  split
  · rename_i h0
    simp [h0]
  · rw [content_setContent_self, overlay_end]

theorem appendAll_ok (h : (d.content i).length + bs.length ≤ ceiling d.limit) :
    ∃ d', d.appendAll i bs = (.ok (), d') ∧ Only i d d' ∧
      d'.content i = d.content i ++ bs := by
  have hn : d.writable (d.content i).length bs.length = bs.length := by
    unfold writable
    omega
  obtain ⟨d', hw, ho, hc⟩ := write_end (d := d) (i := i) rfl bs
  rw [hn, List.take_length] at hc
  exact ⟨d', by simp [appendAll, writeAll, hw, hn], ho, hc⟩

theorem appendAll_full (h : ceiling d.limit < (d.content i).length + bs.length) (h0 : bs ≠ []) :
    ∃ d', d.appendAll i bs = (.error .fileTooLarge, d') ∧ Only i d d' ∧
      ∃ n, d'.content i = d.content i ++ bs.take n := by
  have hn : d.writable (d.content i).length bs.length ≠ bs.length := by
    rw [ne_eq, writable_eq_iff (List.length_pos_iff.mpr h0)]
    omega
  obtain ⟨d', hw, ho, hc⟩ := write_end (d := d) (i := i) rfl bs
  exact ⟨d', by simp [appendAll, writeAll, hw, hn], ho, _, hc⟩

theorem setLength_shrink {n : Nat} (h : n ≤ (d.content i).length) :
    d.setLength i n = (.ok (), d.setContent i ((d.content i).take n)) := by
  rw [setLength, if_pos h]

end Bytes

/-! Changes to the tree. -/

section Tree

variable {d : Disk} {parent start goal : List Name} {name : Name} {i : FileNo}

theorem getElem?_create (d : Disk) (parent : List Name) (name : Name) (names : List Name) :
    (d.create parent name).2.tree[names]? =
      if parent ++ [name] = names then some (.file d.fresh) else d.tree[names]? :=
  getElem?_insert_tree ..

theorem content_create_self (d : Disk) (parent : List Name) (name : Name) :
    (d.create parent name).2.content d.fresh = [] := by
  simp [create, content]

theorem content_create_of_ne (d : Disk) (parent : List Name) (name : Name) {j : FileNo}
    (h : j ≠ d.fresh) : (d.create parent name).2.content j = d.content j := by
  simp [create, content, Std.ExtTreeMap.getElem?_insert, Ne.symm h]

/-- Opening a file for writing changes no byte of any file. -/
theorem content_openWrite {d' : Disk} {p : Path} {j : FileNo} (h : d.openWrite p = (.ok j, d'))
    (hi : i < d.fresh) : d'.content i = d.content i := by
  unfold openWrite at h
  split at h
  · cases h
  · cases h
  · split at h
    · cases h
    · split at h
      · cases h
      · cases h
      · cases h
        rfl
      · cases h
        exact content_create_of_ne _ _ _ hi.ne

theorem openWrite_error {d' : Disk} {p : Path} {e : IoError}
    (h : d.openWrite p = (.error e, d')) : d' = d := by
  unfold openWrite at h
  split at h
  · cases h; rfl
  · cases h; rfl
  · split at h
    · cases h; rfl
    · split at h
      · cases h; rfl
      · cases h; rfl
      · cases h
      · cases h

theorem Sound.empty : Disk.empty.Sound where
  below hn := by simp [Disk.empty] at hn
  apart ha := by simp [Disk.empty] at ha
  sized i := by simp [content, Disk.empty]

theorem Sound.create (h : d.Sound) (parent : List Name) (name : Name) :
    (d.create parent name).2.Sound where
  below {names j} hn := by
    rw [getElem?_create] at hn
    change j < d.fresh + 1
    split at hn
    · cases hn
      exact Nat.lt_succ_self _
    · exact (h.below hn).trans (Nat.lt_succ_self _)
  apart {a b j} ha hb := by
    rw [getElem?_create] at ha hb
    split at ha <;> split at hb
    · simp_all
    · cases ha
      exact absurd (h.below hb) (lt_irrefl _)
    · cases hb
      exact absurd (h.below ha) (lt_irrefl _)
    · exact h.apart ha hb
  sized j := by
    by_cases hj : j = d.fresh
    · rw [hj, content_create_self]
      exact Nat.zero_le _
    · rw [content_create_of_ne d parent name hj]
      exact h.sized j

theorem keepsDirs_create (h : d.tree[parent ++ [name]]? = none) :
    KeepsDirs d (d.create parent name).2 := by
  intro names hn
  rw [getElem?_create, if_neg]
  · exact hn
  · rintro rfl
    rw [h] at hn
    cases hn

/-- Moving the names of files about, no two to one place, makes no difference. -/
theorem Sound.of_moves {tree : Std.ExtTreeMap (List Name) Node} (h : d.Sound)
    (move : List Name → List Name) (hmove : ∀ (names : List Name) (i : FileNo),
      tree[names]? = some (Node.file i) → ∃ old, d.tree[old]? = some (.file i) ∧ move old = names) :
    Sound { d with tree } where
  below hn := by
    obtain ⟨old, hold, -⟩ := hmove _ _ hn
    exact h.below hold
  apart ha hb := by
    obtain ⟨olda, hold, rfl⟩ := hmove _ _ ha
    obtain ⟨oldb, hold', rfl⟩ := hmove _ _ hb
    rw [h.apart hold hold']
  sized := h.sized

theorem Sound.erase (h : d.Sound) (goal : List Name) :
    Sound { d with tree := d.tree.erase goal } := by
  refine h.of_moves id fun names j hn => ?_
  rw [getElem?_erase_tree] at hn
  split at hn
  · cases hn
  · exact ⟨names, hn, rfl⟩

theorem keepsDirs_erase (h : d.tree[goal]? ≠ some .dir) :
    KeepsDirs d { d with tree := d.tree.erase goal } := by
  intro names hn
  rw [getElem?_erase_tree, if_neg]
  · exact hn
  · rintro rfl
    exact h hn

theorem remove_ok {d' : Disk} {p : Path} (h : d.remove p = (.ok (), d')) :
    ∃ parent name i, Seats d p parent name ∧ d.tree[parent ++ [name]]? = some (.file i) ∧
      d' = { d with tree := d.tree.erase (parent ++ [name]) } := by
  unfold remove at h
  split at h
  · cases h
  · cases h
  · rename_i parent name slash hloc
    split at h
    · cases h
    · cases h
    · cases h
    · rename_i i he
      unfold entry? at he
      split at he
      · cases he
      · rename_i hshort
        split at h
        · cases h
        · rename_i hslash
          cases h
          rw [Bool.not_eq_true] at hslash hshort
          subst hslash
          exact ⟨parent, name, i, ⟨hloc, hshort⟩, Except.ok.inj he, rfl⟩

theorem exists?_erase {p : Path} (hs : Seats d p parent name)
    (hf : d.tree[parent ++ [name]]? = some (.file i)) :
    exists? { d with tree := d.tree.erase (parent ++ [name]) } p = false := by
  have hdirs : KeepsDirs d { d with tree := d.tree.erase (parent ++ [name]) } :=
    keepsDirs_erase (by rw [hf]; rintro ⟨⟩)
  rw [(hs.of_dirs hdirs).exists?_eq, getElem?_erase_tree, if_pos rfl]
  rfl

theorem remove_error {d' : Disk} {p : Path} {e : IoError} (h : d.remove p = (.error e, d')) :
    d' = d := by
  unfold remove at h
  split at h
  · cases h; rfl
  · cases h; rfl
  · split at h
    · cases h; rfl
    · cases h; rfl
    · cases h; rfl
    · split at h
      · cases h; rfl
      · cases h

theorem getElem?_moved (d : Disk) (start goal : List Name) (i : FileNo) (names : List Name) :
    ((d.tree.erase start).insert goal (.file i))[names]? = if goal = names then some (.file i)
      else if start = names then none else d.tree[names]? := by
  rw [getElem?_insert_tree, getElem?_erase_tree]

theorem Sound.moved (h : d.Sound) (hs : d.tree[start]? = some (.file i)) (goal : List Name) :
    Sound { d with tree := (d.tree.erase start).insert goal (.file i) } := by
  refine h.of_moves (fun names => if names = start then goal else names) fun names j hn => ?_
  rw [getElem?_moved] at hn
  split at hn
  · cases hn
    exact ⟨start, hs, by rwa [if_pos rfl]⟩
  · split at hn
    · cases hn
    · rename_i hne
      exact ⟨names, hn, if_neg (Ne.symm hne)⟩

theorem keepsDirs_moved (hs : d.tree[start]? ≠ some .dir) (hg : d.tree[goal]? ≠ some .dir) :
    KeepsDirs d { d with tree := (d.tree.erase start).insert goal (.file i) } := by
  intro names hn
  rw [getElem?_moved, if_neg, if_neg]
  · exact hn
  · rintro rfl
    exact hs hn
  · rintro rfl
    exact hg hn

theorem Sound.withLimit (h : d.Sound) (limit : Option Nat) : Sound { d with limit } :=
  ⟨h.below, h.apart, h.sized⟩

end Tree

/-! Making directories adds directories, where there was nothing, and nothing else. -/

/-- The second disk has more directories, and is otherwise the first. -/
structure MoreDirs (d d' : Disk) : Prop where
  files : d'.files = d.files
  fresh : d'.fresh = d.fresh
  limit : d'.limit = d.limit
  tree : ∀ names : List Name, d'.tree[names]? = d.tree[names]? ∨
    d.tree[names]? = none ∧ d'.tree[names]? = some .dir

namespace MoreDirs

variable {a b c d d' : Disk}

theorem refl (d : Disk) : MoreDirs d d := ⟨rfl, rfl, rfl, fun _ => .inl rfl⟩

theorem trans (h : MoreDirs a b) (h' : MoreDirs b c) : MoreDirs a c := by
  refine ⟨h'.files.trans h.files, h'.fresh.trans h.fresh, h'.limit.trans h.limit, fun names => ?_⟩
  rcases h.tree names with e | ⟨e, e1⟩ <;> rcases h'.tree names with f | ⟨f, f1⟩
  · exact .inl (f.trans e)
  · exact .inr ⟨e ▸ f, f1⟩
  · exact .inr ⟨e, f.trans e1⟩
  · rw [e1] at f
    cases f

theorem file_iff (h : MoreDirs d d') {names : List Name} {i : FileNo} :
    d'.tree[names]? = some (.file i) ↔ d.tree[names]? = some (.file i) := by
  rcases h.tree names with e | ⟨e, e1⟩
  · rw [e]
  · simp [e, e1]

theorem content_eq (h : MoreDirs d d') (i : FileNo) : d'.content i = d.content i := by
  rw [content, content, h.files]

theorem sound (h : MoreDirs d d') (hd : d.Sound) : d'.Sound where
  below hn := h.fresh ▸ hd.below (h.file_iff.mp hn)
  apart ha hb := hd.apart (h.file_iff.mp ha) (h.file_iff.mp hb)
  sized i := h.content_eq i ▸ hd.sized i

end MoreDirs

theorem moreDirs_mkdir (parents : List Name) (last : Name) (d : Disk) :
    MoreDirs d (mkdir parents last d).2 := by
  unfold mkdir
  split
  · exact .refl d
  · split
    · exact .refl d
    · split
      · exact .refl d
      · exact .refl d
      · rename_i parent _ _ _ he
        have hnone : d.tree[parent ++ [last]]? = none := by
          unfold entry? at he
          split at he
          · cases he
          · exact Except.ok.inj he
        refine ⟨rfl, rfl, rfl, fun names => ?_⟩
        rw [getElem?_insert_tree]
        split
        · rename_i hn
          exact .inr ⟨hn ▸ hnone, rfl⟩
        · exact .inl rfl

theorem unlessDir_snd (names : List Name) (x : Except IoError Unit × Disk) :
    (unlessDir names x).2 = x.2 := by
  rcases x with ⟨_ | _, _⟩ <;> rfl

theorem moreDirs_makeDirs (names : List Name) (d : Disk) : MoreDirs d (makeDirs names d).2 := by
  induction names generalizing d with
  | nil => exact .refl d
  | cons last above ih =>
    have hm := moreDirs_mkdir above.reverse last d
    rw [makeDirs]
    split
    · rename_i d₁ h₁
      rw [h₁] at hm
      have hi := ih d₁
      split
      · rename_i d₂ h₂
        rw [h₂] at hi
        rw [unlessDir_snd]
        exact (hm.trans hi).trans (moreDirs_mkdir ..)
      · rename_i h₂
        rw [h₂] at hi
        exact hm.trans hi
    · rwa [unlessDir_snd]

theorem moreDirs_createDirs (p : Path) (d : Disk) : MoreDirs d (createDirs p d).2 := by
  unfold createDirs
  split
  · exact .refl d
  · split
    · exact .refl d
    · dsimp only
      split
      · split
        · exact .refl d
        · have hm := moreDirs_makeDirs p.names.dropLast.reverse d
          split <;> rename_i h <;> rwa [h] at hm
        · exact .refl d
      · exact moreDirs_makeDirs _ _

/-- What is opened for appending is at the path then. -/
theorem lookup_openWrite {d d' : Disk} {p : Path} {i : FileNo}
    (h : d.openWrite p = (.ok i, d')) : d'.lookup p = .ok (.file i) := by
  obtain ⟨parent, name, hs⟩ := seats_of_openWrite h
  rcases hs.openWrite_ok h with ⟨hnone, rfl, rfl⟩ | ⟨hfile, rfl⟩
  · rw [(hs.of_dirs (keepsDirs_create hnone)).lookup_eq, getElem?_create, if_pos rfl]
  · rw [hs.lookup_eq, hfile]

theorem limit_openWrite {d d' : Disk} {p : Path} {i : FileNo}
    (h : d.openWrite p = (.ok i, d')) : d'.limit = d.limit := by
  obtain ⟨parent, name, hs⟩ := seats_of_openWrite h
  rcases hs.openWrite_ok h with ⟨-, rfl, rfl⟩ | ⟨-, rfl⟩ <;> rfl

section Put

/-- A file stands at this name, made for it or there before, and its bytes may have changed. -/
structure Put (d e : Disk) (place : List Name) (k : FileNo) : Prop where
  limit : e.limit = d.limit
  fresh : d.fresh ≤ e.fresh
  below : k < e.fresh
  others : ∀ i, i < d.fresh → i ≠ k → e.content i = d.content i
  tree : ∀ names, e.tree[names]? = if place = names then some (.file k) else d.tree[names]?
  was : d.tree[place]? = some (.file k) ∨ d.tree[place]? = none ∧ k = d.fresh

/-- Nothing stands at this name any more, and all else is as it was. -/
structure Erased (d e : Disk) (place : List Name) : Prop where
  files : e.files = d.files
  fresh : e.fresh = d.fresh
  limit : e.limit = d.limit
  tree : ∀ names, e.tree[names]? = if place = names then none else d.tree[names]?

variable {d d' e : Disk} {m : Path} {parent : List Name} {name : Name} {place : List Name}
  {k : FileNo}

theorem put_of_openWrite (hd : d.Numbered) (hs : Seats d m parent name)
    (h : d.openWrite m = (.ok k, d')) (ho : Only k d' e) : Put d e (parent ++ [name]) k := by
  rcases hs.openWrite_ok h with ⟨hnone, rfl, rfl⟩ | ⟨hfile, rfl⟩
  · refine ⟨ho.limit, ho.fresh ▸ Nat.le_succ _, ho.fresh ▸ Nat.lt_succ_self _, fun i hi hik => ?_,
      fun names => ?_, .inr ⟨hnone, rfl⟩⟩
    · rw [ho.others i hik, content_create_of_ne _ _ _ hik]
    · rw [ho.tree, getElem?_create]
  · refine ⟨ho.limit, ho.fresh.ge, ho.fresh ▸ hd _ _ hfile, fun i _ hik => ho.others i hik,
      fun names => ?_, .inl hfile⟩
    rw [ho.tree]
    split
    · rename_i hn
      rw [← hn, hfile]
    · rfl

theorem Put.eq_fresh (hp : Put d e place k) (h : d.tree[place]? = none) : k = d.fresh := by
  rcases hp.was with hwas | ⟨-, hk⟩
  · rw [h] at hwas
    cases hwas
  · exact hk

theorem Put.keepsDirs (hp : Put d e place k) : KeepsDirs d e := by
  intro names hn
  rw [hp.tree, if_neg]
  · exact hn
  · rintro rfl
    rcases hp.was with hw | ⟨hw, -⟩ <;> rw [hw] at hn <;> cases hn

theorem Put.seats (hp : Put d e (parent ++ [name]) k) (hs : Seats d m parent name) :
    Seats e m parent name :=
  hs.of_dirs hp.keepsDirs

theorem Erased.content_eq (h : Erased d e place) (i : FileNo) : e.content i = d.content i := by
  rw [content, content, h.files]

theorem Erased.keepsDirs (h : Erased d e place) (hn : d.tree[place]? ≠ some .dir) :
    KeepsDirs d e := by
  intro names hdir
  rw [h.tree, if_neg]
  · exact hdir
  · rintro rfl
    exact hn hdir

theorem erased_erase (d : Disk) (place : List Name) :
    Erased d { d with tree := d.tree.erase place } place :=
  ⟨rfl, rfl, rfl, fun names => getElem?_erase_tree _ place names⟩

theorem erased_of_none (h : d.tree[place]? = none) : Erased d d place := by
  refine ⟨rfl, rfl, rfl, fun names => ?_⟩
  split
  · rename_i hn
    rw [← hn, h]
  · rfl

end Put

end LogStore.Disk
