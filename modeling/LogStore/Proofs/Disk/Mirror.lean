import LogStore.Proofs.Disk.Sound

/-! Disks that differ in how their files are numbered, and in files that have no name. What
is done to both has the same outcome, and they go on differing in nothing else; a file made
on the one stands for the file made on the other. -/

namespace LogStore

/-- Which file of one disk stands for which file of another. -/
abbrev Numbering := FileNo → FileNo → Prop

def Numbering.own (d : Disk) : Numbering := fun i j => i < d.fresh ∧ j = i

def Numbering.join (R : Numbering) (i j : FileNo) : Numbering := fun k l => R k l ∨ k = i ∧ l = j

theorem Numbering.le_join (R : Numbering) (i j : FileNo) : R ≤ R.join i j :=
  fun _ _ h => .inl h

/-- All pairs but the one of the file at this name. -/
def Numbering.leaving (R : Numbering) (d : Disk) (place : List Name) : Numbering :=
  fun i j => R i j ∧ d.tree[place]? ≠ some (.file i)

/-- The same failure, or values that go together. -/
inductive Matched {ε α β : Type} (Q : α → β → Prop) : Except ε α → Except ε β → Prop
  | error (e : ε) : Matched Q (.error e) (.error e)
  | ok {a : α} {b : β} (h : Q a b) : Matched Q (.ok a) (.ok b)

inductive Node.Mirrors (R : Numbering) : Node → Node → Prop
  | file {i j : FileNo} (h : R i j) : Node.Mirrors R (.file i) (.file j)
  | dir : Node.Mirrors R .dir .dir

theorem Node.Mirrors.mono {R R' : Numbering} (hle : R ≤ R') {n n' : Node}
    (h : Node.Mirrors R n n') : Node.Mirrors R' n n' := by
  cases h with
  | file h => exact .file (hle _ _ h)
  | dir => exact .dir

theorem rel_mono {α β : Type} {r r' : α → β → Prop} (h : ∀ a b, r a b → r' a b)
    {x : Option α} {y : Option β} (hxy : Option.Rel r x y) : Option.Rel r' x y := by
  cases hxy with
  | some hr => exact .some (h _ _ hr)
  | none => exact .none

namespace Disk

/-- Files that stand for each other hold the same bytes, and none stands for two. -/
structure SameFiles (R : Numbering) (d d' : Disk) : Prop where
  limit : d'.limit = d.limit
  content : ∀ {i j : FileNo}, R i j → d'.content j = d.content i
  left : ∀ {i j k : FileNo}, R i j → R i k → j = k
  right : ∀ {i j k : FileNo}, R i k → R j k → i = j
  below : ∀ {i j : FileNo}, R i j → i < d.fresh ∧ j < d'.fresh

/-- Moreover, the same names stand for the same directories and files. -/
structure Mirrors (R : Numbering) (d d' : Disk) : Prop extends SameFiles R d d' where
  tree : ∀ names : List Name, Option.Rel (Node.Mirrors R) d.tree[names]? d'.tree[names]?

/-- Files have been written since the disks were those of `o` and `o'`, whose trees may differ;
none has been made or moved. -/
structure OnTrees (o o' : Disk) (R : Numbering) (d d' : Disk) : Prop
    extends SameFiles R d d' where
  left_tree : d.tree = o.tree
  right_tree : d'.tree = o'.tree
  left_fresh : d.fresh = o.fresh
  right_fresh : d'.fresh = o'.fresh

namespace SameFiles

variable {R : Numbering} {d d' e e' : Disk} {i j k k' : FileNo}

theorem symm (h : SameFiles R d d') : SameFiles (fun j i => R i j) d' d where
  limit := h.limit.symm
  content hij := (h.content hij).symm
  left hij hik := h.right hij hik
  right hij hik := h.left hij hik
  below hij := (h.below hij).symm

/-- Changes to files that stand for none make no difference. -/
theorem of_left (h : SameFiles R d d') (hlimit : e.limit = d.limit)
    (hc : ∀ {i j : FileNo}, R i j → e.content i = d.content i) (hf : d.fresh ≤ e.fresh) :
    SameFiles R e d' where
  limit := h.limit.trans hlimit.symm
  content hij := (h.content hij).trans (hc hij).symm
  left := h.left
  right := h.right
  below hij := ⟨(h.below hij).1.trans_le hf, (h.below hij).2⟩

theorem of_right (h : SameFiles R d d') (hlimit : e'.limit = d'.limit)
    (hc : ∀ {i j : FileNo}, R i j → e'.content j = d'.content j) (hf : d'.fresh ≤ e'.fresh) :
    SameFiles R d e' :=
  (h.symm.of_left hlimit hc hf).symm

theorem join (h : SameFiles R d d') (hk : ∀ j, ¬ R k j) (hk' : ∀ i, ¬ R i k')
    (hb : k < d.fresh ∧ k' < d'.fresh) (hc : d'.content k' = d.content k) :
    SameFiles (R.join k k') d d' where
  limit := h.limit
  content := by
    rintro i j (hij | ⟨rfl, rfl⟩)
    · exact h.content hij
    · exact hc
  left := by
    rintro i j l (hij | ⟨rfl, rfl⟩) (hil | ⟨hi, rfl⟩)
    · exact h.left hij hil
    · exact absurd (hi ▸ hij) (hk j)
    · exact absurd hil (hk l)
    · rfl
  right := by
    rintro i j l (hil | ⟨rfl, rfl⟩) (hjl | ⟨rfl, hl⟩)
    · exact h.right hil hjl
    · exact absurd (hl ▸ hil) (hk' i)
    · exact absurd hjl (hk' j)
    · rfl
  below := by
    rintro i j (hij | ⟨rfl, rfl⟩)
    · exact h.below hij
    · exact hb

theorem restrict {R' : Numbering} (h : SameFiles R d d') (hle : R' ≤ R) : SameFiles R' d d' where
  limit := h.limit
  content hij := h.content (hle _ _ hij)
  left hij hik := h.left (hle _ _ hij) (hle _ _ hik)
  right hij hik := h.right (hle _ _ hij) (hle _ _ hik)
  below hij := h.below (hle _ _ hij)

/-! Writing. -/

theorem setContent (h : SameFiles R d d') (hij : R i j) (bs : Bytes) :
    SameFiles R (d.setContent i bs) (d'.setContent j bs) where
  limit := h.limit
  content {k l} hkl := by
    by_cases hk : i = k
    · obtain rfl : j = l := h.left hij (hk ▸ hkl)
      rw [hk, content_setContent_self, content_setContent_self]
    · have hl : j ≠ l := fun hl => hk (h.right hij (hl ▸ hkl))
      rw [content_setContent_of_ne _ _ hk, content_setContent_of_ne _ _ hl, h.content hkl]
  left := h.left
  right := h.right
  below := h.below

theorem writable_eq (h : SameFiles R d d') (pos length : Nat) :
    d'.writable pos length = d.writable pos length := by
  unfold writable
  rw [h.limit]

theorem write (h : SameFiles R d d') (hij : R i j) (pos : Nat) (bs : Bytes) :
    (d'.write j pos bs).1 = (d.write i pos bs).1 ∧
      SameFiles R (d.write i pos bs).2 (d'.write j pos bs).2 := by
  simp only [Disk.write, h.writable_eq, h.content hij, true_and]
  split
  · exact h
  · exact h.setContent hij _

theorem writeAll (h : SameFiles R d d') (hij : R i j) (pos : Nat) (bs : Bytes) :
    (d'.writeAll j pos bs).1 = (d.writeAll i pos bs).1 ∧
      SameFiles R (d.writeAll i pos bs).2 (d'.writeAll j pos bs).2 := by
  obtain ⟨hn, hw⟩ := h.write hij pos bs
  simp only [Disk.writeAll, hn, true_and]
  exact hw

theorem appendAll (h : SameFiles R d d') (hij : R i j) (bs : Bytes) :
    (d'.appendAll j bs).1 = (d.appendAll i bs).1 ∧
      SameFiles R (d.appendAll i bs).2 (d'.appendAll j bs).2 := by
  unfold Disk.appendAll
  rw [h.content hij]
  exact h.writeAll hij _ bs

theorem setLength (h : SameFiles R d d') (hij : R i j) (n : Nat) :
    (d'.setLength j n).1 = (d.setLength i n).1 ∧
      SameFiles R (d.setLength i n).2 (d'.setLength j n).2 := by
  simp only [Disk.setLength, h.content hij, h.limit]
  split
  · exact ⟨rfl, h.setContent hij _⟩
  · split
    · exact ⟨rfl, h⟩
    · exact ⟨rfl, h.setContent hij _⟩

/-! Reading. -/

theorem read_eq (h : SameFiles R d d') {n n' : Node} (hn : Node.Mirrors R n n') :
    d'.read n' = d.read n := by
  cases hn with
  | file hij => exact congrArg _ (h.content hij)
  | dir => rfl

theorem sizeOf_eq (h : SameFiles R d d') {n n' : Node} (hn : Node.Mirrors R n n') :
    d'.sizeOf n' = d.sizeOf n := by
  cases hn with
  | file hij => exact congrArg List.length (h.content hij)
  | dir => rfl

end SameFiles

namespace OnTrees

variable {R : Numbering} {o o' d d' : Disk} {i j : FileNo}

theorem of_sameFiles (h : SameFiles R d d') : OnTrees d d' R d d' := ⟨h, rfl, rfl, rfl, rfl⟩

theorem of_only (h : OnTrees o o' R d d') {e e' : Disk} (hsame : SameFiles R e e') (he : Only i d e)
    (he' : Only j d' e') : OnTrees o o' R e e' where
  toSameFiles := hsame
  left_tree := he.tree.trans h.left_tree
  right_tree := he'.tree.trans h.right_tree
  left_fresh := he.fresh.trans h.left_fresh
  right_fresh := he'.fresh.trans h.right_fresh

theorem write (h : OnTrees o o' R d d') (hij : R i j) (pos : Nat) (bs : Bytes) :
    (d'.write j pos bs).1 = (d.write i pos bs).1 ∧
      OnTrees o o' R (d.write i pos bs).2 (d'.write j pos bs).2 := by
  obtain ⟨hsame, hw⟩ := h.toSameFiles.write hij pos bs
  exact ⟨hsame, h.of_only hw (only_write ..) (only_write ..)⟩

theorem appendAll (h : OnTrees o o' R d d') (hij : R i j) (bs : Bytes) :
    (d'.appendAll j bs).1 = (d.appendAll i bs).1 ∧
      OnTrees o o' R (d.appendAll i bs).2 (d'.appendAll j bs).2 := by
  obtain ⟨hsame, hw⟩ := h.toSameFiles.appendAll hij bs
  exact ⟨hsame, h.of_only hw (only_write ..) (only_write ..)⟩

theorem setLength (h : OnTrees o o' R d d') (hij : R i j) (n : Nat) :
    (d'.setLength j n).1 = (d.setLength i n).1 ∧
      OnTrees o o' R (d.setLength i n).2 (d'.setLength j n).2 := by
  obtain ⟨hsame, hw⟩ := h.toSameFiles.setLength hij n
  exact ⟨hsame, h.of_only hw (only_setLength ..) (only_setLength ..)⟩

end OnTrees

namespace Mirrors

variable {R : Numbering} {d d' e e' : Disk} {p q : Path} {parent : List Name} {name : Name}
  {i j : FileNo}

theorem refl (h : d.Numbered) : Mirrors (.own d) d d where
  limit := rfl
  content := by
    rintro i j ⟨-, rfl⟩
    rfl
  left hij hik := hij.2.trans hik.2.symm
  right hij hik := hij.2.symm.trans hik.2
  below hij := ⟨hij.1, hij.2 ▸ hij.1⟩
  tree names := by
    cases hn : d.tree[names]? with
    | none => exact .none
    | some node =>
      cases node with
      | dir => exact .some .dir
      | file i => exact .some (.file ⟨h _ _ hn, rfl⟩)

theorem numbered (h : Mirrors R d d') : d.Numbered := by
  intro names i hn
  have hrel := h.tree names
  rw [hn] at hrel
  generalize d'.tree[names]? = y at hrel
  cases hrel with
  | some hn =>
    cases hn with
    | file hij => exact (h.below hij).1

theorem of_onTrees (h : Mirrors R d d') (ho : OnTrees d d' R e e') : Mirrors R e e' :=
  ⟨ho.toSameFiles, fun names => by rw [ho.left_tree, ho.right_tree]; exact h.tree names⟩

theorem withLimit (h : Mirrors R d d') (limit : Option Nat) :
    Mirrors R { d with limit } { d' with limit } :=
  ⟨⟨rfl, h.content, h.left, h.right, h.below⟩, h.tree⟩

theorem withTree (h : Mirrors R d d') {t t' : Std.ExtTreeMap (List Name) Node}
    (ht : ∀ names : List Name, Option.Rel (Node.Mirrors R) t[names]? t'[names]?) :
    Mirrors R { d with tree := t } { d' with tree := t' } :=
  ⟨⟨h.limit, h.content, h.left, h.right, h.below⟩, ht⟩

/-! The way to a name is the same on both. -/

theorem entry? (h : Mirrors R d d') (parent : List Name) (name : Name) :
    Matched (Option.Rel (Node.Mirrors R)) (d.entry? parent name) (d'.entry? parent name) := by
  unfold Disk.entry?
  split
  · exact .error _
  · exact .ok (h.tree _)

theorem enter_eq (h : Mirrors R d d') (parent : List Name) (name : Name) :
    d'.enter parent name = d.enter parent name := by
  unfold enter
  split
  · rfl
  · split
    · rfl
    · have he := h.entry? parent name
      generalize d.entry? parent name = x at he ⊢
      generalize d'.entry? parent name = y at he ⊢
      cases he with
      | error e => rfl
      | ok hn =>
        cases hn with
        | none => rfl
        | some hn => cases hn <;> rfl

theorem walk_eq (h : Mirrors R d d') (parent names : List Name) :
    d'.walk parent names = d.walk parent names := by
  induction names generalizing parent with
  | nil => rfl
  | cons n names ih => simp only [walk, h.enter_eq, ih]

theorem locate_eq (h : Mirrors R d d') (p : Path) : d'.locate p = d.locate p := by
  simp only [locate, h.walk_eq]

theorem lookup (h : Mirrors R d d') (p : Path) :
    Matched (Node.Mirrors R) (d.lookup p) (d'.lookup p) := by
  simp only [Disk.lookup, h.locate_eq]
  split
  · exact .error _
  · exact .ok .dir
  · rename_i parent name slash _
    have he := h.entry? parent name
    generalize d.entry? parent name = x at he ⊢
    generalize d'.entry? parent name = y at he ⊢
    cases he with
    | error e => exact .error _
    | ok hn =>
      cases hn with
      | none => exact .error _
      | some hn =>
        cases hn with
        | dir => exact .ok .dir
        | file hij =>
          cases slash
          · exact .ok (.file hij)
          · exact .error _

theorem exists?_eq (h : Mirrors R d d') (p : Path) : d'.exists? p = d.exists? p := by
  have hl := h.lookup p
  unfold exists?
  generalize d.lookup p = x at hl ⊢
  generalize d'.lookup p = y at hl ⊢
  cases hl <;> rfl

theorem isDir_eq (h : Mirrors R d d') (p : Path) : d'.isDir p = d.isDir p := by
  have hl := h.lookup p
  unfold isDir
  generalize d.lookup p = x at hl ⊢
  generalize d'.lookup p = y at hl ⊢
  cases hl with
  | error e => rfl
  | ok hn => cases hn <;> rfl

theorem bytesAt_eq (h : Mirrors R d d') (p : Path) : d'.bytesAt p = d.bytesAt p := by
  have hl := h.lookup p
  unfold bytesAt
  generalize d.lookup p = x at hl ⊢
  generalize d'.lookup p = y at hl ⊢
  cases hl with
  | error e => rfl
  | ok hn => exact h.read_eq hn

/-! Changes to the names. -/

theorem create (h : Mirrors R d d') (parent : List Name) (name : Name) :
    Mirrors (R.join d.fresh d'.fresh) (d.create parent name).2 (d'.create parent name).2 where
  toSameFiles := by
    have hone : SameFiles R (d.create parent name).2 d' := h.toSameFiles.of_left rfl
      (fun hij => content_create_of_ne _ _ _ (h.below hij).1.ne) (Nat.le_succ _)
    have hboth : SameFiles R (d.create parent name).2 (d'.create parent name).2 :=
      hone.of_right rfl (fun hij => content_create_of_ne _ _ _ (h.below hij).2.ne) (Nat.le_succ _)
    refine hboth.join (fun j hj => lt_irrefl _ (h.below hj).1)
      (fun i hi => lt_irrefl _ (h.below hi).2) ⟨Nat.lt_succ_self _, Nat.lt_succ_self _⟩ ?_
    rw [content_create_self, content_create_self]
  tree names := by
    rw [getElem?_create, getElem?_create]
    split
    · exact .some (.file (.inr ⟨rfl, rfl⟩))
    · exact rel_mono (fun _ _ hn => hn.mono (R.le_join _ _)) (h.tree names)

theorem openWrite (h : Mirrors R d d') (p : Path) :
    ∃ R' ≥ R, Mirrors R' (d.openWrite p).2 (d'.openWrite p).2 ∧
      Matched R' (d.openWrite p).1 (d'.openWrite p).1 := by
  simp only [Disk.openWrite, h.locate_eq]
  split
  · exact ⟨R, le_rfl, h, .error _⟩
  · exact ⟨R, le_rfl, h, .error _⟩
  · rename_i parent name slash _
    split
    · exact ⟨R, le_rfl, h, .error _⟩
    · have he := h.entry? parent name
      generalize d.entry? parent name = x at he ⊢
      generalize d'.entry? parent name = y at he ⊢
      cases he with
      | error e => exact ⟨R, le_rfl, h, .error _⟩
      | ok hn =>
        cases hn with
        | none => exact ⟨_, R.le_join _ _, h.create parent name, .ok (.inr ⟨rfl, rfl⟩)⟩
        | some hn =>
          cases hn with
          | dir => exact ⟨R, le_rfl, h, .error _⟩
          | file hij => exact ⟨R, le_rfl, h, .ok hij⟩

theorem erase (h : Mirrors R d d') (goal : List Name) :
    Mirrors R { d with tree := d.tree.erase goal } { d' with tree := d'.tree.erase goal } := by
  refine h.withTree fun names => ?_
  rw [getElem?_erase_tree, getElem?_erase_tree]
  split
  · exact .none
  · exact h.tree names

theorem insert (h : Mirrors R d d') (goal : List Name) {n n' : Node} (hn : Node.Mirrors R n n') :
    Mirrors R { d with tree := d.tree.insert goal n }
      { d' with tree := d'.tree.insert goal n' } := by
  refine h.withTree fun names => ?_
  rw [getElem?_insert_tree, getElem?_insert_tree]
  split
  · exact .some hn
  · exact h.tree names

theorem remove (h : Mirrors R d d') (p : Path) :
    (d'.remove p).1 = (d.remove p).1 ∧ Mirrors R (d.remove p).2 (d'.remove p).2 := by
  simp only [Disk.remove, h.locate_eq]
  split
  · exact ⟨rfl, h⟩
  · exact ⟨rfl, h⟩
  · rename_i parent name slash _
    have he := h.entry? parent name
    generalize d.entry? parent name = x at he ⊢
    generalize d'.entry? parent name = y at he ⊢
    cases he with
    | error e => exact ⟨rfl, h⟩
    | ok hn =>
      cases hn with
      | none => exact ⟨rfl, h⟩
      | some hn =>
        cases hn with
        | dir => exact ⟨rfl, h⟩
        | file hij =>
          cases slash
          · exact ⟨rfl, h.erase _⟩
          · exact ⟨rfl, h⟩

theorem mkdir (h : Mirrors R d d') (parents : List Name) (last : Name) :
    (d'.mkdir parents last).1 = (d.mkdir parents last).1 ∧
      Mirrors R (d.mkdir parents last).2 (d'.mkdir parents last).2 := by
  simp only [Disk.mkdir, h.walk_eq]
  split
  · exact ⟨rfl, h⟩
  · rename_i parent _
    split
    · exact ⟨rfl, h⟩
    · have he := h.entry? parent last
      generalize d.entry? parent last = x at he ⊢
      generalize d'.entry? parent last = y at he ⊢
      cases he with
      | error e => exact ⟨rfl, h⟩
      | ok hn =>
        cases hn with
        | none => exact ⟨rfl, h.insert _ .dir⟩
        | some hn => exact ⟨rfl, h⟩

theorem unlessDir (names : List Name) {x y : Except IoError Unit × Disk} (h1 : y.1 = x.1)
    (h2 : Mirrors R x.2 y.2) : (Disk.unlessDir names y).1 = (Disk.unlessDir names x).1 ∧
      Mirrors R (Disk.unlessDir names x).2 (Disk.unlessDir names y).2 := by
  rw [unlessDir_snd, unlessDir_snd]
  refine ⟨?_, h2⟩
  obtain ⟨a, d⟩ := x
  obtain ⟨b, d'⟩ := y
  cases h1
  cases a with
  | ok => rfl
  | error e =>
    have hdir : d'.leadsToDir names = d.leadsToDir names := by
      rw [leadsToDir, leadsToDir, h2.walk_eq]
    simp only [Disk.unlessDir, hdir]

theorem makeDirs (h : Mirrors R d d') (names : List Name) :
    (d'.makeDirs names).1 = (d.makeDirs names).1 ∧
      Mirrors R (d.makeDirs names).2 (d'.makeDirs names).2 := by
  induction names generalizing d d' with
  | nil => exact ⟨rfl, h⟩
  | cons last above ih =>
    obtain ⟨hsame, hm⟩ := h.mkdir above.reverse last
    simp only [Disk.makeDirs]
    rcases hx : d.mkdir above.reverse last with ⟨a, e⟩
    rcases hy : d'.mkdir above.reverse last with ⟨b, e'⟩
    rw [hx, hy] at hsame hm
    cases hsame
    -- the directories above are made only where one of them is missing
    split
    · rename_i heq
      cases heq
      obtain ⟨hsame, hm⟩ := ih hm
      rcases hx : e.makeDirs above with ⟨a, c⟩
      rcases hy : e'.makeDirs above with ⟨b, c'⟩
      rw [hx, hy] at hsame hm
      cases hsame
      simp only [hx]
      cases a with
      | error cause => exact ⟨rfl, hm⟩
      | ok =>
        obtain ⟨h1, h2⟩ := hm.mkdir above.reverse last
        exact unlessDir _ h1 h2
    · rename_i hne
      split
      · rename_i heq
        cases heq
        exact absurd rfl (hne e')
      · exact unlessDir _ rfl hm

theorem createDirs (h : Mirrors R d d') (p : Path) : (d'.createDirs p).1 = (d.createDirs p).1 ∧
    Mirrors R (d.createDirs p).2 (d'.createDirs p).2 := by
  simp only [Disk.createDirs, h.walk_eq]
  split
  · exact ⟨rfl, h⟩
  · split
    · exact ⟨rfl, h⟩
    · split
      · split
        · exact ⟨rfl, h⟩
        · obtain ⟨hsame, hm⟩ := h.makeDirs p.names.dropLast.reverse
          rcases hx : d.makeDirs p.names.dropLast.reverse with ⟨a, e⟩
          rcases hy : d'.makeDirs p.names.dropLast.reverse with ⟨b, e'⟩
          rw [hx, hy] at hsame hm
          cases hsame
          cases a <;> exact ⟨rfl, hm⟩
        · exact ⟨rfl, h⟩
      · exact h.makeDirs _

theorem seats (h : Mirrors R d d') (hs : Seats d p parent name) : Seats d' p parent name :=
  ⟨(h.locate_eq p).trans hs.located, hs.short⟩

/-- Moving a file over another name. -/
theorem rename (h : Mirrors R d d') (hp : d.lookup p = .ok (.file i)) (q : Path) :
    (d'.rename p q).1 = (d.rename p q).1 ∧ Mirrors R (d.rename p q).2 (d'.rename p q).2 := by
  obtain ⟨parent, name, hs, hfile⟩ := seats_of_lookup hp
  have hs' := h.seats hs
  obtain ⟨j, hij, hfile'⟩ : ∃ j, R i j ∧ d'.tree[parent ++ [name]]? = some (.file j) := by
    have hn := h.tree (parent ++ [name])
    rw [hfile] at hn
    generalize d'.tree[parent ++ [name]]? = y at hn ⊢
    cases hn with
    | some hn =>
      cases hn with
      | file hij => exact ⟨_, hij, rfl⟩
  rw [hs.rename_file hfile, hs'.rename_file hfile', h.locate_eq q]
  split
  · exact ⟨rfl, h⟩
  · exact ⟨rfl, h⟩
  · rename_i goal last slash _
    have he := h.entry? goal last
    generalize d.entry? goal last = x at he ⊢
    generalize d'.entry? goal last = y at he ⊢
    cases he with
    | error e => exact ⟨rfl, h⟩
    | @ok old old' hn =>
      have hdir : old' = some .dir ↔ old = some .dir := by
        cases hn with
        | none => simp
        | some hn => cases hn <;> simp
      simp only [hdir]
      split
      · exact ⟨rfl, h⟩
      · split
        · exact ⟨rfl, h⟩
        · split
          · exact ⟨rfl, h⟩
          · exact ⟨rfl, (h.erase _).insert _ (.file hij)⟩

end Mirrors

end Disk

end LogStore
