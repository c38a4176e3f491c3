import LogStore.Proofs.Disk.Mirror
import LogStore.Proofs.Disk.Site

/-! Disks that differ in one file beside a path, and in how their files are numbered. With
that name cleared on both, or a file put there on both, they look the same. -/

namespace LogStore.Disk

variable {R : Numbering} {d d' e e' : Disk} {m p : Path} {parent : List Name} {name : Name}
  {k k' : FileNo}

/-- The names are the same but for the one at which the path `m` has its seat. There, on
either disk, stands nothing, or a file that stands for none. -/
structure Leftover (R : Numbering) (m : Path) (parent : List Name) (name : Name)
    (d d' : Disk) : Prop extends SameFiles R d d' where
  seat : Seats d m parent name
  seat' : Seats d' m parent name
  tree : ∀ names, parent ++ [name] ≠ names →
    Option.Rel (Node.Mirrors R) d.tree[names]? d'.tree[names]?
  loose : ∀ node, d.tree[parent ++ [name]]? = some node →
    ∃ k < d.fresh, node = .file k ∧ ∀ j, ¬ R k j
  loose' : ∀ node, d'.tree[parent ++ [name]]? = some node →
    ∃ k < d'.fresh, node = .file k ∧ ∀ i, ¬ R i k

namespace Leftover

theorem of_onTrees (h : Leftover R m parent name d d') (ho : OnTrees d d' R e e') :
    Leftover R m parent name e e' where
  toSameFiles := ho.toSameFiles
  seat := h.seat.of_tree_eq ho.left_tree
  seat' := h.seat'.of_tree_eq ho.right_tree
  tree := by rw [ho.left_tree, ho.right_tree]; exact h.tree
  loose := by rw [ho.left_tree, ho.left_fresh]; exact h.loose
  loose' := by rw [ho.right_tree, ho.right_fresh]; exact h.loose'

theorem withLimit (h : Leftover R m parent name d d') (limit : Option Nat) :
    Leftover R m parent name { d with limit } { d' with limit } where
  limit := rfl
  content := h.content
  left := h.left
  right := h.right
  below := h.below
  seat := h.seat.of_tree_eq rfl
  seat' := h.seat'.of_tree_eq rfl
  tree := h.tree
  loose := h.loose
  loose' := h.loose'

theorem numbered (h : Leftover R m parent name d d') : d.Numbered := by
  intro names i hn
  by_cases hplace : parent ++ [name] = names
  · obtain ⟨k, hk, heq, -⟩ := h.loose _ (hplace ▸ hn)
    cases heq
    exact hk
  · have hrel := h.tree names hplace
    rw [hn] at hrel
    generalize d'.tree[names]? = y at hrel
    cases hrel with
    | some hn =>
      cases hn with
      | file hij => exact (h.below hij).1

theorem symm (h : Leftover R m parent name d d') :
    Leftover (fun j i => R i j) m parent name d' d where
  toSameFiles := h.toSameFiles.symm
  seat := h.seat'
  seat' := h.seat
  tree names hne := by
    have hrel := h.tree names hne
    generalize d.tree[names]? = x at hrel ⊢
    generalize d'.tree[names]? = y at hrel ⊢
    cases hrel with
    | none => exact .none
    | some hn =>
      cases hn with
      | dir => exact .some .dir
      | file hij => exact .some (.file hij)
  loose := h.loose'
  loose' := h.loose

theorem ne_dir (h : Leftover R m parent name d d') : d.tree[parent ++ [name]]? ≠ some .dir := by
  intro hn
  obtain ⟨k, -, hk, -⟩ := h.loose _ hn
  cases hk

theorem ne_dir' (h : Leftover R m parent name d d') : d'.tree[parent ++ [name]]? ≠ some .dir := by
  intro hn
  obtain ⟨k, -, hk, -⟩ := h.loose' _ hn
  cases hk

theorem lookup {ending : String} (he : Path.IsEnding ending)
    (h : Leftover R (p.beside ending) parent name d d') :
    Matched (Node.Mirrors R) (d.lookup p) (d'.lookup p) := by
  by_cases h0 : p = []
  · subst h0
    exact .error _
  · by_cases hp : p.EndsInName
    · obtain ⟨r, hr, hslash, hhere, habove⟩ := hp
      obtain ⟨hs, rfl⟩ := Seats.of_beside he hr hslash hhere habove h.seat
      obtain ⟨hs', -⟩ := Seats.of_beside he hr hslash hhere habove h.seat'
      have hn := h.tree (parent ++ [r.last]) (beside_ne parent r.last he)
      rw [hs.lookup_eq, hs'.lookup_eq]
      generalize d.tree[parent ++ [r.last]]? = x at hn ⊢
      generalize d'.tree[parent ++ [r.last]]? = y at hn ⊢
      cases hn with
      | none => exact .error _
      | some hn => exact .ok hn
    · rw [lookup_of_beside he h0 hp h.seat, lookup_of_beside he h0 hp h.seat']
      exact .ok .dir

theorem bytesAt_eq {ending : String} (he : Path.IsEnding ending)
    (h : Leftover R (p.beside ending) parent name d d') : d'.bytesAt p = d.bytesAt p := by
  have hl := h.lookup he
  unfold bytesAt
  generalize d.lookup p = x at hl ⊢
  generalize d'.lookup p = y at hl ⊢
  cases hl with
  | error e => rfl
  | ok hn => exact h.read_eq hn

theorem isDir_eq {ending : String} (he : Path.IsEnding ending)
    (h : Leftover R (p.beside ending) parent name d d') : d'.isDir p = d.isDir p := by
  have hl := h.lookup he
  unfold isDir
  generalize d.lookup p = x at hl ⊢
  generalize d'.lookup p = y at hl ⊢
  cases hl with
  | error e => rfl
  | ok hn => cases hn <;> rfl

/-- With the one name gone on both, all is the same. -/
theorem erased (h : Leftover R m parent name d d') (he : Erased d e (parent ++ [name]))
    (he' : Erased d' e' (parent ++ [name])) : Mirrors R e e' where
  limit := by rw [he.limit, he'.limit, h.limit]
  content hij := by rw [he.content_eq, he'.content_eq, h.content hij]
  left := h.left
  right := h.right
  below := by rw [he.fresh, he'.fresh]; exact h.below
  tree names := by
    rw [he.tree, he'.tree]
    split
    · exact .none
    · rename_i hn
      exact h.tree names hn

theorem erased_right (h : Leftover R m parent name d d') (he : Erased d' e' (parent ++ [name])) :
    Leftover R m parent name d e' where
  toSameFiles := h.toSameFiles.of_right he.limit (fun _ => he.content_eq _) he.fresh.ge
  seat := h.seat
  seat' := h.seat'.of_dirs (he.keepsDirs h.ne_dir')
  tree names hn := by
    rw [he.tree, if_neg hn]
    exact h.tree names hn
  loose := h.loose
  loose' node hn := by
    rw [he.tree, if_pos rfl] at hn
    cases hn

theorem put_right (h : Leftover R m parent name d d') (hp : Put d' e' (parent ++ [name]) k) :
    Leftover R m parent name d e' := by
  have hk : ∀ i, ¬ R i k := by
    intro i hi
    rcases hp.was with hw | ⟨-, rfl⟩
    · obtain ⟨l, -, hl, hloose⟩ := h.loose' _ hw
      cases hl
      exact hloose i hi
    · exact lt_irrefl _ (h.below hi).2
  refine ⟨h.toSameFiles.of_right hp.limit (fun hij => hp.others _ (h.below hij).2 ?_) hp.fresh,
    h.seat, hp.seats h.seat', fun names hn => ?_, h.loose, fun node hn => ?_⟩
  · rintro rfl
    exact hk _ hij
  · rw [hp.tree, if_neg hn]
    exact h.tree names hn
  · rw [hp.tree, if_pos rfl] at hn
    cases hn
    exact ⟨k, hp.below, rfl, hk⟩

/-- What is put under the one name on both, with the same bytes, is one file. -/
theorem put_both (h : Leftover R m parent name d d') (hp : Put d e (parent ++ [name]) k)
    (hp' : Put d' e' (parent ++ [name]) k') (hc : e'.content k' = e.content k) :
    Mirrors (R.join k k') e e' := by
  have hk : ∀ j, ¬ R k j := by
    intro j hj
    rcases hp.was with hw | ⟨-, rfl⟩
    · obtain ⟨l, -, hl, hloose⟩ := h.loose _ hw
      cases hl
      exact hloose j hj
    · exact lt_irrefl _ (h.below hj).1
  have hright := h.put_right hp'
  obtain ⟨l, -, hl, hk'⟩ := hright.loose' (.file k') (by rw [hp'.tree, if_pos rfl])
  cases hl
  have hboth : SameFiles R e e' := hright.toSameFiles.of_left hp.limit
    (fun hij => hp.others _ (h.below hij).1 (by rintro rfl; exact hk _ hij)) hp.fresh
  refine ⟨hboth.join hk hk' ⟨hp.below, hp'.below⟩ hc, fun names => ?_⟩
  rw [hp.tree, hp'.tree]
  split
  · exact .some (.file (.inr ⟨rfl, rfl⟩))
  · rename_i hn
    exact rel_mono (fun _ _ hn => hn.mono (R.le_join _ _)) (h.tree names hn)

end Leftover

/-- A file is put under a name on the one disk only. The file that stands there on the other
must have no name besides, for it goes on standing for none. -/
theorem Mirrors.leftover_of_put (h : Mirrors R d d')
    (hlone : ∀ names i, d.tree[parent ++ [name]]? = some (.file i) →
      d.tree[names]? = some (.file i) → parent ++ [name] = names)
    (hs : Seats d m parent name) (hp : Put d' e' (parent ++ [name]) k) :
    Leftover (Numbering.leaving R d (parent ++ [name])) m parent name d e' := by
  have hn := h.tree (parent ++ [name])
  have hk : ∀ i, ¬ Numbering.leaving R d (parent ++ [name]) i k := by
    rintro i ⟨hi, hne⟩
    rcases hp.was with hw | ⟨hw, rfl⟩
    · rw [hw] at hn
      generalize hx : d.tree[parent ++ [name]]? = x at hn hne
      cases hn with
      | some hn =>
        cases hn with
        | file hik => exact hne (by rw [h.right hi hik])
    · exact lt_irrefl _ (h.below hi).2
  have hle : Numbering.leaving R d (parent ++ [name]) ≤ R := fun _ _ hij => hij.1
  refine ⟨(h.toSameFiles.restrict hle).of_right hp.limit
      (fun hij => hp.others _ (h.below hij.1).2 ?_) hp.fresh, hs, hp.seats (h.seats hs),
    fun names hne => ?_, fun node hnode => ?_, fun node hnode => ?_⟩
  · rintro rfl
    exact hk _ hij
  · rw [hp.tree, if_neg hne]
    have hrel := h.tree names
    generalize hx : d.tree[names]? = x at hrel ⊢
    generalize d'.tree[names]? = y at hrel ⊢
    cases hrel with
    | none => exact .none
    | some hn =>
      cases hn with
      | dir => exact .some .dir
      | file hij =>
        exact .some (.file ⟨hij, fun hplace => hne (hlone _ _ hplace hx)⟩)
  · cases node with
    | file i => exact ⟨i, h.numbered _ _ hnode, rfl, fun j hij => hij.2 hnode⟩
    | dir =>
      rw [hnode] at hn
      rcases hp.was with hw | ⟨hw, -⟩
      · rw [hw] at hn
        cases hn with
        | some hdir => cases hdir
      · rw [hw] at hn
        cases hn
  · rw [hp.tree, if_pos rfl] at hnode
    cases hnode
    exact ⟨k, hp.below, rfl, hk⟩

/-- A name that comes or goes beside a path makes no difference to where the path leads. -/
theorem lookup_of_beside_eq {ending : String} (he : Path.IsEnding ending)
    (hs : Seats d (p.beside ending) parent name) (hs' : Seats d' (p.beside ending) parent name)
    (ht : ∀ names, parent ++ [name] ≠ names → d'.tree[names]? = d.tree[names]?) :
    d'.lookup p = d.lookup p := by
  by_cases h0 : p = []
  · subst h0
    rfl
  by_cases hp : p.EndsInName
  · obtain ⟨r, hr, hslash, hhere, habove⟩ := hp
    obtain ⟨hseat, rfl⟩ := Seats.of_beside he hr hslash hhere habove hs
    obtain ⟨hseat', -⟩ := Seats.of_beside he hr hslash hhere habove hs'
    rw [hseat.lookup_eq, hseat'.lookup_eq, ht _ (beside_ne parent r.last he)]
  · rw [lookup_of_beside he h0 hp hs, lookup_of_beside he h0 hp hs']

end LogStore.Disk
