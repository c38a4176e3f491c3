import LogStore.Proofs.Disk.Route

/-! The seat of a path: the directory that it leads into, and its last name there. What
stands at a path with a seat is one entry of the tree, and the paths beside it have their
seats in the same directory, under other names. A seat stays while its directories do. -/

namespace LogStore

/-- The path, or its last name, has more bytes than any file's can. -/
def Path.tooLong (p : Path) : Bool := 4096 ≤ Name.size p || p.route?.any (·.last.tooLong)

structure Path.IsEnding (ending : String) : Prop where
  slash : '/' ∉ ending.toList
  nul : '\x00' ∉ ending.toList
  long : 2 < ending.toList.length

namespace Disk

theorem locate_eq_entry_iff {d : Disk} {p : Path} {parent : List Name} {name : Name}
    {slash : Bool} : d.locate p = .ok (.entry parent name slash) ↔ p.refusal? = none ∧
      ∃ r, p.route? = some r ∧ d.walk [] r.parents = .ok parent ∧ r.last ≠ Path.here ∧
        r.last ≠ Path.above ∧ r.last = name ∧ r.slash = slash := by
  unfold locate
  cases p.refusal? with
  | some e => simp
  | none =>
    cases p.route? with
    | none => simp
    | some r =>
      cases hw : d.walk [] r.parents with
      | error e => simp [hw]
      | ok q =>
        by_cases h1 : r.last = Path.here
        · simp [h1, hw]
        · by_cases h2 : r.last = Path.above
          · simp [h2, hw, Path.above, Path.here]
          · simp [h1, h2, hw]

theorem walk_append (d : Disk) (at_ : List Name) (xs ys : List Name) :
    d.walk at_ (xs ++ ys) = (d.walk at_ xs).bind fun q => d.walk q ys := by
  induction xs generalizing at_ with
  | nil => rfl
  | cons x xs ih =>
    simp only [List.cons_append, walk]
    cases d.enter at_ x with
    | error e => rfl
    | ok q => exact ih q

theorem walk_filter_here (d : Disk) (at_ : List Name) (xs : List Name) :
    d.walk at_ (xs.filter fun n => n ≠ Path.here) = d.walk at_ xs := by
  induction xs generalizing at_ with
  | nil => rfl
  | cons x xs ih =>
    by_cases hx : x = Path.here
    · rw [List.filter_cons_of_neg (by simp [hx]), ih, walk, hx]
      simp [enter]
    · simp only [ne_eq, hx, not_false_eq_true, decide_true, List.filter_cons_of_pos, walk]
      cases d.enter at_ x with
      | error e => rfl
      | ok q => exact ih q

def KeepsDirs (d d' : Disk) : Prop :=
  ∀ names : List Name, d.tree[names]? = some .dir → d'.tree[names]? = some .dir

theorem KeepsDirs.of_eq {d d' : Disk} (h : d'.tree = d.tree) : KeepsDirs d d' :=
  fun names hn => by rw [h, hn]

theorem enter_of_dirs {d d' : Disk} {q t : List Name} {n : Name} (hd : KeepsDirs d d')
    (h : d.enter q n = .ok t) : d'.enter q n = .ok t := by
  unfold enter at h ⊢
  split
  · simp_all
  · split
    · simp_all
    · simp only [*, if_false] at h
      unfold entry? at h ⊢
      split at h
      · cases h
      · cases h
      · cases h
      · rename_i he
        split at he
        · cases he
        · rename_i hs
          simp only [Except.ok.injEq] at he
          simpa only [hs, hd _ he, Bool.false_eq_true, if_false] using h

theorem walk_of_dirs {d d' : Disk} {q t : List Name} {xs : List Name} (hd : KeepsDirs d d')
    (h : d.walk q xs = .ok t) : d'.walk q xs = .ok t := by
  induction xs generalizing q with
  | nil => exact h
  | cons x xs ih =>
    rw [walk] at h ⊢
    cases he : d.enter q x with
    | error e => simp [he] at h
    | ok q' =>
      simp only [he] at h
      simp only [enter_of_dirs hd he]
      exact ih h

/-- The path leads into the directory `parent`, to the name `name`. -/
structure Seats (d : Disk) (p : Path) (parent : List Name) (name : Name) : Prop where
  located : d.locate p = .ok (.entry parent name false)
  short : name.tooLong = false

namespace Seats

variable {d d' : Disk} {p : Path} {parent : List Name} {name : Name}

theorem entry?_eq (h : Seats d p parent name) :
    d.entry? parent name = .ok d.tree[parent ++ [name]]? := by
  unfold entry?
  rw [h.short]
  rfl

theorem lookup_eq (h : Seats d p parent name) :
    d.lookup p = match d.tree[parent ++ [name]]? with
      | none => .error .noEntry
      | some node => .ok node := by
  simp only [lookup, h.located, h.entry?_eq]
  cases d.tree[parent ++ [name]]? with
  | none => rfl
  | some node => cases node <;> rfl

theorem openWrite_eq (h : Seats d p parent name) :
    d.openWrite p = match d.tree[parent ++ [name]]? with
      | none => (.ok d.fresh, (d.create parent name).2)
      | some (.file i) => (.ok i, d)
      | some .dir => (.error .isDirectory, d) := by
  simp only [openWrite, h.located, h.entry?_eq]
  cases d.tree[parent ++ [name]]? with
  | none => rfl
  | some node => cases node <;> rfl

theorem remove_eq (h : Seats d p parent name) :
    d.remove p = match d.tree[parent ++ [name]]? with
      | none => (.error .noEntry, d)
      | some (.file _) => (.ok (), { d with tree := d.tree.erase (parent ++ [name]) })
      | some .dir => (.error .isDirectory, d) := by
  simp only [remove, h.located, h.entry?_eq]
  cases d.tree[parent ++ [name]]? with
  | none => rfl
  | some node => cases node <;> rfl

theorem exists?_eq (h : Seats d p parent name) :
    d.exists? p = d.tree[parent ++ [name]]?.isSome := by
  rw [exists?, h.lookup_eq]
  cases d.tree[parent ++ [name]]? <;> rfl

theorem lookup_file_iff {i : FileNo} (h : Seats d p parent name) :
    d.lookup p = .ok (.file i) ↔ d.tree[parent ++ [name]]? = some (.file i) := by
  rw [h.lookup_eq]
  cases d.tree[parent ++ [name]]? <;> simp

theorem exists?_eq_false_iff (h : Seats d p parent name) :
    d.exists? p = false ↔ d.tree[parent ++ [name]]? = none := by
  rw [h.exists?_eq, Option.isSome_eq_false_iff, Option.isNone_iff_eq_none]

/-- A file moves to any name that no directory has. -/
theorem rename_file {i : FileNo} (h : Seats d p parent name)
    (hp : d.tree[parent ++ [name]]? = some (.file i)) (q : Path) :
    d.rename p q = match d.locate q with
      | .error e => (.error e, d)
      | .ok (.directory _) => (.error .busy, d)
      | .ok (.entry goal last slash) =>
        match d.entry? goal last with
        | .error e => (.error e, d)
        | .ok old =>
          if slash then (.error .notDirectory, d)
          else if (goal ++ [last]).isPrefixOf parent then (.error .notEmpty, d)
          else if old = some .dir then (.error .isDirectory, d)
          else (.ok (), { d with
            tree := (d.tree.erase (parent ++ [name])).insert (goal ++ [last]) (.file i) }) := by
  simp only [rename, h.located]
  cases d.locate q with
  | error e => rfl
  | ok place =>
    cases place with
    | directory names => rfl
    | entry goal last slash =>
      cases he : d.entry? goal last with
      | error e => simp only [h.entry?_eq, hp, he]
      | ok old => simp only [h.entry?_eq, hp, he, Bool.false_or]

theorem rename_eq {q : Path} {other : Name} {i j : FileNo} (h : Seats d p parent name)
    (hq : Seats d q parent other) (hp : d.tree[parent ++ [name]]? = some (.file i))
    (ho : d.tree[parent ++ [other]]? = some (.file j)) :
    d.rename p q = (.ok (), { d with
      tree := (d.tree.erase (parent ++ [name])).insert (parent ++ [other]) (.file i) }) := by
  have hnot : ¬ (parent ++ [other]).isPrefixOf parent = true := by
    intro hpre
    have := (List.isPrefixOf_iff_prefix.mp hpre).length_le
    simp only [List.length_append, List.length_singleton] at this
    omega
  simp [h.rename_file hp, hq.located, hq.entry?_eq, ho, hnot]

theorem of_dirs (h : Seats d p parent name) (hd : KeepsDirs d d') : Seats d' p parent name := by
  obtain ⟨hr, r, hroute, hwalk, hrest⟩ := locate_eq_entry_iff.mp h.located
  exact ⟨locate_eq_entry_iff.mpr ⟨hr, r, hroute, walk_of_dirs hd hwalk, hrest⟩, h.short⟩

theorem of_tree_eq (h : Seats d p parent name) (ht : d'.tree = d.tree) :
    Seats d' p parent name :=
  h.of_dirs (.of_eq ht)

end Seats

theorem seats_of_lookup {d : Disk} {p : Path} {i : FileNo} (h : d.lookup p = .ok (.file i)) :
    ∃ parent name, Seats d p parent name ∧ d.tree[parent ++ [name]]? = some (.file i) := by
  unfold lookup at h
  split at h
  · cases h
  · cases h
  · rename_i parent name slash hloc
    unfold entry? at h
    split at h
    · cases h
    · cases h
    · rename_i j he
      split at h
      · cases h
      · cases h
        split at he
        · cases he
        · rename_i hslash hshort
          simp only [Bool.not_eq_true] at hslash hshort
          subst hslash
          exact ⟨parent, name, ⟨hloc, hshort⟩, Except.ok.inj he⟩
    · cases h

theorem seats_of_openWrite {d d' : Disk} {p : Path} {i : FileNo}
    (h : d.openWrite p = (.ok i, d')) : ∃ parent name, Seats d p parent name := by
  unfold openWrite at h
  split at h
  · cases h
  · cases h
  · rename_i parent name slash hloc
    cases slash with
    | true => simp at h
    | false =>
      by_cases hshort : name.tooLong = true
      · simp [hshort, entry?] at h
      · exact ⟨parent, name, hloc, by simpa using hshort⟩

theorem Seats.openWrite_ok {d d' : Disk} {p : Path} {parent : List Name} {name : Name} {i : FileNo}
    (hs : Seats d p parent name) (h : d.openWrite p = (.ok i, d')) :
    (d.tree[parent ++ [name]]? = none ∧ i = d.fresh ∧ d' = (d.create parent name).2) ∨
      (d.tree[parent ++ [name]]? = some (.file i) ∧ d' = d) := by
  rw [hs.openWrite_eq] at h
  split at h
  · rename_i hnone
    cases h
    exact .inl ⟨hnone, rfl, rfl⟩
  · rename_i hfile
    cases h
    exact .inr ⟨hfile, rfl⟩
  · cases h

/-! The paths beside a path. -/

section Beside

variable {d : Disk} {p : Path} {parent : List Name} {name : Name} {ending : String}

theorem refusal?_beside (h : p.refusal? = none) (he : Path.IsEnding ending) :
    (p.beside ending).refusal? =
      if 4096 ≤ Name.size (p.beside ending) then some .nameTooLong else none := by
  have hnul : '\x00' ∉ p := by
    intro hn
    simp [Path.refusal?, hn] at h
  have hnul' : '\x00' ∉ p.beside ending := by
    simp [Path.beside, hnul, he.nul]
  rw [Path.refusal?, if_neg hnul']

theorem append_ending_ne (he : Path.IsEnding ending) (name other : Name)
    (ho : other.length ≤ 2) : name ++ ending.toList ≠ other := by
  intro h
  have := congrArg List.length h
  have := he.long
  simp only [List.length_append] at *
  omega

theorem Seats.route?_beside (h : Seats d p parent name) (he : Path.IsEnding ending) :
    ∃ parents, (p.beside ending).route? = some ⟨parents, name ++ ending.toList, false⟩ ∧
      d.walk [] parents = .ok parent := by
  obtain ⟨-, r, hroute, hwalk, -, -, rfl, hslash⟩ := locate_eq_entry_iff.mp h.located
  have hne : ending.toList ≠ [] := by
    intro hn
    have := he.long
    simp [hn] at this
  exact ⟨_, Path.route?_beside hroute hslash hne he.slash, hwalk⟩

/-- Beside a path, in the same directory, and under the longer name. -/
theorem Seats.beside (h : Seats d p parent name) (he : Path.IsEnding ending)
    (hroom : (p.beside ending).tooLong = false) :
    Seats d (p.beside ending) parent (name ++ ending.toList) := by
  obtain ⟨hr, -⟩ := locate_eq_entry_iff.mp h.located
  obtain ⟨parents, hroute, hwalk⟩ := h.route?_beside he
  simp only [Path.tooLong, hroute, Option.any_some, Bool.or_eq_false_iff,
    decide_eq_false_iff_not] at hroom
  refine ⟨locate_eq_entry_iff.mpr ⟨?_, _, hroute, hwalk, ?_, ?_, rfl, rfl⟩, hroom.2⟩
  · rw [refusal?_beside hr he, if_neg hroom.1]
  · exact append_ending_ne he name _ (by decide)
  · exact append_ending_ne he name _ (by decide)

theorem Seats.locate_tooLong (h : Seats d p parent name) (he : Path.IsEnding ending)
    (hroom : (p.beside ending).tooLong = true) :
    d.locate (p.beside ending) = .error .nameTooLong ∨
      ∃ last, last.tooLong = true ∧
        d.locate (p.beside ending) = .ok (.entry parent last false) := by
  obtain ⟨hr, -⟩ := locate_eq_entry_iff.mp h.located
  obtain ⟨parents, hroute, hwalk⟩ := h.route?_beside he
  simp only [Path.tooLong, hroute, Option.any_some, Bool.or_eq_true, decide_eq_true_eq] at hroom
  by_cases hsize : 4096 ≤ Name.size (p.beside ending)
  · left
    rw [locate, refusal?_beside hr he, if_pos hsize]
  · right
    refine ⟨_, hroom.resolve_left hsize, locate_eq_entry_iff.mpr ⟨?_, _, hroute, hwalk, ?_, ?_,
      rfl, rfl⟩⟩
    · rw [refusal?_beside hr he, if_neg hsize]
    · exact append_ending_ne he name _ (by decide)
    · exact append_ending_ne he name _ (by decide)

/-- Nothing stands at a path that is too long, and nothing can be done there. -/
theorem Seats.tooLong_beside (h : Seats d p parent name) (he : Path.IsEnding ending)
    (hroom : (p.beside ending).tooLong = true) :
    d.lookup (p.beside ending) = .error .nameTooLong ∧
      d.openWrite (p.beside ending) = (.error .nameTooLong, d) ∧
      d.remove (p.beside ending) = (.error .nameTooLong, d) := by
  rcases h.locate_tooLong he hroom with hloc | ⟨last, hlast, hloc⟩
  · simp [lookup, openWrite, remove, hloc]
  · simp [lookup, openWrite, remove, hloc, entry?, hlast]

/-- A path that ends in a name has its seat in the directory of any path beside it. -/
theorem Seats.of_beside {ending : String} (he : Path.IsEnding ending) {r : Route}
    (hr : p.route? = some r) (hs : r.slash = false) (hhere : r.last ≠ Path.here)
    (habove : r.last ≠ Path.above) (h : Seats d (p.beside ending) parent name) :
    Seats d p parent r.last ∧ name = r.last ++ ending.toList := by
  obtain ⟨href, r', hroute, hwalk, -, -, rfl, -⟩ := locate_eq_entry_iff.mp h.located
  have hne : ending.toList ≠ [] := by
    intro hn
    have := he.long
    simp [hn] at this
  cases (Path.route?_beside hr hs hne he.slash).symm.trans hroute
  have hshort := h.short
  simp only [Name.tooLong, Name.size_append, decide_eq_false_iff_not] at hshort
  refine ⟨⟨locate_eq_entry_iff.mpr ⟨Path.refusal?_of_prefix (List.prefix_append ..) href, r, hr,
    hwalk, hhere, habove, rfl, hs⟩, ?_⟩, rfl⟩
  simp only [Name.tooLong, decide_eq_false_iff_not]
  omega

theorem lookup_of_enter {r : Route} {q t : List Name} (href : p.refusal? = none)
    (hr : p.route? = some r) (hwalk : d.walk [] r.parents = .ok q)
    (henter : d.enter q r.last = .ok t) : d.lookup p = .ok .dir := by
  unfold lookup locate
  simp only [href, hr, hwalk]
  unfold enter at henter
  split at henter
  · rename_i hhere
    simp only [hhere, if_true]
  · rename_i hhere
    split at henter
    · rename_i habove
      simp [habove, Path.above, Path.here]
    · rename_i habove
      simp only [hhere, habove, if_false]
      split at henter
      · cases henter
      · cases henter
      · cases henter
      · rfl

/-- Any other path leads to the directory that the path beside it leads into, or above. -/
theorem lookup_of_beside {ending : String} (he : Path.IsEnding ending) (h0 : p ≠ [])
    (hp : ¬ p.EndsInName) (h : Seats d (p.beside ending) parent name) :
    d.lookup p = .ok .dir := by
  obtain ⟨href, r', hroute', hwalk, -⟩ := locate_eq_entry_iff.mp h.located
  have href' := Path.refusal?_of_prefix (List.prefix_append ..) href
  obtain ⟨r, hroute⟩ : ∃ r, p.route? = some r := by
    unfold Path.route?
    rw [if_neg h0]
    exact ⟨_, rfl⟩
  have hne : ending.toList ≠ [] := by
    intro hn
    have := he.long
    simp [hn] at this
  cases hs : r.slash with
  | false =>
    cases (Path.route?_beside hroute hs hne he.slash).symm.trans hroute'
    have hlast : r.last = Path.here ∨ r.last = Path.above := by
      by_contra hnot
      rw [not_or] at hnot
      exact hp ⟨r, hroute, hs, hnot⟩
    refine lookup_of_enter (t := if r.last = Path.here then parent else parent.dropLast)
      href' hroute hwalk ?_
    rcases hlast with hl | hl <;> simp [enter, hl, Path.here, Path.above]
  | true =>
    obtain ⟨pieces, hpieces, hparents, hlast⟩ := Path.route?_append_slash hroute hs hne he.slash
    cases hpieces.symm.trans hroute'
    rcases List.eq_nil_or_concat' pieces with rfl | ⟨above, last, rfl⟩
    · refine lookup_of_enter (q := []) (t := []) href' hroute (by rw [hparents]; rfl) ?_
      simp [enter, hlast]
    · rw [List.dropLast_concat] at hparents
      rw [List.getLast?_concat, Option.getD_some] at hlast
      rw [walk_append] at hwalk
      cases hw : d.walk [] above with
      | error e => simp [hw, Except.bind] at hwalk
      | ok q =>
        simp only [hw, Except.bind, walk] at hwalk
        cases hen : d.enter q last with
        | error e => simp [hen] at hwalk
        | ok t => exact lookup_of_enter href' hroute (hparents ▸ hw) (hlast ▸ hen)

end Beside

/-! The directories above a seat are there, so making them does nothing. -/

theorem makeDirs_of_walk {d : Disk} {names t : List Name} (hn : ∀ n ∈ names, n ≠ Path.here)
    (h : d.walk [] names = .ok t) : makeDirs names.reverse d = (.ok (), d) := by
  rcases List.eq_nil_or_concat' names with rfl | ⟨init, last, rfl⟩
  · rfl
  · have hw := h
    rw [walk_append] at h
    cases hq : d.walk [] init with
    | error e => simp [hq, Except.bind] at h
    | ok q =>
      have hlast : last ≠ Path.here := hn last (by simp)
      have hmk : mkdir init last d = (.error .exists, d) := by
        simp only [hq, Except.bind, walk, enter, hlast, if_false] at h
        simp only [mkdir, hq]
        by_cases ha : last = Path.above
        · simp [ha]
        · simp only [hlast, ha, or_self, if_false] at h ⊢
          cases he : d.entry? q last with
          | error e => simp [he] at h
          | ok o =>
            cases o with
            | none => simp [he] at h
            | some node => rfl
      rw [List.reverse_append, List.reverse_singleton, List.singleton_append, makeDirs,
        List.reverse_reverse, hmk]
      simp [unlessDir, leadsToDir, hw, Except.isOk, Except.toBool]

theorem Seats.createDirs_parent {d : Disk} {p : Path} {parent : List Name} {name : Name}
    (h : Seats d p parent name) : createDirs p.parent d = (.ok (), d) := by
  obtain ⟨hr, r, hroute, hwalk, h1, -, rfl, hslash⟩ := locate_eq_entry_iff.mp h.located
  obtain ⟨above, hsplit, h0, hparents⟩ := Path.split_of_route hroute hslash
  obtain ⟨rest, hrest⟩ := Path.parent_prefix hsplit h0 h1
  have hrefusal : p.parent.refusal? = none := by
    unfold Path.refusal? at hr ⊢
    rw [← hrest] at hr
    simp only [List.mem_append, Name.size_append] at hr
    split at hr
    · cases hr
    · rename_i hnul
      split at hr
      · cases hr
      · rename_i hsize
        rw [if_neg fun hn => hnul (.inl hn), if_neg (by omega)]
  have hnames : ∀ n ∈ p.parent.names, n ≠ Path.here := by
    intro n hn
    rw [Path.names_parent hsplit h0 h1] at hn
    simp at hn
    exact hn.2.2
  have hnwalk : d.walk [] p.parent.names = .ok parent := by
    have htwice : (above.filter fun n => n ≠ [] && n ≠ Path.here) =
        (above.filter (· ≠ [])).filter (· ≠ Path.here) := by
      rw [List.filter_filter]
      congr 1
      funext n
      exact Bool.and_comm ..
    rw [Path.names_parent hsplit h0 h1, htwice, walk_filter_here, ← hparents]
    exact hwalk
  unfold createDirs
  split
  · rfl
  · simp only [hrefusal, Path.endsInDot_parent hsplit h0 h1, Bool.false_eq_true, if_false]
    exact makeDirs_of_walk hnames hnwalk

end Disk

end LogStore
