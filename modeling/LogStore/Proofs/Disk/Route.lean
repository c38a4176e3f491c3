import Mathlib.Data.List.Infix
import Mathlib.Data.List.TakeWhile
import Mathlib.Order.Nat
import Mathlib.Tactic.Common
import LogStore.Disk.Tree

/-! Where paths lead, told from their text. A path and one beside it go through the same
directories, and so does the path of the directory above, which only loses its last name. -/

namespace LogStore.Path

theorem split_eq_splitOn (p : Path) : split p = p.splitOn '/' := by
  induction p with
  | nil => rfl
  | cons c cs ih =>
    rw [split, List.splitOn_cons_eq_if_modifyHead, ← ih]
    split
    · simp_all
    · rename_i hc
      cases hs : split cs with
      | nil => exact absurd hs (split_ne_nil cs)
      | cons n ns => simp [hc]

theorem join_split (p : Path) : join (split p) = p := by
  rw [split_eq_splitOn, join, List.intercalate_splitOn]

theorem split_join {names : List Name} (h0 : names ≠ []) (h : ∀ n ∈ names, '/' ∉ n) :
    split (join names) = names := by
  rw [split_eq_splitOn, join, List.splitOn_intercalate _ h h0]

theorem slash_notMem_split {p : Path} {n : Name} (h : n ∈ split p) : '/' ∉ n := by
  induction p generalizing n with
  | nil => simp_all [split]
  | cons c cs ih =>
    rw [split] at h
    split at h
    · rcases List.mem_cons.mp h with rfl | h
      · simp
      · exact ih h
    · rename_i hc
      cases hs : split cs with
      | nil => exact absurd hs (split_ne_nil cs)
      | cons m ms =>
        rw [hs] at h ih
        rcases List.mem_cons.mp h with rfl | h
        · have := ih (List.mem_cons_self (a := m) (l := ms))
          simp [Ne.symm hc, this]
        · exact ih (List.mem_cons_of_mem _ h)

theorem join_prefix_append (a b : List Name) : join a <+: join (a ++ b) := by
  induction a with
  | nil => exact List.nil_prefix
  | cons n a ih =>
    by_cases ha : a = []
    · subst ha
      by_cases hb : b = []
      · simp [hb]
      · have hone : join [n] = n := List.intercalate_singleton
        have hcons : join ([n] ++ b) = n ++ ['/'] ++ join b := List.intercalate_cons_of_ne_nil hb
        rw [hone, hcons, List.append_assoc]
        exact List.prefix_append _ _
    · rw [List.cons_append, join, join, List.intercalate_cons_of_ne_nil ha,
        List.intercalate_cons_of_ne_nil (by simp [ha])]
      exact List.prefix_append_right_inj _ |>.mpr ih

/-! A path that does not end in a slash has a last piece, and this is where it leads to. -/

theorem split_of_route {p : Path} {r : Route} (h : route? p = some r) (hs : r.slash = false) :
    ∃ above, split p = above ++ [r.last] ∧ r.last ≠ [] ∧ r.parents = above.filter (· ≠ []) := by
  unfold route? at h
  split at h
  · cases h
  · rename_i hp
    cases h
    obtain ⟨init, c, rfl⟩ : ∃ init c, p = init ++ [c] :=
      ⟨p.dropLast, p.getLast hp, (List.dropLast_concat_getLast hp).symm⟩
    have hc : c ≠ '/' := by simpa using hs
    have hsplit := split_append init [c] (by simpa using Ne.symm hc)
    refine ⟨(split init).dropLast, ?_⟩
    simp [hsplit, List.filter_append]

theorem route?_beside {p : Path} {r : Route} (h : route? p = some r) (hs : r.slash = false)
    {ending : String} (hne : ending.toList ≠ []) (he : '/' ∉ ending.toList) :
    route? (p.beside ending) = some ⟨r.parents, r.last ++ ending.toList, false⟩ := by
  obtain ⟨above, hsplit, hlast, hparents⟩ := split_of_route h hs
  have hsplit' : split (p ++ ending.toList) = above ++ [r.last ++ ending.toList] := by
    rw [split_append p _ he, hsplit, List.dropLast_concat, List.getLastD_eq_getLast?,
      List.getLast?_concat]
    rfl
  have hslash : (p ++ ending.toList).getLast? ≠ some '/' := by
    rw [List.getLast?_append_of_ne_nil _ hne]
    exact fun hl => he (List.mem_of_getLast? hl)
  have hnil : p ++ ending.toList ≠ [] := List.append_ne_nil_of_right_ne_nil _ hne
  unfold route? beside
  rw [if_neg hnil, hsplit', decide_eq_false hslash]
  simp [List.filter_append, hlast, hparents]

/-- The text of the directory above: all pieces but the last that names something, and
without the pieces before it that name nothing. -/
theorem parent_eq {p : Path} {above : List Name} {last : Name} (h : split p = above ++ [last])
    (h0 : last ≠ []) (h1 : last ≠ here) : parent p = join (named above.reverse).reverse := by
  have hnamed : named (last :: above.reverse) = last :: above.reverse := by
    simp [named, h0, h1]
  unfold parent
  rw [h, List.reverse_append, List.reverse_singleton, List.singleton_append, hnamed,
    List.drop_succ_cons, List.drop_zero]

theorem named_split (above : List Name) : ∃ blank : List Name,
    above = (named above.reverse).reverse ++ blank ∧ ∀ n ∈ blank, n = [] ∨ n = here := by
  refine ⟨(above.reverse.takeWhile fun n => n = [] || n = here).reverse, ?_, ?_⟩
  · rw [← List.reverse_append, named, List.takeWhile_append_dropWhile, List.reverse_reverse]
  · intro n hn
    simpa using List.mem_takeWhile_imp (List.mem_reverse.mp hn)

variable {p : Path} {above : List Name} {last : Name}

theorem parent_prefix (h : split p = above ++ [last]) (h0 : last ≠ []) (h1 : last ≠ here) :
    parent p <+: p := by
  obtain ⟨blank, habove, -⟩ := named_split above
  rw [parent_eq h h0 h1]
  conv_rhs => rw [← join_split p, h, habove, List.append_assoc]
  exact join_prefix_append _ _

theorem slash_notMem_named (h : split p = above ++ [last]) :
    ∀ n ∈ (named above.reverse).reverse, '/' ∉ n := by
  intro n hn
  obtain ⟨blank, habove, -⟩ := named_split above
  apply slash_notMem_split (p := p)
  rw [h, habove]
  exact List.mem_append_left _ (List.mem_append_left _ hn)

theorem names_parent (h : split p = above ++ [last]) (h0 : last ≠ []) (h1 : last ≠ here) :
    names (parent p) = above.filter fun n => n ≠ [] && n ≠ here := by
  obtain ⟨blank, habove, hblank⟩ := named_split above
  have hnone : (blank.filter fun n => n ≠ [] && n ≠ here) = [] := by
    rw [List.filter_eq_nil_iff]
    intro n hn
    rcases hblank n hn with rfl | rfl <;> simp
  have hslash := slash_notMem_named h
  rw [parent_eq h h0 h1]
  conv_rhs => rw [habove, List.filter_append, hnone, List.append_nil]
  by_cases hnil : (named above.reverse).reverse = []
  · rw [hnil]
    rfl
  · rw [names, split_join hnil hslash]

theorem endsInDot_parent (h : split p = above ++ [last]) (h0 : last ≠ []) (h1 : last ≠ here) :
    Disk.endsInDot (parent p) = false := by
  have hslash := slash_notMem_named h
  rw [parent_eq h h0 h1]
  cases hnil : named above.reverse with
  | nil => rfl
  | cons m ms =>
    have hm : ¬(m = [] ∨ m = here) := by
      simp only [named] at hnil
      have := List.head?_dropWhile_not (fun n : Name => n = [] || n = here) above.reverse
      simpa [hnil] using this
    rw [hnil, List.reverse_cons] at hslash
    have hsplit := split_join (by simp) hslash
    simp only [not_or] at hm
    unfold Disk.endsInDot route?
    rw [List.reverse_cons, hsplit]
    split
    · simp
    · simp [List.filter_append, hm.1, hm.2]

/-! A path that ends in a slash, and other paths that do not end in a name. -/

theorem split_append_slash (p : Path) : split (p ++ ['/']) = split p ++ [[]] := by
  induction p with
  | nil => rfl
  | cons c p ih =>
    simp only [List.cons_append, split]
    split
    · rw [ih, List.cons_append]
    · rw [ih]
      cases hs : split p with
      | nil => exact absurd hs (split_ne_nil p)
      | cons n ns => rfl

theorem route?_append_slash {p q : Path} {r : Route} (h : route? p = some r) (hs : r.slash = true)
    (hq : q ≠ []) (hq' : '/' ∉ q) : ∃ pieces : List Name,
    route? (p ++ q) = some ⟨pieces, q, false⟩ ∧ r.parents = pieces.dropLast ∧
      r.last = pieces.getLast?.getD here := by
  unfold route? at h
  split at h
  · cases h
  · cases h
    obtain ⟨init, rfl⟩ : ∃ init, p = init ++ ['/'] :=
      ⟨p.dropLast, (List.dropLast_append_getLast? _ (by simpa using hs)).symm⟩
    have hsplit : split (init ++ ['/'] ++ q) = split init ++ [q] := by
      rw [split_append _ _ hq', split_append_slash, List.dropLast_concat,
        List.getLastD_eq_getLast?, List.getLast?_concat]
      rfl
    have hslash : (init ++ ['/'] ++ q).getLast? ≠ some '/' := by
      rw [List.getLast?_append_of_ne_nil _ hq]
      exact fun hl => hq' (List.mem_of_getLast? hl)
    refine ⟨(split init).filter (· ≠ []), ?_, ?_, ?_⟩
    · unfold route?
      rw [if_neg (by simp), hsplit, decide_eq_false hslash]
      simp [List.filter_append, hq]
    · simp [split_append_slash, List.filter_append]
    · simp [split_append_slash, List.filter_append]

/-- The path ends with a name of its own, and not with a slash or with dots. -/
def EndsInName (p : Path) : Prop :=
  ∃ r, p.route? = some r ∧ r.slash = false ∧ r.last ≠ here ∧ r.last ≠ Path.above

theorem refusal?_of_prefix {p q : Path} (h : p <+: q) (hq : q.refusal? = none) :
    p.refusal? = none := by
  obtain ⟨rest, rfl⟩ := h
  unfold refusal? at hq ⊢
  simp only [List.mem_append, Name.size_append] at hq
  split at hq
  · cases hq
  · rename_i hnul
    split at hq
    · cases hq
    · rename_i hsize
      rw [if_neg fun hn => hnul (.inl hn), if_neg (by omega)]

end LogStore.Path
