import Mathlib.Data.Set.Card
import LogStore.Index

/-! Moving the entries of an index that has changed since its snapshot was taken. A key is moved
exactly if its entry is the one of the snapshot, whether it has been so all the time or is so
again, and no other key is touched. So it does not matter in which order the moves are made. -/

namespace LogStore.Index

/-! An index whose entries are all given anew does not remember the old ones. -/

theorem replay_eq_insertMany {ps : List Positioned} (fileId : FileId) (ix : Index)
    (h : ∀ p ∈ ps, p.record.value ≠ []) :
    ix.replay fileId ps = ix.insertMany (ps.map fun p => (p.record.key, p.entry fileId)) := by
  induction ps generalizing ix with
  | nil => simp [replay]
  | cons p ps ih =>
    have hp : p.record.isTombstone = false := by simpa [Record.isTombstone] using h p (by simp)
    rw [List.map_cons, Std.ExtTreeMap.insertMany_cons, ← ih _ fun q hq => h q (by simp [hq])]
    simp [replay, apply, hp]

/-- Where every old entry is still there, all are moved. -/
theorem retarget_eq_insertMany {ms : List Move} {ix : Index}
    (hold : ∀ m ∈ ms, ix[m.key]? = some m.old) (hkeys : (ms.map Move.key).Nodup) :
    retarget ms ix = (ms.length, ix.insertMany (ms.map fun m => (m.key, m.new))) := by
  induction ms generalizing ix with
  | nil => simp [retarget]
  | cons m ms ih =>
    obtain ⟨hm, hms⟩ := List.nodup_cons.mp hkeys
    have hhead : ix[m.key]? = some m.old := hold m (by simp)
    have hmove : ix.move m = ix.insert m.key m.new := if_pos hhead
    have hrest : ∀ n ∈ ms, (ix.insert m.key m.new)[n.key]? = some n.old := by
      intro n hn
      have hne : m.key ≠ n.key := fun he => hm (he ▸ List.mem_map_of_mem hn)
      rw [Std.ExtTreeMap.getElem?_insert]
      simp [hne, hold n (by simp [hn])]
    rw [List.map_cons, Std.ExtTreeMap.insertMany_cons, retarget, hmove, ih hrest hms]
    simp only [hhead, if_true, List.length_cons]

theorem insertMany_of_covered {ix : Index} {l : List (Bytes × Entry)}
    (h : ∀ key, ix[key]? ≠ none → key ∈ l.map Prod.fst) :
    ix.insertMany l = (∅ : Index).insertMany l := by
  apply Std.ExtTreeMap.ext_getElem?
  intro key
  by_cases hkey : key ∈ l.map Prod.fst
  · rw [Std.ExtTreeMap.getElem?_insertMany_list, Std.ExtTreeMap.getElem?_insertMany_list]
    cases hf : l.findSomeRev? (fun x => if compare x.1 key = .eq then some x.2 else none) with
    | some e => rfl
    | none =>
      obtain ⟨x, hx, rfl⟩ := List.mem_map.mp hkey
      rw [List.findSomeRev?_eq_findSome?_reverse, List.findSome?_eq_none_iff] at hf
      simpa using hf x (List.mem_reverse.mpr hx)
  · have hnone : ix[key]? = none := by
      by_contra hsome
      exact hkey (h key hsome)
    have hmiss : (l.map Prod.fst).contains key = false := by simpa using hkey
    rw [Std.ExtTreeMap.getElem?_insertMany_list_of_contains_eq_false hmiss,
      Std.ExtTreeMap.getElem?_insertMany_list_of_contains_eq_false hmiss, hnone]
    simp

theorem nodup_toList (ix : Index) : (ix.toList.map Prod.fst).Nodup := by
  rw [Std.ExtTreeMap.map_fst_toList_eq_keys]
  exact ix.nodup_keys

/-! Moving entries. -/

variable {ix snapshot : Index} {m : Move} {ms : List Move}

theorem getElem?_move (ix : Index) (m : Move) (key : Bytes) :
    (ix.move m)[key]? =
      if m.key = key ∧ ix[key]? = some m.old then some m.new else ix[key]? := by
  unfold move
  by_cases hkey : m.key = key
  · subst hkey
    split <;> simp_all
  · split <;> simp [Std.ExtTreeMap.getElem?_insert, hkey]

theorem retarget_cons (m : Move) (ms : List Move) (ix : Index) :
    retarget (m :: ms) ix =
      ((retarget ms (ix.move m)).1 + if ix[m.key]? = some m.old then 1 else 0,
        (retarget ms (ix.move m)).2) := by
  simp only [retarget]
  split <;> rfl

theorem getElem?_retarget_of_notMem {key : Bytes} (h : key ∉ ms.map Move.key) :
    (retarget ms ix).2[key]? = ix[key]? := by
  induction ms generalizing ix with
  | nil => rfl
  | cons m ms ih =>
    rw [List.map_cons, List.mem_cons, not_or] at h
    rw [retarget_cons, ih h.2, getElem?_move, if_neg fun hm => h.1 hm.1.symm]

/-- A key that one move is about is moved if its entry is the old one. -/
theorem getElem?_retarget_of_mem (hkeys : (ms.map Move.key).Nodup) (hm : m ∈ ms) :
    (retarget ms ix).2[m.key]? =
      if ix[m.key]? = some m.old then some m.new else ix[m.key]? := by
  induction ms generalizing ix with
  | nil => cases hm
  | cons n ms ih =>
    obtain ⟨hn, hms⟩ := List.nodup_cons.mp hkeys
    rw [retarget_cons]
    rcases List.mem_cons.mp hm with rfl | hm
    · rw [getElem?_retarget_of_notMem hn, getElem?_move]
      simp only [true_and]
    · have hne : n.key ≠ m.key := fun he => hn (he ▸ List.mem_map_of_mem hm)
      have hsame : (ix.move n)[m.key]? = ix[m.key]? := by
        rw [getElem?_move, if_neg fun h => hne h.1]
      rw [ih hms hm, hsame]

/-- As many are moved as have their old entry at the start: the moves do not meet. -/
theorem retarget_fst (hkeys : (ms.map Move.key).Nodup) :
    (retarget ms ix).1 = ms.countP fun m => ix[m.key]? = some m.old := by
  induction ms generalizing ix with
  | nil => rfl
  | cons m ms ih =>
    obtain ⟨hm, hms⟩ := List.nodup_cons.mp hkeys
    have hsame : ∀ n ∈ ms, (ix.move m)[n.key]? = ix[n.key]? := by
      intro n hn
      rw [getElem?_move, if_neg]
      rintro ⟨he, -⟩
      exact hm (he ▸ List.mem_map_of_mem hn)
    have hcount : (ms.countP fun n => (ix.move m)[n.key]? = some n.old) =
        ms.countP fun n => ix[n.key]? = some n.old := by
      refine List.countP_congr fun n hn => ?_
      rw [hsame n hn]
    rw [retarget_cons, ih hms, hcount, List.countP_cons]
    simp only [decide_eq_true_eq]

theorem countP_eq_ncard (hkeys : (ms.map Move.key).Nodup) (q : Move → Prop) [DecidablePred q] :
    (ms.countP fun m => q m) = {key | ∃ m ∈ ms, m.key = key ∧ q m}.ncard := by
  have hset : {key | ∃ m ∈ ms, m.key = key ∧ q m} =
      (((ms.filter fun m => q m).map Move.key).toFinset : Set Bytes) := by
    ext key
    simp only [Set.mem_ofPred_eq, List.coe_toFinset, List.mem_map, List.mem_filter,
      decide_eq_true_eq]
    exact exists_congr fun m => by tauto
  have hnodup : ((ms.filter fun m => q m).map Move.key).Nodup :=
    hkeys.sublist (List.filter_sublist.map _)
  rw [hset, Set.ncard_coe_finset, List.toFinset_card_of_nodup hnodup, List.length_map,
    List.countP_eq_length_filter]

inductive Change where
  | put (key : Bytes) (e : Entry)
  | delete (key : Bytes)
  | clear
  deriving DecidableEq, Repr

def change (ix : Index) : Change → Index
  | .put key e => ix.insert key e
  | .delete key => ix.erase key
  | .clear => ∅

def changed (ix : Index) (cs : List Change) : Index := cs.foldl change ix

/-- Each pair of a snapshot is given one new entry, in whatever order. -/
def Renews (ms : List Move) (snapshot : Index) : Prop :=
  (ms.map fun m => (m.key, m.old)).Perm snapshot.toList

def standing (snapshot ix : Index) : Set Bytes :=
  {key | ∃ e, snapshot[key]? = some e ∧ ix[key]? = some e}

namespace Renews

theorem mem_iff (h : Renews ms snapshot) {key : Bytes} {e : Entry} :
    (∃ m ∈ ms, m.key = key ∧ m.old = e) ↔ snapshot[key]? = some e := by
  rw [← Std.ExtTreeMap.mem_toList_iff_getElem?_eq_some, ← List.Perm.mem_iff h, List.mem_map]
  simp only [Prod.mk.injEq]

theorem nodup_keys (h : Renews ms snapshot) : (ms.map Move.key).Nodup := by
  have hkeys := (h.map Prod.fst).nodup_iff.mpr snapshot.nodup_toList
  rwa [List.map_map] at hkeys

theorem perm (h : Renews ms snapshot) {ns : List Move} (hperm : ns.Perm ms) :
    Renews ns snapshot :=
  (hperm.map _).trans h

/-- Moves that differ in their order alone make the same of an index. -/
theorem retarget_perm (h : Renews ms snapshot) {ns : List Move} (hperm : ns.Perm ms)
    (ix : Index) : retarget ns ix = retarget ms ix := by
  have hkeys := h.nodup_keys
  have hkeys' := (h.perm hperm).nodup_keys
  refine Prod.ext ?_ (Std.ExtTreeMap.ext_getElem? fun key => ?_)
  · rw [retarget_fst hkeys, retarget_fst hkeys', hperm.countP_eq]
  · by_cases hkey : key ∈ ms.map Move.key
    · obtain ⟨m, hm, rfl⟩ := List.mem_map.mp hkey
      rw [getElem?_retarget_of_mem hkeys hm,
        getElem?_retarget_of_mem hkeys' (hperm.mem_iff.mpr hm)]
    · have hkey' : key ∉ ns.map Move.key := by rwa [(hperm.map _).mem_iff]
      rw [getElem?_retarget_of_notMem hkey, getElem?_retarget_of_notMem hkey']

theorem mem_retarget (h : Renews ms snapshot) (ix : Index) (key : Bytes) :
    key ∈ (retarget ms ix).2 ↔ key ∈ ix := by
  rw [Std.ExtTreeMap.mem_iff_isSome_getElem?, Std.ExtTreeMap.mem_iff_isSome_getElem?]
  by_cases hkey : key ∈ ms.map Move.key
  · obtain ⟨m, hm, rfl⟩ := List.mem_map.mp hkey
    rw [getElem?_retarget_of_mem h.nodup_keys hm]
    split <;> simp_all
  · rw [getElem?_retarget_of_notMem hkey]

theorem getElem?_retarget (h : Renews ms snapshot) {key : Bytes}
    (hkey : key ∉ standing snapshot ix) : (retarget ms ix).2[key]? = ix[key]? := by
  by_cases hmoved : key ∈ ms.map Move.key
  · obtain ⟨m, hm, rfl⟩ := List.mem_map.mp hmoved
    have hold : snapshot[m.key]? = some m.old := h.mem_iff.mp ⟨m, hm, rfl, rfl⟩
    rw [getElem?_retarget_of_mem h.nodup_keys hm, if_neg fun he => hkey ⟨m.old, hold, he⟩]
  · exact getElem?_retarget_of_notMem hmoved

theorem retarget_fst_eq_ncard (h : Renews ms snapshot) (ix : Index) :
    (retarget ms ix).1 = (standing snapshot ix).ncard := by
  rw [retarget_fst h.nodup_keys, countP_eq_ncard h.nodup_keys]
  congr 1
  ext key
  simp only [standing, Set.mem_ofPred_eq, ← h.mem_iff]
  constructor
  · rintro ⟨m, hm, rfl, he⟩
    exact ⟨m.old, ⟨m, hm, rfl, rfl⟩, he⟩
  · rintro ⟨e, ⟨m, hm, rfl, rfl⟩, he⟩
    exact ⟨m, hm, rfl, he⟩

/-- After the moves a key has its old entry only if it was moved to where it had been. -/
theorem retarget_eq_old_iff (h : Renews ms snapshot) (hm : m ∈ ms) :
    (retarget ms ix).2[m.key]? = some m.old ↔ ix[m.key]? = some m.old ∧ m.new = m.old := by
  rw [getElem?_retarget_of_mem h.nodup_keys hm]
  split <;> simp_all

/-- Making the moves once more changes nothing. -/
theorem retarget_retarget (h : Renews ms snapshot) (ix : Index) :
    retarget ms (retarget ms ix).2 =
      ({key | ∃ m ∈ ms, m.key = key ∧ ix[m.key]? = some m.old ∧ m.new = m.old}.ncard,
        (retarget ms ix).2) := by
  have hcount : (ms.countP fun m => (retarget ms ix).2[m.key]? = some m.old) =
      ms.countP fun m => ix[m.key]? = some m.old ∧ m.new = m.old := by
    refine List.countP_congr fun m hm => ?_
    simp only [decide_eq_true_eq, h.retarget_eq_old_iff hm]
  refine Prod.ext ?_ (Std.ExtTreeMap.ext_getElem? fun key => ?_)
  · rw [retarget_fst h.nodup_keys, hcount, countP_eq_ncard h.nodup_keys]
  · by_cases hkey : key ∈ ms.map Move.key
    · obtain ⟨m, hm, rfl⟩ := List.mem_map.mp hkey
      rw [getElem?_retarget_of_mem h.nodup_keys hm]
      split
      · next hold => rw [hold, ((h.retarget_eq_old_iff hm).mp hold).2]
      · rfl
    · exact getElem?_retarget_of_notMem hkey

end Renews

/-- Whatever has happened to an index since its snapshot was taken, the keys that have the entries
of the snapshot are moved, and they alone. No key is lost or revived, and no newer entry is
overwritten. Making the moves again finds only what was moved to where it had been. -/
theorem retarget_changed (h : Renews ms snapshot) (cs : List Change) :
    ∃ ix n ix', snapshot.changed cs = ix ∧ retarget ms ix = (n, ix') ∧
      (∀ key, key ∈ ix' ↔ key ∈ ix) ∧
      (∀ m ∈ ms, ix[m.key]? = some m.old → ix'[m.key]? = some m.new) ∧
      (∀ key, key ∉ standing snapshot ix → ix'[key]? = ix[key]?) ∧
      n = (standing snapshot ix).ncard ∧
      (∀ ns, ns.Perm ms → retarget ns ix = (n, ix')) ∧
      retarget ms ix' =
        ({key | ∃ m ∈ ms, m.key = key ∧ ix[m.key]? = some m.old ∧ m.new = m.old}.ncard, ix') := by
  refine ⟨snapshot.changed cs, _, _, rfl, rfl, h.mem_retarget _, fun m hm hold => ?_,
    fun key hkey => h.getElem?_retarget hkey, h.retarget_fst_eq_ncard _,
    fun ns hperm => h.retarget_perm hperm _, h.retarget_retarget _⟩
  rw [getElem?_retarget_of_mem h.nodup_keys hm, if_pos hold]

def twoKeys : Index := ((∅ : Index).insert [1] ⟨0, 17, 1, 5⟩).insert [2] ⟨0, 35, 1, 6⟩

def twoMoves : List Move :=
  [⟨[2], ⟨0, 35, 1, 6⟩, ⟨0, 17, 1, 6⟩⟩, ⟨[1], ⟨0, 17, 1, 5⟩, ⟨0, 35, 1, 5⟩⟩]

def eventful : List Change :=
  [.delete [1], .put [2] ⟨0, 53, 1, 7⟩, .put [1] ⟨0, 17, 1, 5⟩, .put [3] ⟨0, 71, 1, 8⟩]

theorem retarget_changed_eventful : Renews twoMoves twoKeys ∧
    ∃ n ix', retarget twoMoves (twoKeys.changed eventful) = (n, ix') ∧
      ix'[([1] : Bytes)]? = some ⟨0, 35, 1, 5⟩ ∧ ix'[([2] : Bytes)]? = some ⟨0, 53, 1, 7⟩ ∧
      ix'[([3] : Bytes)]? = some ⟨0, 71, 1, 8⟩ ∧
      retarget twoMoves.reverse (twoKeys.changed eventful) = (n, ix') := by
  have h : Renews twoMoves twoKeys := List.Perm.swap ..
  obtain ⟨_, n, ix', rfl, hres, -, hmoved, hkept, -, horder, -⟩ := retarget_changed h eventful
  have hsecond : [2] ∉ standing twoKeys (twoKeys.changed eventful) := by
    rintro ⟨e, hold, hnow⟩
    rw [show (twoKeys.changed eventful)[([2] : Bytes)]? = some ⟨0, 53, 1, 7⟩ by decide] at hnow
    rw [show twoKeys[([2] : Bytes)]? = some ⟨0, 35, 1, 6⟩ by decide] at hold
    cases hold
    cases hnow
  have hthird : [3] ∉ standing twoKeys (twoKeys.changed eventful) := by
    rintro ⟨e, hold, -⟩
    rw [show twoKeys[([3] : Bytes)]? = none by decide] at hold
    cases hold
  refine ⟨h, n, ix', hres, ?_, ?_, ?_, horder _ (List.reverse_perm _)⟩
  · exact hmoved _ (List.mem_cons_of_mem _ List.mem_cons_self) (by decide)
  · exact (hkept _ hsecond).trans (by decide)
  · exact (hkept _ hthird).trans (by decide)

end LogStore.Index
