import Mathlib.Logic.Relation
import LogStore.Disk.Edit
import LogStore.Proofs.Disk.Frame

/-! Every disk that comes about is sound: the empty one is, and every change to a disk keeps
it so, whether it succeeds or not (`sound_of_changes`). -/

namespace LogStore.Disk

variable {d : Disk}

theorem entry?_ok {parent : List Name} {name : Name} {node : Option Node}
    (h : d.entry? parent name = .ok node) : d.tree[parent ++ [name]]? = node := by
  unfold entry? at h
  split at h
  · cases h
  · exact Except.ok.inj h

theorem only_setLength (d : Disk) (i : FileNo) (n : Nat) : Only i d (d.setLength i n).2 := by
  simp only [setLength]
  split
  · refine .setContent ?_
    rw [List.length_take]
    omega
  · split
    · exact .refl i d
    · refine .setContent ?_
      have := ceiling_le d.limit
      rw [List.length_append, List.length_replicate]
      omega

theorem getElem?_insertMany_or {l : List (List Name × Node)} {names : List Name} {node : Node}
    (t : Std.ExtTreeMap (List Name) Node) (h : (t.insertMany l)[names]? = some node) :
    (names, node) ∈ l ∨ t[names]? = some node := by
  induction l generalizing t with
  | nil => exact .inr h
  | cons x l ih =>
    rw [Std.ExtTreeMap.insertMany_cons] at h
    rcases ih _ h with hmem | hfound
    · exact .inl (List.mem_cons_of_mem _ hmem)
    · rw [getElem?_insert_tree] at hfound
      split at hfound
      · rename_i hkey
        cases hfound
        exact .inl (hkey ▸ List.mem_cons_self)
      · exact .inr hfound

namespace Sound

theorem openWrite (h : d.Sound) (p : Path) : (d.openWrite p).2.Sound := by
  unfold Disk.openWrite
  split
  · exact h
  · exact h
  · split
    · exact h
    · split
      · exact h
      · exact h
      · exact h
      · exact h.create ..

theorem truncate (h : d.Sound) (i : FileNo) : (d.setContent i []).Sound :=
  h.of_only (.setContent (Nat.zero_le _))

theorem write (h : d.Sound) (i : FileNo) (pos : Nat) (bs : Bytes) : (d.write i pos bs).2.Sound :=
  h.of_only (only_write ..)

theorem writeAll (h : d.Sound) (i : FileNo) (pos : Nat) (bs : Bytes) :
    (d.writeAll i pos bs).2.Sound := h.write i pos bs

theorem appendAll (h : d.Sound) (i : FileNo) (bs : Bytes) : (d.appendAll i bs).2.Sound :=
  h.writeAll i _ bs

theorem setLength (h : d.Sound) (i : FileNo) (n : Nat) : (d.setLength i n).2.Sound :=
  h.of_only (only_setLength ..)

theorem createDirs (h : d.Sound) (p : Path) : (d.createDirs p).2.Sound :=
  (moreDirs_createDirs p d).sound h

theorem remove (h : d.Sound) (p : Path) : (d.remove p).2.Sound := by
  rcases hr : d.remove p with ⟨_ | _, d'⟩
  · rw [remove_error hr]
    exact h
  · obtain ⟨parent, name, i, -, -, rfl⟩ := remove_ok hr
    exact h.erase _

theorem filter (h : d.Sound) (f : List Name → Node → Bool) :
    Sound { d with tree := d.tree.filter f } := by
  refine h.of_moves id fun names i hn => ?_
  rw [Std.ExtTreeMap.getElem?_filter', Option.filter_eq_some_iff] at hn
  exact ⟨names, hn.1, rfl⟩

theorem removeDirs (h : d.Sound) (p : Path) : (d.removeDirs p).2.Sound := by
  unfold Disk.removeDirs
  split
  · exact h
  · exact h.filter _
  · split
    · exact h
    · exact h
    · exact h
    · exact h.filter _

theorem moveDir (h : d.Sound) (source target : List Name) : (d.moveDir source target).Sound := by
  refine h.of_moves (fun names =>
    if source.isPrefixOf names then target ++ names.drop source.length else names) ?_
  intro names i hn
  rcases getElem?_insertMany_or _ hn with hmem | hkept
  · obtain ⟨⟨old, node⟩, hold, heq⟩ := List.mem_map.mp hmem
    cases heq
    simp only [under, List.mem_filter, Bool.and_eq_true] at hold
    refine ⟨old, Std.ExtTreeMap.mem_toList_iff_getElem?_eq_some.mp hold.1, ?_⟩
    rw [if_pos hold.2.1]
  · rw [getElem?_insert_tree] at hkept
    split at hkept
    · cases hkept
    · simp only [pruned, Std.ExtTreeMap.getElem?_filter', Option.filter_eq_some_iff,
        Bool.not_eq_true'] at hkept
      refine ⟨names, hkept.1, if_neg ?_⟩
      rw [hkept.2]
      exact Bool.false_ne_true

theorem rename (h : d.Sound) (source target : Path) : (d.rename source target).2.Sound := by
  unfold Disk.rename
  split
  · exact h
  · split
    · exact h
    · split
      · split
        · exact h
        · exact h
        · rename_i node hnode
          split
          · exact h
          · dsimp only
            split
            -- a file is moved, unless something stands in its way
            · split
              · exact h
              · split
                · exact h
                · split
                  · exact h
                  · exact h.moved (entry?_ok hnode) _
            -- a directory is
            · split
              · exact h
              · split
                · exact h
                · split
                  · exact h
                  · split
                    · exact h
                    · split
                      · exact h.moveDir ..
                      · exact h
                    · exact h.moveDir ..
      · exact h

theorem putFile (h : d.Sound) (p : Path) (bs : Bytes) : (d.putFile p bs).2.Sound := by
  unfold Disk.putFile
  have ho := h.openWrite p
  split <;> rename_i heq <;> rw [heq] at ho
  · exact ho
  · exact (ho.truncate _).writeAll ..

theorem appendFile (h : d.Sound) (p : Path) (bs : Bytes) : (d.appendFile p bs).2.Sound := by
  unfold Disk.appendFile
  have ho := h.openWrite p
  split <;> rename_i heq <;> rw [heq] at ho
  · exact ho
  · exact ho.appendAll ..

theorem changeFile (h : d.Sound) (p : Path) {change : FileNo → Disk → Except IoError Unit × Disk}
    (hchange : ∀ i, (change i d).2.Sound) : (d.changeFile p change).2.Sound := by
  unfold Disk.changeFile
  split
  · exact h
  · exact h
  · exact hchange _

theorem cutFile (h : d.Sound) (p : Path) (n : Nat) : (d.cutFile p n).2.Sound :=
  h.changeFile p fun i => h.setLength i n

theorem flipByte (h : d.Sound) (p : Path) (pos : Nat) (mask : UInt8) :
    (d.flipByte p pos mask).2.Sound := by
  refine h.changeFile p fun i => ?_
  split
  · exact h
  · exact h.writeAll ..

end Sound

/-- What is done to a disk, by a store and by others. -/
inductive Change : Disk → Disk → Prop
  | opened (d : Disk) (p : Path) : Change d (d.openWrite p).2
  | truncated (d : Disk) (i : FileNo) : Change d (d.setContent i [])
  | written (d : Disk) (i : FileNo) (pos : Nat) (bs : Bytes) : Change d (d.write i pos bs).2
  | cut (d : Disk) (i : FileNo) (length : Nat) : Change d (d.setLength i length).2
  | removed (d : Disk) (p : Path) : Change d (d.remove p).2
  | renamed (d : Disk) (source target : Path) : Change d (d.rename source target).2
  | madeDirs (d : Disk) (p : Path) : Change d (d.createDirs p).2
  | limited (d : Disk) (limit : Option Nat) : Change d { d with limit }
  | putFile (d : Disk) (p : Path) (bs : Bytes) : Change d (d.putFile p bs).2
  | appendedFile (d : Disk) (p : Path) (bs : Bytes) : Change d (d.appendFile p bs).2
  | cutFile (d : Disk) (p : Path) (length : Nat) : Change d (d.cutFile p length).2
  | flippedByte (d : Disk) (p : Path) (pos : Nat) (mask : UInt8) :
    Change d (d.flipByte p pos mask).2
  | removedDirs (d : Disk) (p : Path) : Change d (d.removeDirs p).2

theorem Sound.change {d' : Disk} (h : d.Sound) (hc : Change d d') : d'.Sound := by
  cases hc with
  | opened p => exact h.openWrite p
  | truncated i => exact h.truncate i
  | written i pos bs => exact h.write i pos bs
  | cut i length => exact h.setLength i length
  | removed p => exact h.remove p
  | renamed source target => exact h.rename source target
  | madeDirs p => exact h.createDirs p
  | limited limit => exact h.withLimit limit
  | putFile p bs => exact h.putFile p bs
  | appendedFile p bs => exact h.appendFile p bs
  | cutFile p length => exact h.cutFile p length
  | flippedByte p pos mask => exact h.flipByte p pos mask
  | removedDirs p => exact h.removeDirs p

/-- Whatever has been done to a disk that was empty at first. -/
theorem sound_of_changes (h : Relation.ReflTransGen Change empty d) : d.Sound := by
  induction h with
  | refl => exact .empty
  | tail _ hc ih => exact ih.change hc

end LogStore.Disk
