import Mathlib.Data.List.Basic
import Mathlib.Data.List.Induction
import LogStore.Config
import LogStore.Proofs.Log.Scan

/-! What a log says: for each key the value of its last record, if that is no tombstone.
The index says the same of the same log, as places of values instead of values. -/

namespace LogStore

abbrev Value := { bs : Bytes // bs ≠ [] }

abbrev Contents := Std.ExtTreeMap Bytes Value

namespace Contents

/-- A record takes effect: an empty value deletes. -/
def apply (m : Contents) (r : Record) : Contents :=
  if h : r.value = [] then m.erase r.key else m.insert r.key ⟨r.value, h⟩

def ofLog (rs : List Record) : Contents := rs.foldl apply ∅

def bytesOf? (m : Contents) (key : Bytes) : Option Bytes := m[key]?.map Subtype.val

@[simp] theorem bytesOf?_empty (key : Bytes) : bytesOf? ∅ key = none := by
  simp [bytesOf?]

theorem bytesOf?_apply (m : Contents) (r : Record) (key : Bytes) :
    (m.apply r).bytesOf? key = if r.key = key then
      (if r.value = [] then none else some r.value) else m.bytesOf? key := by
  unfold apply bytesOf?
  split
  · rw [Std.ExtTreeMap.getElem?_erase]
    split <;> simp_all
  · rw [Std.ExtTreeMap.getElem?_insert]
    split <;> simp_all

def liveBytes (m : Contents) : Nat :=
  (m.toList.map fun x => Header.size + x.1.length + x.2.val.length).sum

theorem ofLog_append (rs ss : List Record) : ofLog (rs ++ ss) = ss.foldl apply (ofLog rs) :=
  List.foldl_append

end Contents

def lastOf (key : Bytes) (rs : List Record) : Option Record :=
  (rs.filter fun r => r.key = key).getLast?

theorem lastOf_append_singleton (key : Bytes) (rs : List Record) (r : Record) :
    lastOf key (rs ++ [r]) = if r.key = key then some r else lastOf key rs := by
  unfold lastOf
  rw [List.filter_append]
  by_cases h : r.key = key <;> simp [h]

/-- The last write of a key decides, whatever came before and whatever its timestamp. -/
theorem Contents.bytesOf?_ofLog (rs : List Record) (key : Bytes) :
    (ofLog rs).bytesOf? key =
      (lastOf key rs).bind fun r => if r.value = [] then none else some r.value := by
  induction rs using List.reverseRecOn with
  | nil => simp [ofLog, lastOf]
  | append_singleton rs r ih =>
    rw [ofLog_append, List.foldl_cons, List.foldl_nil, bytesOf?_apply, ih,
      lastOf_append_singleton]
    split <;> rfl

theorem lastOf_mem {key : Bytes} {rs : List Record} {r : Record} (h : lastOf key rs = some r) :
    r ∈ rs ∧ r.key = key := by
  simpa [List.mem_filter] using List.mem_of_getLast? h

theorem lastOf_of_mem {r : Record} {rs : List Record} (h : r ∈ rs) :
    ∃ s, lastOf r.key rs = some s := by
  rw [← Option.ne_none_iff_exists', lastOf, ne_eq, List.getLast?_eq_none_iff]
  exact List.ne_nil_of_mem (List.mem_filter.mpr ⟨h, decide_eq_true rfl⟩)

namespace Contents

theorem exists_record {rs : List Record} {key v : Bytes}
    (h : (ofLog rs).bytesOf? key = some v) : ∃ r ∈ rs, r.key = key ∧ r.value = v := by
  rw [bytesOf?_ofLog] at h
  obtain ⟨r, hr, hv⟩ := Option.bind_eq_some_iff.mp h
  obtain ⟨hmem, hkey⟩ := lastOf_mem hr
  split at hv
  · cases hv
  · exact ⟨r, hmem, hkey, Option.some.inj hv⟩

theorem ext_bytesOf? {m m' : Contents} (h : ∀ key, m.bytesOf? key = m'.bytesOf? key) :
    m = m' := by
  apply Std.ExtTreeMap.ext_getElem?
  intro key
  exact Option.map_injective Subtype.val_injective (h key)

end Contents

namespace Entry

def window (e : Entry) (bs : Bytes) : Bytes := (bs.drop e.valuePos).take e.valueSize

/-- The entry points into these bytes, at a value of the one segment. -/
structure Inside (e : Entry) (bs : Bytes) : Prop where
  active : e.fileId = Config.activeFile
  pos : 0 < e.valueSize
  le : e.valuePos + e.valueSize ≤ bs.length

theorem Inside.append {e : Entry} {bs : Bytes} (h : e.Inside bs) (more : Bytes) :
    e.Inside (bs ++ more) :=
  ⟨h.active, h.pos, by have := h.le; rw [List.length_append]; omega⟩

/-- What is appended later does not change what an entry points at. -/
theorem window_append {e : Entry} {bs : Bytes} (h : e.Inside bs) (more : Bytes) :
    e.window (bs ++ more) = e.window bs := by
  have := h.le
  unfold window
  rw [List.drop_append_of_le_length (by omega), List.take_append_of_le_length]
  rw [List.length_drop]
  omega

theorem length_window {e : Entry} {bs : Bytes} (h : e.Inside bs) :
    (e.window bs).length = e.valueSize := by
  have := h.le
  simp only [window, List.length_take, List.length_drop]
  omega

theorem window_ne_nil {e : Entry} {bs : Bytes} (h : e.Inside bs) : e.window bs ≠ [] := by
  rw [← List.length_pos_iff, length_window h]
  exact h.pos

end Entry

namespace Positioned

/-- The entry of a record behind some bytes, and the value that it shows there. -/
theorem window_entry (before : Bytes) (r : Record) (fileId : FileId) :
    ((⟨before.length, r⟩ : Positioned).entry fileId).window (before ++ r.bytes) = r.value := by
  have hd : (before ++ r.bytes).drop (before.length + (Header.size + r.key.length)) = r.value := by
    rw [List.drop_length_add_append, Record.bytes, ← List.append_assoc]
    exact List.drop_left' (by rw [List.length_append, Header.bytes_length])
  simp only [Entry.window, entry, valuePos, Record.valueOffset, hd, List.take_length]

theorem inside_entry (before : Bytes) {r : Record} (h : r.value ≠ []) :
    ((⟨before.length, r⟩ : Positioned).entry Config.activeFile).Inside (before ++ r.bytes) := by
  refine ⟨rfl, List.length_pos_iff.mpr h, ?_⟩
  simp only [entry, valuePos, Record.valueOffset, List.length_append, Record.bytes_length,
    Record.encodedLen]
  omega

end Positioned

theorem Index.getElem?_apply (fileId : FileId) (ix : Index) (p : Positioned) (key : Bytes) :
    (ix.apply fileId p)[key]? = if p.record.key = key then
      (if p.record.value = [] then none else some (p.entry fileId)) else ix[key]? := by
  unfold Index.apply Record.isTombstone
  split
  · rw [Std.ExtTreeMap.getElem?_erase]
    split <;> simp_all
  · rw [Std.ExtTreeMap.getElem?_insert]
    split <;> simp_all

theorem Index.getElem?_replay_values {fileId : FileId} {ps : List Positioned}
    (h : ∀ p ∈ ps, p.record.value ≠ []) (key : Bytes) :
    (Index.replay fileId ∅ ps)[key]? =
      ((ps.filter fun p => p.record.key = key).getLast?).map (·.entry fileId) := by
  induction ps using List.reverseRecOn with
  | nil => simp [Index.replay]
  | append_singleton ps p ih =>
    have hp : p.record.value ≠ [] := h p (by simp)
    have hstep : Index.replay fileId ∅ (ps ++ [p]) = (Index.replay fileId ∅ ps).apply fileId p :=
      Index.replay_append fileId ∅ ps [p]
    rw [hstep, Index.getElem?_apply, if_neg hp, ih fun q hq => h q (by simp [hq]),
      List.filter_append]
    by_cases hkey : p.record.key = key <;> simp [hkey]

/-- The entry of a key is that of its last record, if that is no tombstone. -/
theorem Index.getElem?_replay_iff {fileId : FileId} {rs : List Record} {key : Bytes} {e : Entry} :
    (Index.replay fileId ∅ (positions 0 rs))[key]? = some e ↔
      ∃ before r after, rs = before ++ r :: after ∧ r.key = key ∧ r.value ≠ [] ∧
        (∀ s ∈ after, s.key ≠ key) ∧
        e = (⟨(logBytes before).length, r⟩ : Positioned).entry fileId := by
  induction rs using List.reverseRecOn with
  | nil => simp [Index.replay]
  | append_singleton rs s ih =>
    have hsplit : (Index.replay fileId ∅ (positions 0 (rs ++ [s])))[key]? = if s.key = key then
        (if s.value = [] then none
          else some ((⟨(logBytes rs).length, s⟩ : Positioned).entry fileId))
        else (Index.replay fileId ∅ (positions 0 rs))[key]? := by
      rw [positions_append, Index.replay_append, Nat.zero_add]
      exact Index.getElem?_apply fileId _ ⟨(logBytes rs).length, s⟩ key
    rw [hsplit]
    -- the records behind the last of the key do not count, so it is the new one or an old one
    constructor
    · intro h
      split at h
      · split at h
        · cases h
        · cases h
          exact ⟨rs, s, [], rfl, ‹_›, ‹_›, by simp, rfl⟩
      · obtain ⟨before, r, after, rfl, hkey, hvalue, hafter, he⟩ := ih.mp h
        refine ⟨before, r, after ++ [s], by simp, hkey, hvalue, fun x hx => ?_, he⟩
        rcases List.mem_append.mp hx with hx | hx
        · exact hafter x hx
        · rwa [List.mem_singleton.mp hx]
    · rintro ⟨before, r, after, heq, hkey, hvalue, hafter, rfl⟩
      rcases List.eq_nil_or_concat' after with rfl | ⟨after, x, rfl⟩
      · obtain ⟨rfl, hs⟩ := List.append_inj' heq rfl
        cases hs
        rw [if_pos hkey, if_neg hvalue]
      · rw [← List.cons_append, ← List.append_assoc] at heq
        obtain ⟨rfl, hs⟩ := List.append_inj' heq rfl
        cases hs
        rw [if_neg (hafter s (by simp))]
        exact ih.mpr ⟨before, r, after, rfl, hkey, hvalue, fun y hy => hafter y (by simp [hy]), rfl⟩

/-- An index points, key by key, at the values of a map as they lie in some bytes. -/
structure Index.Shows (ix : Index) (bs : Bytes) (m : Contents) : Prop where
  same : ∀ key, m.bytesOf? key = ix[key]?.map (·.window bs)
  inside : ∀ {key : Bytes} {e : Entry}, ix[key]? = some e → e.Inside bs

namespace Index.Shows

variable {ix : Index} {bs : Bytes} {m : Contents}

theorem empty (bs : Bytes) : Shows ∅ bs ∅ :=
  ⟨by simp, by simp⟩

theorem append (h : Shows ix bs m) (more : Bytes) : Shows ix (bs ++ more) m := by
  refine ⟨fun key => ?_, fun he => (h.inside he).append more⟩
  rw [h.same key]
  cases he : ix[key]? with
  | none => rfl
  | some e => simp only [Option.map_some, Entry.window_append (h.inside he)]

theorem apply (h : Shows ix bs m) (r : Record) :
    Shows (ix.apply Config.activeFile ⟨bs.length, r⟩) (bs ++ r.bytes) (m.apply r) := by
  have hget := Index.getElem?_apply Config.activeFile ix ⟨bs.length, r⟩
  constructor
  · intro key
    rw [Contents.bytesOf?_apply, hget]
    by_cases hk : r.key = key
    · simp only [hk, if_true]
      split
      · rfl
      · simp only [Option.map_some, Positioned.window_entry]
    · simp only [hk, if_false]
      exact (h.append r.bytes).same key
  · intro key e he
    rw [hget] at he
    split at he
    · split at he
      · cases he
      · rename_i hv
        cases he
        exact Positioned.inside_entry bs hv
    · exact (h.append r.bytes).inside he

theorem replay (h : Shows ix bs m) (rs : List Record) :
    Shows (ix.replay Config.activeFile (positions bs.length rs)) (bs ++ logBytes rs)
      (rs.foldl Contents.apply m) := by
  induction rs generalizing ix bs m with
  | nil => simpa [Index.replay] using h
  | cons r rs ih =>
    have := ih (h.apply r)
    rwa [List.length_append, Record.bytes_length, List.append_assoc] at this

/-- The index of a log shows what the log says. -/
theorem ofLog (rs : List Record) :
    Shows (Index.replay Config.activeFile ∅ (positions 0 rs)) (logBytes rs)
      (Contents.ofLog rs) := by
  simpa [Contents.ofLog] using (empty []).replay rs

theorem map_eq (h : Shows ix bs m) :
    m.map (fun _ v => v.val) = ix.map fun _ e => e.window bs := by
  apply Std.ExtTreeMap.ext_getElem?
  intro key
  rw [Std.ExtTreeMap.getElem?_map, Std.ExtTreeMap.getElem?_map]
  exact h.same key

theorem size_eq (h : Shows ix bs m) : ix.size = m.size := by
  have := congrArg Std.ExtTreeMap.size h.map_eq
  rwa [Std.ExtTreeMap.size_map, Std.ExtTreeMap.size_map, eq_comm] at this

theorem contains_eq (h : Shows ix bs m) (key : Bytes) : ix.contains key = m.contains key := by
  rw [Std.ExtTreeMap.contains_eq_isSome_getElem?, Std.ExtTreeMap.contains_eq_isSome_getElem?]
  have := congrArg Option.isSome (h.same key)
  simpa [Contents.bytesOf?, eq_comm] using this

end Index.Shows

end LogStore
