import Mathlib.Data.List.Forall2
import LogStore.Proofs.Contents

/-! Records that differ in their timestamps alone. Logs of such records say the same, lie in the
same places and have the same bytes but for the first eight of each record, which are its checksum
and its timestamp; and their indexes differ in timestamps alone. -/

namespace LogStore

/-- The same write, at some other time. -/
structure Record.Akin (r r' : Record) : Prop where
  key : r'.key = r.key
  value : r'.value = r.value

abbrev AkinLogs (rs rs' : List Record) : Prop := List.Forall₂ Record.Akin rs rs'

def Index.timeless (ix : Index) : Index := ix.map fun _ e => { e with timestamp := 0 }

variable {r r' : Record} {rs rs' ss ss' : List Record}

namespace Record.Akin

theorem refl (r : Record) : Akin r r := ⟨rfl, rfl⟩

theorem encodedLen_eq (h : Akin r r') : r'.encodedLen = r.encodedLen := by
  rw [encodedLen, encodedLen, h.key, h.value]

theorem apply_eq (h : Akin r r') (m : Contents) : m.apply r' = m.apply r := by
  simp only [Contents.apply, h.key, h.value]

theorem drop_bytes (h : Akin r r') : r'.bytes.drop 8 = r.bytes.drop 8 := by
  have hsplit : ∀ s : Record, s.bytes.drop 8 = wordBytes (UInt32.ofNat s.key.length) ++
      wordBytes (UInt32.ofNat s.value.length) ++ (s.key ++ s.value) := fun _ => rfl
  rw [hsplit, hsplit, h.key, h.value]

theorem getElem?_bytes (h : Akin r r') {i : Nat} (hi : 8 ≤ i) : r'.bytes[i]? = r.bytes[i]? := by
  have hdrop := congrArg (·[i - 8]?) h.drop_bytes
  simp only [List.getElem?_drop] at hdrop
  rwa [Nat.add_sub_cancel' hi] at hdrop

end Record.Akin

namespace Index

variable {ix ix' : Index} {fileId : FileId}

theorem getElem?_timeless (ix : Index) (key : Bytes) :
    ix.timeless[key]? = ix[key]?.map fun e => { e with timestamp := 0 } :=
  Std.ExtTreeMap.getElem?_map

theorem timeless_apply (h : ix'.timeless = ix.timeless) (hr : r.Akin r') (o : Nat) :
    (ix'.apply fileId ⟨o, r'⟩).timeless = (ix.apply fileId ⟨o, r⟩).timeless := by
  apply Std.ExtTreeMap.ext_getElem?
  intro key
  have hkey := congrArg (·[key]?) h
  simp only [getElem?_timeless] at hkey
  simp only [getElem?_timeless, getElem?_apply, hr.key, hr.value]
  split
  · split
    · rfl
    · simp only [Option.map_some, Positioned.entry, Positioned.valuePos, Record.valueOffset, hr.key,
        hr.value]
  · exact hkey

end Index

namespace AkinLogs

theorem refl (rs : List Record) : AkinLogs rs rs := List.forall₂_same.mpr fun r _ => .refl r

theorem length_eq (h : AkinLogs rs rs') : (logBytes rs').length = (logBytes rs).length := by
  induction h with
  | nil => rfl
  | cons hr _ ih =>
    simp only [logBytes_cons, List.length_append, Record.bytes_length, hr.encodedLen_eq, ih]

theorem snoc (h : AkinLogs rs rs') (hr : r.Akin r') : AkinLogs (rs ++ [r]) (rs' ++ [r']) :=
  List.rel_append h (.cons hr .nil)

theorem ofLog_eq (h : AkinLogs rs rs') : Contents.ofLog rs' = Contents.ofLog rs := by
  have hfold : ∀ m : Contents, rs'.foldl Contents.apply m = rs.foldl Contents.apply m := by
    induction h with
    | nil => exact fun _ => rfl
    | cons hr _ ih =>
      intro m
      rw [List.foldl_cons, List.foldl_cons, hr.apply_eq, ih]
  exact hfold ∅

theorem timeless_replay (h : AkinLogs rs rs') {ix ix' : Index} (hix : ix'.timeless = ix.timeless)
    (fileId : FileId) (o : Nat) : (ix'.replay fileId (positions o rs')).timeless =
      (ix.replay fileId (positions o rs)).timeless := by
  induction h generalizing ix ix' o with
  | nil => exact hix
  | @cons r r' rs rs' hr _ ih =>
    have hfirst : (ix'.apply fileId ⟨o, r'⟩).timeless = (ix.apply fileId ⟨o, r⟩).timeless :=
      Index.timeless_apply hix hr o
    have hnext := ih hfirst (o + r.encodedLen)
    simpa only [Index.replay, positions, List.foldl_cons, hr.encodedLen_eq] using hnext

/-- Outside the first eight bytes of each record, and in what comes behind them all, there is no
difference. -/
theorem getElem?_eq (h : AkinLogs rs rs') (t : Bytes) {o i : Nat}
    (hi : ∀ x ∈ positions o rs, o + i < x.offset ∨ x.offset + 8 ≤ o + i) :
    (logBytes rs' ++ t)[i]? = (logBytes rs ++ t)[i]? := by
  induction h generalizing o i with
  | nil => rfl
  | @cons r r' rs rs' hr _ ih =>
    have hlen : r'.bytes.length = r.bytes.length := by
      rw [Record.bytes_length, Record.bytes_length, hr.encodedLen_eq]
    rw [logBytes_cons, logBytes_cons, List.append_assoc, List.append_assoc]
    by_cases hin : i < r.bytes.length
    · have hfirst : o + i < o ∨ o + 8 ≤ o + i := hi ⟨o, r⟩ List.mem_cons_self
      have hin' : i < r'.bytes.length := Nat.lt_of_lt_of_eq hin hlen.symm
      rw [List.getElem?_append_left hin, List.getElem?_append_left hin']
      exact hr.getElem?_bytes (by omega)
    · have hout := Nat.not_lt.mp hin
      have hout' : r'.bytes.length ≤ i := hlen.trans_le hout
      rw [List.getElem?_append_right hout, List.getElem?_append_right hout', hlen]
      apply ih (o := o + r.encodedLen)
      intro x hx
      have hrest := hi x (List.mem_cons_of_mem _ hx)
      have := r.bytes_length
      omega

end AkinLogs

/-- The same bytes, but for the checksums and timestamps of records. -/
def SameButStamps (bs bs' : Bytes) : Prop :=
  bs'.length = bs.length ∧ ∃ rs rs' t e, Parts bs rs t e ∧ Parts bs' rs' t e ∧ AkinLogs rs rs' ∧
    ∀ i, (∀ x ∈ positions 0 rs, i < x.offset ∨ x.offset + 8 ≤ i) → bs'[i]? = bs[i]?

theorem SameButStamps.refl (bs : Bytes) : SameButStamps bs bs := by
  obtain ⟨rs, t, e, hp⟩ := exists_parts bs
  exact ⟨rfl, rs, rs, t, e, hp, hp, .refl rs, fun _ _ => rfl⟩

theorem AkinLogs.sameButStamps (h : AkinLogs rs rs') (hfits : ∀ r ∈ rs, r.Fits)
    (hfits' : ∀ r ∈ rs', r.Fits) : SameButStamps (logBytes rs) (logBytes rs') := by
  refine ⟨h.length_eq, rs, rs', [], .endOfLog, .of_records hfits, .of_records hfits', h, ?_⟩
  intro i hi
  have hall := h.getElem?_eq [] (o := 0) (i := i) (by simpa only [Nat.zero_add] using hi)
  rwa [List.append_nil, List.append_nil] at hall

end LogStore
