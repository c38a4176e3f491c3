import Mathlib.Data.List.Nodup
import Mathlib.Data.List.Perm.Basic
import LogStore.Proofs.Contents

/-! The records of a log are live or dead. A record is dead if it is a tombstone, or if its key
comes up again behind it; the live ones are what the log says, one record for each key. So the
length of a log is the length of what it says and the lengths of its dead records. A log in which
nothing is dead and the keys are in order is the only one that says what it says. -/

namespace LogStore

/-- The record says nothing any more once these come behind it. -/
def Record.DeadBefore (r : Record) (rs : List Record) : Prop :=
  r.value = [] ∨ ∃ s ∈ rs, s.key = r.key

instance (r : Record) (rs : List Record) : Decidable (r.DeadBefore rs) :=
  inferInstanceAs (Decidable (_ ∨ _))

def liveRecords : List Record → List Record
  | [] => []
  | r :: rs => if r.DeadBefore rs then liveRecords rs else r :: liveRecords rs

def deadRecords : List Record → List Record
  | [] => []
  | r :: rs => if r.DeadBefore rs then r :: deadRecords rs else deadRecords rs

variable {rs : List Record} {r : Record}

/-- Each record is the one or the other. -/
theorem sum_live_add_sum_dead (f : Record → Nat) (rs : List Record) :
    ((liveRecords rs).map f).sum + ((deadRecords rs).map f).sum = (rs.map f).sum := by
  induction rs with
  | nil => rfl
  | cons r rs ih =>
    by_cases h : r.DeadBefore rs
    · simp only [liveRecords, deadRecords, if_pos h, List.map_cons, List.sum_cons]
      omega
    · simp only [liveRecords, deadRecords, if_neg h, List.map_cons, List.sum_cons]
      omega

theorem lastOf_eq_none_iff {key : Bytes} : lastOf key rs = none ↔ ∀ s ∈ rs, s.key ≠ key := by
  simp [lastOf]

theorem lastOf_cons (key : Bytes) (r : Record) (rs : List Record) :
    lastOf key (r :: rs) = (lastOf key rs).or (if r.key = key then some r else none) := by
  unfold lastOf
  by_cases h : r.key = key
  · simp [h, List.getLast?_cons]
  · simp [h]

theorem lastOf_eq_some_iff {key : Bytes} : lastOf key rs = some r ↔
    ∃ before after, rs = before ++ r :: after ∧ r.key = key ∧ ∀ s ∈ after, s.key ≠ key := by
  induction rs with
  | nil => simp [lastOf]
  | cons x rs ih =>
    rw [lastOf_cons]
    constructor
    · intro h
      cases hl : lastOf key rs with
      | some y =>
        rw [hl, Option.some_or] at h
        obtain ⟨before, after, rfl, hkey, hafter⟩ := ih.mp (hl.trans h)
        exact ⟨x :: before, after, rfl, hkey, hafter⟩
      | none =>
        rw [hl, Option.none_or] at h
        split at h
        · cases h
          exact ⟨[], rs, rfl, ‹_›, lastOf_eq_none_iff.mp hl⟩
        · cases h
    · rintro ⟨before, after, heq, hkey, hafter⟩
      cases before with
      | nil =>
        obtain ⟨rfl, rfl⟩ := List.cons.inj heq
        rw [lastOf_eq_none_iff.mpr hafter, Option.none_or, if_pos hkey]
      | cons y before =>
        obtain ⟨rfl, rfl⟩ := List.cons.inj heq
        rw [ih.mpr ⟨before, after, rfl, hkey, hafter⟩, Option.some_or]

/-- Whether one more record in front counts is decided where its key does not come up again. -/
theorem live_cons_iff {s : Record} : (r.value ≠ [] ∧ lastOf r.key (s :: rs) = some r) ↔
    (r.value ≠ [] ∧ lastOf r.key rs = some r) ∨ (r = s ∧ ¬ s.DeadBefore rs) := by
  rw [lastOf_cons]
  cases hl : lastOf r.key rs with
  | some x =>
    rw [Option.some_or]
    constructor
    · exact .inl
    · rintro (h | ⟨rfl, hlive⟩)
      · exact h
      · obtain ⟨hmem, hkey⟩ := lastOf_mem hl
        exact absurd (.inr ⟨x, hmem, hkey⟩) hlive
  | none =>
    rw [lastOf_eq_none_iff] at hl
    rw [Option.none_or]
    constructor
    · rintro ⟨hv, hs⟩
      split at hs
      · cases hs
        refine .inr ⟨rfl, ?_⟩
        rintro (hnil | ⟨x, hx, hkey⟩)
        · exact hv hnil
        · exact hl x hx hkey
      · cases hs
    · rintro (⟨-, h⟩ | ⟨rfl, hlive⟩)
      · cases h
      · exact ⟨fun hnil => hlive (.inl hnil), if_pos rfl⟩

/-- Live is what is the last of its key, and no tombstone. -/
theorem mem_liveRecords : r ∈ liveRecords rs ↔ r.value ≠ [] ∧ lastOf r.key rs = some r := by
  induction rs with
  | nil => simp [liveRecords, lastOf]
  | cons s rs ih =>
    rw [live_cons_iff, ← ih, liveRecords]
    by_cases h : s.DeadBefore rs
    · simp [h]
    · rw [if_neg h, List.mem_cons, and_iff_left h]
      exact or_comm

theorem nodup_liveRecords (rs : List Record) : ((liveRecords rs).map Record.key).Nodup := by
  induction rs with
  | nil => exact List.nodup_nil
  | cons r rs ih =>
    by_cases h : r.DeadBefore rs
    · rwa [liveRecords, if_pos h]
    · rw [liveRecords, if_neg h, List.map_cons, List.nodup_cons]
      refine ⟨fun hmem => ?_, ih⟩
      obtain ⟨s, hs, hkey⟩ := List.mem_map.mp hmem
      exact h (.inr ⟨s, (lastOf_mem (mem_liveRecords.mp hs).2).1, hkey⟩)

namespace Contents

variable {m : Contents} {key value : Bytes}

theorem mem_toList_map_iff :
    (key, value) ∈ m.toList.map (fun x => (x.1, x.2.val)) ↔ m.bytesOf? key = some value := by
  simp only [List.mem_map, Prod.mk.injEq, Prod.exists, bytesOf?, Option.map_eq_some_iff,
    Std.ExtTreeMap.mem_toList_iff_getElem?_eq_some]
  constructor
  · rintro ⟨k, v, hv, rfl, rfl⟩
    exact ⟨v, hv, rfl⟩
  · rintro ⟨v, hv, rfl⟩
    exact ⟨key, v, hv, rfl, rfl⟩

theorem liveBytes_eq {l : List (Bytes × Bytes)} (hkeys : (l.map Prod.fst).Nodup)
    (h : ∀ key value, (key, value) ∈ l ↔ m.bytesOf? key = some value) :
    m.liveBytes = (l.map fun x => Header.size + x.1.length + x.2.length).sum := by
  have hnodup : (m.toList.map fun x => (x.1, x.2.val)).Nodup := by
    apply List.Nodup.of_map Prod.fst
    rw [List.map_map]
    exact (Std.ExtTreeMap.map_fst_toList_eq_keys (t := m)) ▸ m.nodup_keys
  have hperm : (m.toList.map fun x => (x.1, x.2.val)).Perm l := by
    rw [List.perm_ext_iff_of_nodup hnodup (List.Nodup.of_map Prod.fst hkeys)]
    rintro ⟨key, value⟩
    rw [mem_toList_map_iff, h]
  have hlens := hperm.map fun x => Header.size + x.1.length + x.2.length
  rw [List.map_map] at hlens
  exact hlens.sum_nat

/-- What a log says is in its live records, and they say nothing else. -/
theorem mem_liveRecords_map_iff : (key, value) ∈ (liveRecords rs).map (fun r => (r.key, r.value)) ↔
    (ofLog rs).bytesOf? key = some value := by
  rw [bytesOf?_ofLog, Option.bind_eq_some_iff, List.mem_map]
  constructor
  · rintro ⟨r, hr, heq⟩
    obtain ⟨rfl, rfl⟩ := Prod.mk.inj heq
    obtain ⟨hv, hlast⟩ := mem_liveRecords.mp hr
    exact ⟨r, hlast, if_neg hv⟩
  · rintro ⟨r, hr, hv⟩
    obtain ⟨-, rfl⟩ := lastOf_mem hr
    split at hv
    · cases hv
    · cases hv
      exact ⟨r, mem_liveRecords.mpr ⟨‹_›, hr⟩, rfl⟩

theorem liveBytes_ofLog (rs : List Record) :
    (ofLog rs).liveBytes = ((liveRecords rs).map Record.encodedLen).sum := by
  have hkeys : (((liveRecords rs).map fun r => (r.key, r.value)).map Prod.fst).Nodup := by
    rw [List.map_map]
    exact nodup_liveRecords rs
  rw [liveBytes_eq hkeys fun _ _ => mem_liveRecords_map_iff, List.map_map]
  rfl

end Contents

/-- A log is as long as what it says, and its dead records besides. -/
theorem length_logBytes_eq (rs : List Record) : (logBytes rs).length =
    (Contents.ofLog rs).liveBytes + ((deadRecords rs).map Record.encodedLen).sum := by
  rw [logBytes_length, Contents.liveBytes_ofLog, sum_live_add_sum_dead]

theorem deadRecords_ne_nil_iff : deadRecords rs ≠ [] ↔
    ∃ before r after, rs = before ++ r :: after ∧ r.DeadBefore after := by
  induction rs with
  | nil => simp [deadRecords]
  | cons s rs ih =>
    by_cases h : s.DeadBefore rs
    · rw [deadRecords, if_pos h]
      exact ⟨fun _ => ⟨[], s, rs, rfl, h⟩, fun _ => List.cons_ne_nil _ _⟩
    · rw [deadRecords, if_neg h, ih]
      constructor
      · rintro ⟨before, r, after, rfl, hr⟩
        exact ⟨s :: before, r, after, rfl, hr⟩
      · rintro ⟨before, r, after, heq, hr⟩
        cases before with
        | nil =>
          obtain ⟨rfl, rfl⟩ := List.cons.inj heq
          exact absurd hr h
        | cons x before =>
          obtain ⟨-, rfl⟩ := List.cons.inj heq
          exact ⟨before, r, after, rfl, hr⟩

/-- So a log is longer than what it says exactly where there is something dead in it. -/
theorem liveBytes_lt_iff : (Contents.ofLog rs).liveBytes < (logBytes rs).length ↔
    ∃ before r after, rs = before ++ r :: after ∧ r.DeadBefore after := by
  rw [← deadRecords_ne_nil_iff, length_logBytes_eq]
  cases hdead : deadRecords rs with
  | nil => simp
  | cons r dead =>
    have hpos := r.encodedLen_pos
    simp only [List.map_cons, List.sum_cons, ne_eq, reduceCtorEq, not_false_eq_true, iff_true]
    omega

theorem compare_bytes_eq_lt {a b : Bytes} : compare a b = .lt ↔ a < b := by
  induction a generalizing b with
  | nil => cases b <;> simp [compare, List.compareLex]
  | cons x a ih =>
    cases b with
    | nil => simp [compare, List.compareLex]
    | cons y b =>
      rw [List.cons_lt_cons_iff, ← ih, ← Std.compare_eq_lt, ← Std.compare_eq_iff_eq (a := x),
        List.compare_eq_compareLex, List.compareLex_cons_cons]
      cases compare x y <;> simp [Ordering.then]

/-- One record for each key that has a value and a timestamp, in the order of the keys. -/
structure Canonical (live : Bytes → Option (Bytes × UInt32)) (rs : List Record) : Prop where
  ascending : (rs.map Record.key).Pairwise (· < ·)
  mem_iff : ∀ r, r ∈ rs ↔ live r.key = some (r.value, r.timestamp)

namespace Canonical

variable {live : Bytes → Option (Bytes × UInt32)} {ss : List Record}

theorem nodup_keys (h : Canonical live rs) : (rs.map Record.key).Nodup := by
  apply h.ascending.imp
  rintro a _ hlt rfl
  exact List.lt_irrefl a hlt

/-- No two lists of records tell the same in this way. -/
theorem unique (h : Canonical live rs) (h' : Canonical live ss) : rs = ss := by
  have hperm : rs.Perm ss := by
    rw [List.perm_ext_iff_of_nodup (.of_map _ h.nodup_keys) (.of_map _ h'.nodup_keys)]
    intro r
    rw [h.mem_iff, h'.mem_iff]
  have hasc : rs.Pairwise fun a b => a.key < b.key := List.pairwise_map.mp h.ascending
  have hasc' : ss.Pairwise fun a b => a.key < b.key := List.pairwise_map.mp h'.ascending
  exact hperm.eq_of_pairwise (fun a b _ _ hab hba => absurd hba (List.lt_asymm hab)) hasc hasc'

theorem lastOf_eq_some_iff (h : Canonical live rs) {key : Bytes} :
    lastOf key rs = some r ↔ r ∈ rs ∧ r.key = key := by
  refine ⟨lastOf_mem, ?_⟩
  rintro ⟨hr, rfl⟩
  obtain ⟨s, hs⟩ := lastOf_of_mem hr
  obtain ⟨hmem, hkey⟩ := lastOf_mem hs
  rw [hs, List.inj_on_of_nodup_map h.nodup_keys hmem hr hkey]

theorem key_ne {before after : List Record} (h : Canonical live (before ++ r :: after)) {s : Record}
    (hs : s ∈ after) : s.key ≠ r.key := by
  have hkeys := h.nodup_keys
  rw [List.map_append, List.map_cons] at hkeys
  have hr := (List.nodup_cons.mp hkeys.of_append_right).1
  rintro heq
  exact hr (heq ▸ List.mem_map_of_mem hs)

end Canonical

end LogStore
