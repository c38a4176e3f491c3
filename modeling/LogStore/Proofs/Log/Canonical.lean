import LogStore.Proofs.Log.Scan

/-! Every record has one written form, and every byte string one reading: reading accepts
exactly what writing makes, a log is read back record by record, and no bytes are the log of
two different lists of records. -/

namespace LogStore

namespace Record

theorem decode_eq_ok_iff {bs rest : Bytes} {r : Record} :
    decode bs = (.ok r, rest) ↔ r.Fits ∧ bs = r.bytes ++ rest := by
  constructor
  · exact eq_bytes_of_decode
  · rintro ⟨hr, rfl⟩
    exact decode_bytes hr rest

/-- What is too long is refused, the key before the value. -/
theorem encode_eq_error_iff {r : Record} {e : Error} : r.encode = .error e ↔
    (UInt32.size ≤ r.key.length ∧ e = .recordTooLarge .key r.key.length) ∨
      (r.key.length < UInt32.size ∧ UInt32.size ≤ r.value.length ∧
        e = .recordTooLarge .value r.value.length) := by
  unfold encode checkLengths
  by_cases hk : UInt32.size ≤ r.key.length
  · simp [hk, Nat.not_lt.mpr hk, eq_comm]
  · by_cases hv : UInt32.size ≤ r.value.length
    · simp [hk, hv, Nat.not_le.mp hk, eq_comm]
    · simp [hk, hv]

def calls {σ : Type} [Source σ] : Nat → σ → List (Except Error Record)
  | 0, _ => []
  | n + 1, s => (decode s).1 :: calls n (decode s).2

/-- The records at the front are read back one by one, whatever follows them. -/
theorem calls_logBytes_append {rs : List Record} (hrs : ∀ r ∈ rs, r.Fits) (n : Nat) (bs : Bytes) :
    calls (rs.length + n) (logBytes rs ++ bs) = rs.map .ok ++ calls n bs := by
  induction rs with
  | nil => rw [List.length_nil, Nat.zero_add, logBytes_nil, List.nil_append, List.map_nil,
      List.nil_append]
  | cons r rs ih =>
    have hr := decode_bytes (hrs r List.mem_cons_self) (logBytes rs ++ bs)
    rw [List.length_cons, logBytes_cons, List.append_assoc, Nat.add_right_comm, calls, hr,
      ih fun s hs => hrs s (List.mem_cons_of_mem _ hs)]
    rfl

theorem calls_logBytes {rs : List Record} (hrs : ∀ r ∈ rs, r.Fits) :
    calls (rs.length + 1) (logBytes rs) = rs.map .ok ++ [.error .endOfLog] := by
  have hcalls := calls_logBytes_append hrs 1 []
  rwa [List.append_nil] at hcalls

end Record

abbrev Encodings (rs : List Record) (bss : List Bytes) : Prop :=
  List.Forall₂ (fun r bs => r.encode = .ok bs) rs bss

theorem Encodings.logBytes_eq {rs : List Record} {bss : List Bytes} (h : Encodings rs bss) :
    (∀ r ∈ rs, r.Fits) ∧ bss.flatten = logBytes rs := by
  induction h with
  | nil => simp
  | @cons r bs rs bss hr _ ih =>
    obtain ⟨hfit, rfl⟩ := Record.encode_eq_ok_iff.mp hr
    exact ⟨by simpa using ⟨hfit, ih.1⟩, by rw [List.flatten_cons, ih.2, logBytes_cons]⟩

theorem encodings_of_fits {rs : List Record} (h : ∀ r ∈ rs, r.Fits) :
    Encodings rs (rs.map Record.bytes) := by
  induction rs with
  | nil => exact .nil
  | cons r rs ih =>
    exact .cons (Record.encode_of_fits (h r List.mem_cons_self))
      (ih fun s hs => h s (List.mem_cons_of_mem _ hs))

theorem map_record_positions (o : Nat) (rs : List Record) :
    (positions o rs).map Positioned.record = rs := by
  induction rs generalizing o with
  | nil => rfl
  | cons r rs ih => rw [positions, List.map_cons, ih]

/-- Bytes fall apart into records and a tail in one way only. -/
theorem Parts.unique {bs t t' : Bytes} {rs rs' : List Record} {e e' : Error}
    (h : Parts bs rs t e) (h' : Parts bs rs' t' e') : rs = rs' ∧ t = t' ∧ e = e' := by
  have hscan := scan_logBytes h.fits h.stop 0
  rw [← h.eq, h'.eq, scan_logBytes h'.fits h'.stop, Scan.mk.injEq] at hscan
  obtain ⟨hpos, -, rfl⟩ := hscan
  have hrs := congrArg (List.map Positioned.record) hpos
  rw [map_record_positions, map_record_positions] at hrs
  subst hrs
  exact ⟨rfl, List.append_cancel_left (h.eq.symm.trans h'.eq), rfl⟩

/-- Reading accepts exactly what writing makes, and takes just that. So a record that is not
written is one whose lengths do not fit into a header; a log of any records is read back, one
after another, up to its end; and it is the log of no other records. -/
theorem decode_ok_iff_encode :
    (∀ (bs rest : Bytes) (r : Record), Record.decode bs = (.ok r, rest) ↔
      r.key.length < 2 ^ 32 ∧ r.value.length < 2 ^ 32 ∧
        ∃ front, r.encode = .ok front ∧ bs = front ++ rest) ∧
    (∀ (r : Record) (e : Error), r.encode = .error e ↔
      (2 ^ 32 ≤ r.key.length ∧ e = .recordTooLarge .key r.key.length) ∨
        (r.key.length < 2 ^ 32 ∧ 2 ^ 32 ≤ r.value.length ∧
          e = .recordTooLarge .value r.value.length)) ∧
    (∀ rs bss, Encodings rs bss →
      Record.calls (rs.length + 1) bss.flatten = rs.map .ok ++ [.error .endOfLog]) ∧
    ∀ rs bss rs' bss', Encodings rs bss → Encodings rs' bss' →
      bss.flatten = bss'.flatten → rs = rs' := by
  refine ⟨fun bs rest r => ?_, fun r e => Record.encode_eq_error_iff, fun rs bss h => ?_,
    fun rs bss rs' bss' h h' heq => ?_⟩
  · rw [Record.decode_eq_ok_iff]
    constructor
    · rintro ⟨hr, rfl⟩
      exact ⟨hr.1, hr.2, r.bytes, Record.encode_of_fits hr, rfl⟩
    · rintro ⟨-, -, front, hfront, rfl⟩
      obtain ⟨hr, rfl⟩ := Record.encode_eq_ok_iff.mp hfront
      exact ⟨hr, rfl⟩
  · obtain ⟨hfits, hbytes⟩ := h.logBytes_eq
    rw [hbytes, Record.calls_logBytes hfits]
  · obtain ⟨hfits, hbytes⟩ := h.logBytes_eq
    obtain ⟨hfits', hbytes'⟩ := h'.logBytes_eq
    have hlog : logBytes rs = logBytes rs' := by rw [← hbytes, heq, hbytes']
    exact ((hlog ▸ Parts.of_records hfits).unique (Parts.of_records hfits')).1

theorem decode_ok_iff_encode_two :
    Encodings [⟨7, [1], [2]⟩, .tombstone [1] 9]
      [Record.bytes ⟨7, [1], [2]⟩, (Record.tombstone [1] 9).bytes] ∧
    Record.calls 3 (Record.bytes ⟨7, [1], [2]⟩ ++ (Record.tombstone [1] 9).bytes) =
      [.ok ⟨7, [1], [2]⟩, .ok (.tombstone [1] 9), .error .endOfLog] := by
  have h : Encodings [⟨7, [1], [2]⟩, .tombstone [1] 9]
      [Record.bytes ⟨7, [1], [2]⟩, (Record.tombstone [1] 9).bytes] :=
    .cons (Record.encode_of_fits (by decide)) (.cons (Record.encode_of_fits (by decide)) .nil)
  have hcalls := decode_ok_iff_encode.2.2.1 _ _ h
  rw [List.flatten_cons, List.flatten_cons, List.flatten_nil, List.append_nil] at hcalls
  exact ⟨h, hcalls⟩

end LogStore
