import LogStore.Proofs.Log.Cursor
import LogStore.Proofs.Record.Burst

/-! Whether a record lies where its cursor says. As long as no call has failed it does. A call
that meets damage reads past it and leaves the offset behind, so the record that comes next is
said to lie where the damage is, and there it does not. -/

namespace LogStore

/-- The file holds the record just where that is said to lie, and its value with it. -/
structure Positioned.LiesIn (p : Positioned) (file : Bytes) : Prop where
  written : p.record.encode = .ok ((file.drop p.offset).take (p.next - p.offset))
  value : (file.drop p.valuePos).take p.record.value.length = p.record.value

namespace Positioned

variable {o : Nat} {r : Record} {file rest : Bytes}

theorem liesIn_of_drop (hr : r.Fits) (h : file.drop o = r.bytes ++ rest) :
    LiesIn ⟨o, r⟩ file := by
  constructor
  · rw [Record.encode_of_fits hr, h, next, Nat.add_sub_cancel_left, List.take_left' r.bytes_length]
  · have hfront : (r.header.bytes ++ r.key).length = r.valueOffset := by
      rw [List.length_append, Header.bytes_length, Record.valueOffset]
    have hbytes : r.bytes ++ rest = (r.header.bytes ++ r.key) ++ (r.value ++ rest) := by
      simp only [Record.bytes, List.append_assoc]
    rw [valuePos, ← List.drop_drop, h, hbytes, List.drop_left' hfront, List.take_left]

theorem liesIn_of_mem_positions {front : Bytes} {rs : List Record} (hrs : ∀ r ∈ rs, r.Fits)
    {p : Positioned} (h : p ∈ positions front.length rs) : p.LiesIn (front ++ logBytes rs) := by
  induction rs generalizing front with
  | nil => cases h
  | cons r rs ih =>
    rcases List.mem_cons.mp h with rfl | h
    · have hdrop : (front ++ logBytes (r :: rs)).drop front.length = r.bytes ++ logBytes rs := by
        rw [List.drop_left, logBytes_cons]
      exact liesIn_of_drop (hrs r List.mem_cons_self) hdrop
    · rw [← r.bytes_length, ← List.length_append] at h
      rw [logBytes_cons, ← List.append_assoc]
      exact ih (fun q hq => hrs q (List.mem_cons_of_mem _ hq)) h

theorem LiesIn.decode {p : Positioned} (h : p.LiesIn file) :
    (Record.decode (file.drop p.offset)).1 = .ok p.record := by
  obtain ⟨hr, hbytes⟩ := Record.encode_eq_ok_iff.mp h.written
  have hsplit := List.take_append_drop (p.next - p.offset) (file.drop p.offset)
  rw [← hsplit, hbytes, Record.decode_bytes hr]

end Positioned

namespace Cursor

variable {c : Cursor} {d : Disk} {file bs : Bytes}

def calls : Nat → Cursor → Disk → List (Except Error (Option Positioned))
  | 0, _, _ => []
  | n + 1, c, d => (c.next d).1 :: calls n (c.next d).2 d

def StopsAtFailure (xs : List (Except Error (Option Positioned))) : Prop :=
  xs.Pairwise fun x y => (∃ e, x = .error e) → ∀ p, y ≠ .ok (some p)

theorem stopsAtFailure_ok {x : Option Positioned} {xs : List (Except Error (Option Positioned))} :
    StopsAtFailure (.ok x :: xs) ↔ StopsAtFailure xs := by
  rw [StopsAtFailure, List.pairwise_cons]
  refine and_iff_right fun y _ hfailed => ?_
  obtain ⟨e, he⟩ := hfailed
  cases he

theorem stopsAtFailure_error {e : Error} {xs : List (Except Error (Option Positioned))} :
    StopsAtFailure (.error e :: xs) ↔ ∀ p, .ok (some p) ∉ xs := by
  rw [StopsAtFailure, List.pairwise_cons]
  constructor
  · intro h p hp
    exact h.1 _ hp ⟨e, rfl⟩ p rfl
  · intro hnone
    have hlater : ∀ y ∈ xs, ∀ p, y ≠ .ok (some p) := by
      intro y hy p heq
      exact hnone p (heq ▸ hy)
    refine ⟨fun y hy _ => hlater y hy, ?_⟩
    exact List.pairwise_of_forall_mem_list fun _ _ y hy _ => hlater y hy

/-- Where the offset has been left in front of what is no record, none of the records that
follow can be told to lie where it does: the first of them is said to lie there. -/
theorem no_record_of_liesIn {e : Error} (h : c.Faces d file bs)
    (hstop : (Record.decode (file.drop c.offset)).1 = .error e) {n : Nat}
    (hlies : ∀ p, .ok (some p) ∈ calls n c d → p.LiesIn file) (p : Positioned) :
    .ok (some p) ∉ calls n c d := by
  induction n generalizing c bs with
  | zero => exact List.not_mem_nil
  | succ n ih =>
    rcases hd : Record.decode bs with ⟨_ | r, rest⟩
    · obtain ⟨c', hnext, hfaces, hoffset⟩ := next_error h hd
      rw [calls, hnext] at hlies ⊢
      have hnone := ih hfaces (hoffset ▸ hstop) fun q hq => hlies q (List.mem_cons_of_mem _ hq)
      rw [List.mem_cons, not_or]
      refine ⟨?_, hnone⟩
      split <;> exact nofun
    · obtain ⟨c', hnext, -⟩ := next_ok h hd
      have hfirst : Positioned.LiesIn ⟨c.offset, r⟩ file := by
        apply hlies
        rw [calls, hnext]
        exact List.mem_cons_self
      exact absurd hfirst.decode (by rw [hstop]; exact nofun)

/-- Of a cursor whose offset is where it reads. The induction is on the calls: a record moves both
on, the end of the file neither, and a failure parts them. -/
theorem liesIn_iff_of_faces (h : c.Faces d file (file.drop c.offset)) (n : Nat) :
    (∀ p, .ok (some p) ∈ calls n c d → p.LiesIn file) ↔ StopsAtFailure (calls n c d) := by
  induction n generalizing c with
  | zero => exact iff_of_true (fun _ hp => absurd hp List.not_mem_nil) List.Pairwise.nil
  | succ n ih =>
    rcases hd : Record.decode (file.drop c.offset) with ⟨e | r, rest⟩
    · obtain ⟨c', hnext, hfaces, hoffset⟩ := next_error h hd
      have hstop : (Record.decode (file.drop c'.offset)).1 = .error e := by rw [hoffset, hd]
      by_cases he : e = .endOfLog
      · have hempty : file.drop c'.offset = [] := by
          rcases Record.decode_error hstop with ⟨hnil, -⟩ | ⟨-, x, y, htorn⟩ | ⟨-, x, y, hbad⟩
          · exact hnil
          · cases he.symm.trans htorn
          · cases he.symm.trans hbad
        have hrest : rest = [] := by
          rw [← hoffset, hempty, Record.decode_nil] at hd
          exact (congrArg Prod.snd hd).symm
        have hlater := ih (hempty ▸ hrest ▸ hfaces)
        rw [calls, hnext, if_pos he, stopsAtFailure_ok, ← hlater]
        simp only [List.mem_cons, Except.ok.injEq, reduceCtorEq, false_or]
      · rw [calls, hnext, if_neg he, stopsAtFailure_error]
        simp only [List.mem_cons, reduceCtorEq, false_or]
        constructor
        · exact no_record_of_liesIn hfaces hstop
        · intro hnone p hp
          exact absurd hp (hnone p)
    · obtain ⟨c', hnext, hfaces, hoffset⟩ := next_ok h hd
      obtain ⟨hr, hbytes⟩ := Record.eq_bytes_of_decode hd
      have hrest : file.drop c'.offset = rest := by
        rw [hoffset, ← List.drop_drop, hbytes, List.drop_left' r.bytes_length]
      have hfirst : Positioned.LiesIn ⟨c.offset, r⟩ file := Positioned.liesIn_of_drop hr hbytes
      have hlater := ih (hrest.symm ▸ hfaces)
      rw [calls, hnext, stopsAtFailure_ok, ← hlater]
      simp only [List.mem_cons, Except.ok.injEq, Option.some.injEq, forall_eq_or_imp, hfirst,
        true_and]

/-- The records that a cursor gives lie where they are said to, exactly if none of them comes
after a failure. So they do up to the first damage; and if any record can be read behind it,
there is one that is not where it is said to be. -/
theorem liesIn_iff_stopsAtFailure {p : Path} (hopen : openLog p d = .ok c)
    (hfile : d.read c.node = .ok file) (n : Nat) :
    (∀ q, .ok (some q) ∈ calls n c d → q.LiesIn file) ↔ StopsAtFailure (calls n c d) := by
  obtain ⟨node, hlook, rfl⟩ : ∃ node, d.lookup p = .ok node ∧ c = start node := by
    rw [openLog] at hopen
    split at hopen
    · cases hopen
    · exact ⟨_, ‹_›, (Except.ok.inj hopen).symm⟩
  exact liesIn_iff_of_faces (faces_start hfile) n

def damagedFirst : Bytes :=
  (Record.bytes ⟨1, [97], [49]⟩).set 17 206 ++ Record.bytes ⟨2, [98], [50]⟩

def damagedDisk : Disk := (Disk.empty.create [] ['d', 'b']).2.setContent 0 damagedFirst

theorem decode_damagedFirst : ∃ x y, Record.decode damagedFirst =
    (.error (.corruptRecord x y), Record.bytes ⟨2, [98], [50]⟩) := by
  have hburst : Burst 17 1 (Record.bytes ⟨1, [97], [49]⟩)
      ((Record.bytes ⟨1, [97], [49]⟩).set 17 206) := .set (by decide) (by decide)
  obtain ⟨x, y, -, -, hdecode⟩ := Record.decode_burst (by decide) hburst (by decide) (by decide)
  exact ⟨x, y, hdecode _⟩

/-- Past the damage, the second record is given in the place of the first. -/
theorem calls_damagedDisk : ∃ x y, calls 3 (start (.file 0)) damagedDisk =
    [.error (.corruptRecord x y), .ok (some ⟨0, ⟨2, [98], [50]⟩⟩), .ok none] := by
  obtain ⟨x, y, hdamage⟩ := decode_damagedFirst
  have hsecond := Record.decode_bytes (r := ⟨2, [98], [50]⟩) (by decide) []
  rw [List.append_nil] at hsecond
  have hstart : (start (.file 0)).Faces damagedDisk damagedFirst damagedFirst := faces_start rfl
  obtain ⟨c₁, h₁, hfaces₁, ho₁⟩ := next_error hstart hdamage
  obtain ⟨c₂, h₂, hfaces₂, -⟩ := next_ok hfaces₁ hsecond
  obtain ⟨c₃, h₃, -⟩ := next_error hfaces₂ Record.decode_nil
  have hzero : c₁.offset = 0 := ho₁
  exact ⟨x, y, by rw [calls, h₁, calls, h₂, calls, h₃, hzero]; rfl⟩

theorem liesIn_iff_stopsAtFailure_damaged :
    openLog ['d', 'b'] damagedDisk = .ok (start (.file 0)) ∧
      damagedDisk.read (.file 0) = .ok damagedFirst ∧
      (∀ q, .ok (some q) ∈ calls 1 (start (.file 0)) damagedDisk → q.LiesIn damagedFirst) ∧
      ¬ ∀ q, .ok (some q) ∈ calls 3 (start (.file 0)) damagedDisk → q.LiesIn damagedFirst := by
  obtain ⟨x, y, hcalls⟩ := calls_damagedDisk
  have hopen : openLog ['d', 'b'] damagedDisk = .ok (start (.file 0)) := rfl
  have hall := liesIn_iff_stopsAtFailure hopen rfl
  refine ⟨hopen, rfl, (hall 1).mpr ?_, fun hlies => ?_⟩
  · exact List.pairwise_singleton ..
  · have hstops := (hall 3).mp hlies
    rw [hcalls, stopsAtFailure_error] at hstops
    exact hstops _ List.mem_cons_self

/-- So it is not true that whatever a cursor gives lies where it is said to. -/
theorem misplaced_after_damage : ¬ ∀ (p : Path) (d : Disk) (c : Cursor) (file : Bytes) (n : Nat),
    openLog p d = .ok c → d.read c.node = .ok file →
      ∀ q, .ok (some q) ∈ calls n c d → q.LiesIn file := by
  intro hclaim
  obtain ⟨x, y, hcalls⟩ := calls_damagedDisk
  obtain ⟨x', y', hdamage⟩ := decode_damagedFirst
  have hlies : Positioned.LiesIn ⟨0, ⟨2, [98], [50]⟩⟩ damagedFirst := by
    apply hclaim ['d', 'b'] damagedDisk (start (.file 0)) damagedFirst 3 rfl rfl
    rw [hcalls]
    exact List.mem_cons_of_mem _ List.mem_cons_self
  have hread := hlies.decode
  rw [List.drop_zero, hdamage] at hread
  cases hread

end Cursor

end LogStore
