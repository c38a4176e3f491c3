import LogStore.Compaction
import LogStore.Proofs.Contents
import LogStore.Proofs.Disk.Frame

/-! A fresh log being written holds, in its file and behind it, the bytes of the records
added so far. What is held back makes no difference in the end: a log is finished exactly
if the whole of it fits under the limit. -/

namespace LogStore.Compactor

open Disk

/-- The file, and what is held back behind it, are these bytes. -/
structure Holding (c : Compactor) (d : Disk) (out : Bytes) : Prop where
  bytes : d.content c.file ++ c.pending = out
  position : c.position = (d.content c.file).length
  room : c.position ≤ ceiling d.limit

/-- Bytes have gone to the file of this compactor, and nowhere else. -/
structure Wrote (c c' : Compactor) (d d' : Disk) : Prop where
  same : c' = { c with position := c'.position, pending := c'.pending }
  only : Only c.file d d'

/-- All of `out` is taken in, or it does not fit under the limit. -/
structure Takes (c : Compactor) (d : Disk) (out : Bytes)
    (x : Except IoError Unit × Compactor × Disk) : Prop where
  wrote : Wrote c x.2.1 d x.2.2
  outcome : (x.1 = .ok () ∧ x.2.1.Holding x.2.2 out) ∨
    (x.1 = .error .fileTooLarge ∧ ceiling d.limit < out.length)

variable {c c' c'' : Compactor} {d d' d'' : Disk} {out : Bytes}

namespace Wrote

theorem file_eq (h : Wrote c c' d d') : c'.file = c.file := by
  rw [h.same]

theorem trans (h : Wrote c c' d d') (h' : Wrote c' c'' d' d'') : Wrote c c'' d d'' :=
  ⟨by rw [h'.same, h.same], h.only.trans (h.file_eq ▸ h'.only)⟩

end Wrote

theorem Takes.after {x : Except IoError Unit × Compactor × Disk} (h : Takes c' d' out x)
    (hw : Wrote c c' d d') : Takes c d out x :=
  ⟨hw.trans h.wrote, hw.only.limit ▸ h.outcome⟩

section Create

variable {w : World} {p : Path} {k : FileNo}

theorem create_ok (h : w.disk.openWrite p = (.ok k, d)) (fileId : FileId) (stamps : StampPolicy) :
    create p fileId stamps w =
      (.ok ⟨p, k, 0, [], fileId, stamps, w.now, 0, []⟩, { w with disk := d.setContent k [] }) := by
  unfold create
  rw [Action.bind_ok (Action.onDisk_ok h)]
  rfl

theorem create_error {e : IoError} (h : w.disk.openWrite p = (.error e, d)) (fileId : FileId)
    (stamps : StampPolicy) :
    create p fileId stamps w = (.error (.io e), { w with disk := d }) :=
  Action.bind_error (Action.onDisk_error h) _

end Create

theorem takes_emit (h : c.Holding d out) (hp : c.pending = []) (bs : Bytes) :
    Takes c d (out ++ bs) (c.emit bs d) := by
  obtain ⟨d', hw, ho, hc⟩ := write_end h.position bs
  have hout : d.content c.file = out := by
    have := h.bytes
    rwa [hp, List.append_nil] at this
  have hpos : c.position = out.length := by rw [h.position, hout]
  have he : c.emit bs d =
      (if d.writable c.position bs.length = bs.length then .ok () else .error .fileTooLarge,
        { c with position := c.position + d.writable c.position bs.length }, d') := by
    simp only [emit, hw]
  rw [he]
  refine ⟨⟨rfl, ho⟩, ?_⟩
  by_cases hall : d.writable c.position bs.length = bs.length
  · left
    rw [hall, List.take_length, hout] at hc
    refine ⟨if_pos hall, ?_, ?_, ?_⟩
    · simp only [hc, hp, List.append_nil]
    · simp only [hall, hc, List.length_append]
      rw [hpos]
    · rw [ho.limit]
      exact writable_room h.room _
  · right
    refine ⟨if_neg hall, ?_⟩
    rw [List.length_append]
    unfold writable at hall
    omega

theorem takes_flush (h : c.Holding d out) :
    Takes c d out (c.flush d) ∧ ((c.flush d).1 = .ok () → (c.flush d).2.1.pending = []) := by
  obtain ⟨d', hw, ho, hc⟩ := write_end h.position c.pending
  have hlen : out.length = c.position + c.pending.length := by
    rw [← h.bytes, List.length_append, h.position]
  have hf : c.flush d = (if d.writable c.position c.pending.length = c.pending.length then .ok ()
      else .error .fileTooLarge,
      { c with
        position := c.position + d.writable c.position c.pending.length
        pending := c.pending.drop (d.writable c.position c.pending.length) }, d') := by
    simp only [flush, emit, hw, Nat.add_sub_cancel_left]
  rw [hf]
  by_cases hall : d.writable c.position c.pending.length = c.pending.length
  · rw [hall, List.take_length, h.bytes] at hc
    refine ⟨⟨⟨rfl, ho⟩, .inl ⟨if_pos hall, ?_, ?_, ?_⟩⟩, fun _ => ?_⟩
    · simp only [hc, hall, List.drop_length, List.append_nil]
    · simp only [hc, hall, hlen]
    · rw [ho.limit]
      exact writable_room h.room _
    · simp only [hall, List.drop_length]
  · refine ⟨⟨⟨rfl, ho⟩, .inr ⟨if_neg hall, ?_⟩⟩, fun hok => ?_⟩
    · unfold writable at hall
      omega
    · simp only [if_neg hall] at hok
      cases hok

theorem takes_push (h : c.Holding d out) (bs : Bytes) :
    Takes c d (out ++ bs) (c.push bs d) := by
  -- with room made, the bytes are held back, or written at once behind an empty rest
  have place : ∀ {c₁ : Compactor} {d₁ : Disk}, c₁.Holding d₁ out →
      (capacity ≤ bs.length → c₁.pending = []) →
      Takes c₁ d₁ (out ++ bs) (if capacity ≤ bs.length then c₁.emit bs d₁
        else (.ok (), { c₁ with pending := c₁.pending ++ bs }, d₁)) := by
    intro c₁ d₁ h₁ hnil
    by_cases hbig : capacity ≤ bs.length
    · rw [if_pos hbig]
      exact takes_emit h₁ (hnil hbig) bs
    · rw [if_neg hbig]
      refine ⟨⟨rfl, .refl ..⟩, .inl ⟨rfl, ?_, h₁.position, h₁.room⟩⟩
      rw [← List.append_assoc, h₁.bytes]
  unfold push
  by_cases hmake : capacity < c.pending.length + bs.length
  · obtain ⟨⟨hw, hout⟩, hnil⟩ := takes_flush h
    rw [if_pos hmake]
    rcases hf : c.flush d with ⟨result, c₁, d₁⟩
    simp only [hf] at hw hout hnil
    rcases hout with ⟨rfl, h₁⟩ | ⟨rfl, hfull⟩
    · exact (place h₁ fun _ => hnil rfl).after hw
    · refine ⟨hw, .inr ⟨rfl, ?_⟩⟩
      rw [List.length_append]
      omega
  · rw [if_neg hmake]
    refine place h fun hbig => List.length_eq_zero_iff.mp ?_
    omega

theorem only_abandon (c : Compactor) (d : Disk) : Only c.file d (c.abandon d) :=
  only_write ..

def copy (c : Compactor) (key : Bytes) (old : Entry) (value : Bytes) : Record :=
  ⟨c.stamp old, key, value⟩

/-- A value is copied behind what is there and its move is noted, or it does not fit. -/
theorem Holding.add (h : c.Holding d out) {key value : Bytes} {old : Entry} (hv : value ≠ [])
    (hr : (c.copy key old value).Fits) :
    ∃ c' d', Only c.file d d' ∧
      ((c.add key old value d = (.ok (), c', d') ∧
          c'.Holding d' (out ++ (c.copy key old value).bytes) ∧
          c' = { c with
            position := c'.position
            pending := c'.pending
            offset := c.offset + (c.copy key old value).bytes.length
            moves := c.moves ++
              [⟨key, old, (⟨c.offset, c.copy key old value⟩ : Positioned).entry c.fileId⟩] }) ∨
        (c.add key old value d = (.error (.io .fileTooLarge), c', d') ∧ c'.file = c.file ∧
          ceiling d.limit < (out ++ (c.copy key old value).bytes).length)) := by
  have hencode : Record.encode ⟨c.stamp old, key, value⟩ = .ok (c.copy key old value).bytes :=
    Record.encode_of_fits hr
  obtain ⟨hw, hpush⟩ := takes_push h (c.copy key old value).bytes
  rcases hp : c.push (c.copy key old value).bytes d with ⟨result, c₁, d₁⟩
  simp only [hp] at hw hpush
  rcases hpush with ⟨rfl, h₁⟩ | ⟨rfl, hfull⟩
  · have hoff : c₁.offset = c.offset := by rw [hw.same]
    have hmoves : c₁.moves = c.moves := by rw [hw.same]
    have hid : c₁.fileId = c.fileId := by rw [hw.same]
    refine ⟨_, d₁, hw.only, .inl ⟨by
      simp only [Compactor.add, List.isEmpty_iff, if_neg hv, hencode, hp]
      rfl, ?_, ?_⟩⟩
    · exact ⟨h₁.bytes, h₁.position, h₁.room⟩
    · simp only [hoff, hmoves, hid]
      rw [hw.same]
      rfl
  · refine ⟨c₁, d₁, hw.only, .inr ⟨?_, hw.file_eq, hfull⟩⟩
    simp only [Compactor.add, List.isEmpty_iff, if_neg hv, hencode, hp]

theorem Holding.finish (h : c.Holding d out) :
    ∃ d', Only c.file d d' ∧
      ((c.finish d = (.ok ⟨c.path, c.moves, c.offset⟩, d') ∧ d'.content c.file = out ∧
          out.length ≤ ceiling d.limit) ∨
        (c.finish d = (.error (.io .fileTooLarge), d') ∧ ceiling d.limit < out.length)) := by
  obtain ⟨⟨hw, hout⟩, hnil⟩ := takes_flush h
  rcases hf : c.flush d with ⟨result, c', d'⟩
  simp only [hf] at hw hout hnil
  rcases hout with ⟨rfl, h'⟩ | ⟨rfl, hfull⟩
  · have hc : d'.content c.file = out := by
      have := h'.bytes
      rwa [hnil rfl, List.append_nil, hw.file_eq] at this
    have hlen : out.length ≤ ceiling d.limit := by
      rw [← hc, ← hw.file_eq, ← h'.position, ← hw.only.limit]
      exact h'.room
    refine ⟨d', hw.only, .inl ⟨?_, hc, hlen⟩⟩
    simp only [Compactor.finish, hf]
    rw [hw.same]
  · have hlast : Only c.file d' (c'.abandon d') := hw.file_eq ▸ only_abandon c' d'
    exact ⟨_, hw.only.trans hlast, .inr ⟨by simp only [Compactor.finish, hf], hfull⟩⟩

/-! Copying entries whose values lie in `bs`. -/

def copies (c : Compactor) (bs : Bytes) (es : List (Bytes × Entry)) : List Record :=
  es.map fun x => c.copy x.1 x.2 (x.2.window bs)

/-- The moves of entries whose copies lie one after another from `o` on. -/
def movesFrom (c : Compactor) (bs : Bytes) : Nat → List (Bytes × Entry) → List Move
  | _, [] => []
  | o, x :: es =>
    let r := c.copy x.1 x.2 (x.2.window bs)
    ⟨x.1, x.2, (⟨o, r⟩ : Positioned).entry c.fileId⟩ :: movesFrom c bs (o + r.encodedLen) es

theorem movesFrom_append (c : Compactor) (bs : Bytes) (o : Nat) (es fs : List (Bytes × Entry)) :
    c.movesFrom bs o (es ++ fs) = c.movesFrom bs o es ++
      c.movesFrom bs (o + (logBytes (c.copies bs es)).length) fs := by
  induction es generalizing o with
  | nil => rfl
  | cons x es ih =>
    simp only [List.cons_append, movesFrom, ih, copies, List.map_cons, logBytes_cons,
      List.length_append, Record.bytes_length, Nat.add_assoc]

/-- What has become of a compactor that had nothing yet, with these entries copied. -/
structure Copied (c₀ : Compactor) (bs : Bytes) (es : List (Bytes × Entry)) (c : Compactor)
    (d : Disk) : Prop where
  holding : c.Holding d (logBytes (c₀.copies bs es))
  same : c = { c₀ with
    position := c.position
    pending := c.pending
    offset := (logBytes (c₀.copies bs es)).length
    moves := c₀.movesFrom bs 0 es }

namespace Copied

variable {c₀ : Compactor} {bs : Bytes} {es : List (Bytes × Entry)}

theorem file_eq (h : Copied c₀ bs es c d) : c.file = c₀.file := by
  rw [h.same]

theorem stamp_eq (h : Copied c₀ bs es c d) (old : Entry) : c.stamp old = c₀.stamp old := by
  rw [h.same]
  rfl

/-- One more value is copied to the end, and its move is noted, or it does not fit. -/
theorem add_spec (h : Copied c₀ bs es c d) {key : Bytes} {old : Entry} (hin : old.Inside bs)
    (hr : (c₀.copy key old (old.window bs)).Fits) :
    ∃ c' d', Only c₀.file d d' ∧
      ((c.add key old (old.window bs) d = (.ok (), c', d') ∧
          Copied c₀ bs (es ++ [(key, old)]) c' d') ∨
        (c.add key old (old.window bs) d = (.error (.io .fileTooLarge), c', d') ∧
          c'.file = c₀.file ∧
          ceiling d.limit < (logBytes (c₀.copies bs (es ++ [(key, old)]))).length)) := by
  have hcopy : c.copy key old (old.window bs) = c₀.copy key old (old.window bs) := by
    rw [copy, copy, h.stamp_eq]
  have hout : logBytes (c₀.copies bs (es ++ [(key, old)])) =
      logBytes (c₀.copies bs es) ++ (c₀.copy key old (old.window bs)).bytes := by
    rw [copies, List.map_append, logBytes_append]
    simp [copies]
  obtain ⟨c', d', ho, hadd⟩ := h.holding.add (Entry.window_ne_nil hin) (hcopy ▸ hr)
  rw [h.file_eq, hcopy, ← hout] at hadd
  refine ⟨c', d', h.file_eq ▸ ho, hadd.imp_left fun ⟨ha, h', hsame⟩ => ⟨ha, h', ?_⟩⟩
  rw [movesFrom_append, hout, List.length_append, hsame, h.same]
  simp only [movesFrom, Nat.zero_add]

/-- A fresh log is finished exactly if it fits under the limit. -/
theorem finish_spec (h : Copied c₀ bs es c d) :
    ∃ d', Only c₀.file d d' ∧
      ((c.finish d =
            (.ok ⟨c₀.path, c₀.movesFrom bs 0 es, (logBytes (c₀.copies bs es)).length⟩, d') ∧
          d'.content c₀.file = logBytes (c₀.copies bs es) ∧
          (logBytes (c₀.copies bs es)).length ≤ ceiling d.limit) ∨
        (c.finish d = (.error (.io .fileTooLarge), d') ∧
          ceiling d.limit < (logBytes (c₀.copies bs es)).length)) := by
  have hpath : c.path = c₀.path := by rw [h.same]
  have hmoves : c.moves = c₀.movesFrom bs 0 es := by rw [h.same]
  have hoffset : c.offset = (logBytes (c₀.copies bs es)).length := by rw [h.same]
  have hfinish := h.holding.finish
  rwa [h.file_eq, hpath, hmoves, hoffset] at hfinish

end Copied

end LogStore.Compactor
