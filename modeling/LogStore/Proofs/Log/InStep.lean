import LogStore.Proofs.Log.Appender
import LogStore.Proofs.Log.Places
import LogStore.Proofs.Disk.Sound

/-! An appender and its file stay in step. Whatever limits stop its writes, and wherever, the file
is what was kept of it at the opening, and behind that the records whose appends have succeeded;
and the appender goes on at its end. -/

namespace LogStore

open Disk

namespace Appender

variable {p : Path} {no : FileNo} {fileId : FileId} {bs : Bytes} {r : Record} {rs : List Record}
  {a b : Appender} {w v : World}

/-- Open a log file to append behind its valid part, or else behind all of it. -/
def openAt (p : Path) (fileId : FileId) : Option Nat → Action Appender
  | none => openEnd p fileId
  | some validLen => openAfter p fileId validLen

def keptOf (bs : Bytes) (validLen? : Option Nat) : Bytes := bs.take (validLen?.getD bs.length)

/-- An opening has come to an end: the appender is in step with what was kept, and what was cut off
is behind all else in the file for such tails. -/
structure Opened (p : Path) (validLen? : Option Nat) (w : World) (a : Appender) (v : World) :
    Prop where
  inStep : InStep a v.disk (keptOf (w.disk.found p) validLen?)
  lookup : v.disk.lookup p = .ok (.file a.file)
  file : ∀ {no : FileNo}, w.disk.lookup p = .ok (.file no) → a.file = no
  saved : ∀ n, validLen? = some n → n < (w.disk.found p).length →
    v.disk.bytesAt (tornPath p) =
      .ok (w.disk.found (tornPath p) ++ (w.disk.found p).drop n)

theorem openAt_error {cause : IoError} {d : Disk} (h : w.disk.openWrite p = (.error cause, d))
    (fileId : FileId) (n? : Option Nat) :
    openAt p fileId n? w = (.error (.io cause), { w with disk := d }) := by
  have hend : openEnd p fileId w = (.error (.io cause), { w with disk := d }) :=
    Action.bind_error (Action.onDisk_error h) _
  cases n? with
  | none => exact hend
  | some n => exact Action.bind_error hend _

theorem openAt_whole {d : Disk} {n? : Option Nat} (hd : w.disk.Sound)
    (h : w.disk.openWrite p = (.ok no, d))
    (hn : ∀ n, n? = some n → (w.disk.found p).length ≤ n) (fileId : FileId) :
    ∃ a v, openAt p fileId n? w = (.ok a, v) ∧ Opened p n? w a v := by
  have hfound := found_of_openWrite h
  have hkept : keptOf (w.disk.found p) n? = w.disk.found p := by
    cases n? with
    | none => exact List.take_length
    | some n => exact List.take_of_length_le (hn n rfl)
  have hsound : d.Sound := by simpa [h] using hd.openWrite p
  have hopen : openAt p fileId n? w =
      (.ok ⟨no, fileId, (w.disk.found p).length⟩, { w with disk := d }) := by
    rw [← hfound] at hn ⊢
    cases n? with
    | none => exact openEnd_eq h fileId
    | some n => exact openAfter_whole h (hn n rfl) fileId
  refine ⟨_, _, hopen, ⟨hsound, hfound.trans hkept.symm, by rw [hkept]⟩, lookup_openWrite h,
    file_of_openWrite h, ?_⟩
  intro n hsome hlt
  exact absurd (hn n hsome) (Nat.not_le.mpr hlt)

/-- What is behind the part to keep is saved and cut off, or it cannot be saved. -/
theorem openAt_cut {d : Disk} {n : Nat} (hd : w.disk.Sound)
    (h : w.disk.openWrite p = (.ok no, d)) (hlt : n < (w.disk.found p).length) (fileId : FileId) :
    (∃ a v, openAt p fileId (some n) w = (.ok a, v) ∧ Opened p (some n) w a v) ∨
      ∃ cause v, (w.disk.appendFile (tornPath p) ((w.disk.found p).drop n)).1 = .error cause ∧
        openAt p fileId (some n) w = (.error (.io cause), v) := by
  have hne : w.disk.found p ≠ [] := List.length_pos_iff.mp (Nat.zero_lt_of_lt hlt)
  have ht : (w.disk.found p).drop n ≠ [] := by
    rw [ne_eq, List.drop_eq_nil_iff]
    omega
  obtain ⟨parent, name, hs⟩ := site_of_openWrite hd h hne
  have hc : w.disk.content no = (w.disk.found p).take n ++ (w.disk.found p).drop n := by
    rw [found_of_openWrite hs.openWrite_eq, List.take_append_drop]
  have hlen : ((w.disk.found p).take n).length = n := by
    rw [List.length_take]
    omega
  obtain ⟨d', hside, -⟩ := hs.appendFile_beside isEnding_torn ht
  obtain ⟨d₁, happ, hout⟩ := openAfter_cut hs hc ht fileId
  rw [hlen] at hout
  rcases hout with ⟨hok, v, hopen, hdisk⟩ | ⟨cause, herr, hopen⟩
  · obtain ⟨-, hs', hsaved⟩ := site_cut happ hc
    rw [← hdisk] at hs' hsaved
    refine .inl ⟨_, v, hopen, ⟨hs'.sound, ?_, ?_⟩, hs'.lookup_eq, file_of_openWrite h,
      fun k hk _ => ?_⟩
    · rw [hdisk, content_setContent_self]
      rfl
    · exact hlen.symm
    · cases hk
      rw [hsaved]
      exact happ.whole hok
  · exact .inr ⟨cause, _, (congrArg Prod.fst hside).trans herr, hopen⟩

/-- A log file that can be written is opened, unless there is a tail to save and no saving it. -/
theorem openAt_cases {d : Disk} (hd : w.disk.Sound) (h : w.disk.openWrite p = (.ok no, d))
    (fileId : FileId) (n? : Option Nat) :
    (∃ a v, openAt p fileId n? w = (.ok a, v) ∧ Opened p n? w a v) ∨
      ∃ n cause v, n? = some n ∧ n < (w.disk.found p).length ∧
        (w.disk.appendFile (tornPath p) ((w.disk.found p).drop n)).1 = .error cause ∧
        openAt p fileId n? w = (.error (.io cause), v) := by
  by_cases hcut : ∃ n, n? = some n ∧ n < (w.disk.found p).length
  · obtain ⟨n, rfl, hlt⟩ := hcut
    rcases openAt_cut hd h hlt fileId with hdone | ⟨cause, v, hside, herr⟩
    · exact .inl hdone
    · exact .inr ⟨n, cause, v, rfl, hlt, hside, herr⟩
  · refine .inl (openAt_whole hd h (fun n hn => ?_) fileId)
    by_contra hlong
    exact hcut ⟨n, hn, Nat.not_le.mp hlong⟩

theorem opened_of_openAt {n? : Option Nat} (hd : w.disk.Sound)
    (h : openAt p fileId n? w = (.ok a, v)) : Opened p n? w a v := by
  rcases hwrite : w.disk.openWrite p with ⟨cause | no, d⟩
  · cases h.symm.trans (openAt_error hwrite fileId n?)
  · rcases openAt_cases hd hwrite fileId n? with ⟨a', v', hopen, hopened⟩ | ⟨_, _, _, -, -, -, herr⟩
    · cases h.symm.trans hopen
      exact hopened
    · cases h.symm.trans herr

/-- What appends come to, one after another, in whatever surroundings leave the file alone. The
records are those whose appends have succeeded. -/
inductive Runs (a : Appender) (w : World) : List Record → Appender → World → Prop
  | start : Runs a w [] a w
  /-- Anything may happen between two appends, but to the file: limits move, other files change. -/
  | meanwhile {rs : List Record} {b : Appender} {v v' : World} : Runs a w rs b v →
    v'.disk.Sound → v'.disk.content b.file = v.disk.content b.file → Runs a w rs b v'
  | appended {rs : List Record} {b b' : Appender} {v v' : World} {r : Record} {l : Landing} :
    Runs a w rs b v → b.append r v = (.ok l, b', v') → Runs a w (rs ++ [r]) b' v'
  | refused {rs : List Record} {b b' : Appender} {v v' : World} {r : Record} {e : Error} :
    Runs a w rs b v → b.append r v = (.error e, b', v') → Runs a w rs b' v'

/-- An append puts the whole record behind the file, or fails and leaves file and appender. -/
theorem InStep.append_cases (h : InStep a w.disk bs) (r : Record) :
    (∃ v, r.Fits ∧ bs.length + r.encodedLen ≤ ceiling w.disk.limit ∧
      a.append r w = (.ok ⟨bs.length, bs.length + r.valueOffset⟩,
        ⟨a.file, a.fileId, (bs ++ r.bytes).length⟩, v) ∧
      InStep ⟨a.file, a.fileId, (bs ++ r.bytes).length⟩ v.disk (bs ++ r.bytes)) ∨
    ∃ e v, a.append r w = (.error e, a, v) ∧ InStep a v.disk bs ∧
      ((r.Fits ∧ ceiling w.disk.limit < bs.length + r.encodedLen ∧ e = .io .fileTooLarge) ∨
        (¬ r.Fits ∧ ∃ field len, e = .recordTooLarge field len)) := by
  cases he : r.encode with
  | error e =>
    refine .inr ⟨e, w, append_misfit he a w, h, .inr ⟨fun hr => ?_, ?_⟩⟩
    · cases he.symm.trans (Record.encode_of_fits hr)
    · rcases Record.encode_eq_error_iff.mp he with ⟨-, rfl⟩ | ⟨-, -, rfl⟩ <;> exact ⟨_, _, rfl⟩
  | ok front =>
    have hr := (Record.encode_eq_ok_iff.mp he).1
    rcases Nat.lt_or_ge (ceiling w.disk.limit) (bs.length + r.encodedLen) with hfull | hroom
    · obtain ⟨d, ha, ho, hc⟩ := h.append_full hr hfull
      exact .inr ⟨_, _, ha, ⟨h.sound.of_only ho, hc, h.offset⟩, .inl ⟨hr, hfull, rfl⟩⟩
    · obtain ⟨d, ha, ho, hc⟩ := h.append_ok hr hroom
      exact .inl ⟨_, hr, hroom, ha, h.sound.of_only ho, hc, rfl⟩

theorem InStep.appended {l : Landing} {a' : Appender} {w' : World} (h : InStep a w.disk bs)
    (happend : a.append r w = (.ok l, a', w')) :
    r.Fits ∧ bs.length + r.encodedLen ≤ ceiling w.disk.limit ∧
      l = ⟨bs.length, bs.length + r.valueOffset⟩ ∧ a'.file = a.file ∧
      InStep a' w'.disk (bs ++ r.bytes) := by
  rcases h.append_cases r with ⟨v, hr, hroom, hok, hnext⟩ | ⟨e, v, herr, -⟩
  · cases happend.symm.trans hok
    exact ⟨hr, hroom, rfl, rfl, hnext⟩
  · cases happend.symm.trans herr

/-- An append that has failed has left all as it was. -/
theorem InStep.refused {e : Error} {a' : Appender} {w' : World} (h : InStep a w.disk bs)
    (happend : a.append r w = (.error e, a', w')) :
    a' = a ∧ InStep a w'.disk bs ∧
      ((r.Fits ∧ ceiling w.disk.limit < bs.length + r.encodedLen ∧ e = .io .fileTooLarge) ∨
        (¬ r.Fits ∧ ∃ field len, e = .recordTooLarge field len)) := by
  rcases h.append_cases r with ⟨v, -, -, hok, -⟩ | ⟨e', v, herr, hsame, hcause⟩
  · cases happend.symm.trans hok
  · cases happend.symm.trans herr
    exact ⟨rfl, hsame, hcause⟩

/-- Appender and file stay in step over any appends. -/
theorem InStep.runs (h : InStep a w.disk bs) (hruns : Runs a w rs b v) :
    b.file = a.file ∧ (∀ r ∈ rs, r.Fits) ∧ InStep b v.disk (bs ++ logBytes rs) := by
  induction hruns with
  | start => exact ⟨rfl, by simp, by rwa [logBytes_nil, List.append_nil]⟩
  | meanwhile _ hsound hsame ih =>
    obtain ⟨hfile, hfits, hstep⟩ := ih
    exact ⟨hfile, hfits, hsound, hsame.trans hstep.content, hstep.offset⟩
  | appended _ happend ih =>
    obtain ⟨hfile, hfits, hstep⟩ := ih
    obtain ⟨hr, -, -, hsame, hnext⟩ := hstep.appended happend
    rw [List.append_assoc, ← logBytes_singleton, ← logBytes_append] at hnext
    refine ⟨hsame.trans hfile, fun s hs => ?_, hnext⟩
    exact (List.mem_append.mp hs).elim (hfits s) fun hlast => List.mem_singleton.mp hlast ▸ hr
  | refused _ happend ih =>
    obtain ⟨hfile, hfits, hstep⟩ := ih
    obtain ⟨rfl, hnext, -⟩ := hstep.refused happend
    exact ⟨hfile, hfits, hnext⟩

/-- What an append comes to, whichever record it is of. It succeeds exactly if there is room for a
record that can be encoded, and the value is where it says; or nothing has changed. -/
structure Settles (a : Appender) (w : World) : Prop where
  landed : ∀ {r l a' w'}, a.append r w = (.ok l, a', w') →
    l.offset = (w.disk.content a.file).length ∧
      ((w'.disk.content a.file).drop l.valuePos).take r.value.length = r.value
  refused : ∀ {r e a' w'}, a.append r w = (.error e, a', w') →
    a' = a ∧ w'.disk.content a.file = w.disk.content a.file ∧
      ((∃ cause, e = .io cause) ∨ ∃ field len, e = .recordTooLarge field len)
  room : ∀ {r bs}, r.encode = .ok bs →
    ((∃ l a' w', a.append r w = (.ok l, a', w')) ↔
      (w.disk.content a.file).length + r.encodedLen ≤ ceiling w.disk.limit)

theorem InStep.settles (h : InStep a w.disk bs) : Settles a w := by
  constructor
  · intro r l a' w' happend
    obtain ⟨hr, -, rfl, hfile, hnext⟩ := h.appended happend
    have hdrop : (bs ++ r.bytes).drop bs.length = r.bytes ++ [] := by
      rw [List.drop_left, List.append_nil]
    rw [← hfile, hnext.content, hfile, h.content]
    exact ⟨rfl, (Positioned.liesIn_of_drop hr hdrop).value⟩
  · intro r e a' w' happend
    obtain ⟨rfl, hsame, hcause⟩ := h.refused happend
    refine ⟨rfl, hsame.content.trans h.content.symm, ?_⟩
    rcases hcause with ⟨-, -, rfl⟩ | ⟨-, hlarge⟩
    · exact .inl ⟨_, rfl⟩
    · exact .inr hlarge
  · intro r front hencode
    have hr := (Record.encode_eq_ok_iff.mp hencode).1
    rw [h.content]
    rcases happend : a.append r w with ⟨e | l, a', w'⟩
    · obtain ⟨-, -, hcause⟩ := h.refused happend
      refine iff_of_false (by rintro ⟨l, a', w', ⟨⟩⟩) ?_
      rcases hcause with ⟨-, hfull, -⟩ | ⟨hlarge, -⟩
      · exact Nat.not_le.mpr hfull
      · exact absurd hr hlarge
    · exact iff_of_true ⟨_, _, _, rfl⟩ (h.appended happend).2.1

/-- An appender keeps its file in step with itself. Opened, with a tail saved and cut off or without
one, and used for any appends, each of which a limit may stop wherever it likes: the file is what
was kept of it and the encodings of the records whose appends have succeeded, in their order, and
the offset is its length; and the next append will either land there or change nothing. -/
theorem appends_in_step (hd : w.disk.Sound) (hopen : (w.disk.openWrite p).1 = .ok no)
    (fileId : FileId) (n? : Option Nat)
    (hside : ∀ n, n? = some n → n < (w.disk.found p).length →
      (w.disk.appendFile (tornPath p) ((w.disk.found p).drop n)).1 = .ok ()) :
    ∃ a v, openAt p fileId n? w = (.ok a, v) ∧ v.disk.lookup p = .ok (.file a.file) ∧
      (∀ n, n? = some n → n < (w.disk.found p).length → v.disk.bytesAt (tornPath p) =
        .ok (w.disk.found (tornPath p) ++ (w.disk.found p).drop n)) ∧
      ∀ rs b v', Runs a v rs b v' → b.file = a.file ∧
        (∃ bss, Encodings rs bss ∧
          v'.disk.content b.file = keptOf (w.disk.found p) n? ++ bss.flatten) ∧
        b.offset = (v'.disk.content b.file).length ∧ Settles b v' := by
  have hwrite : w.disk.openWrite p = (.ok no, (w.disk.openWrite p).2) := Prod.ext hopen rfl
  rcases openAt_cases hd hwrite fileId n? with ⟨a, v, hok, hopened⟩ | ⟨n, _, _, hn, hlt, herr, -⟩
  · refine ⟨a, v, hok, hopened.lookup, hopened.saved, fun rs b v' hruns => ?_⟩
    obtain ⟨hfile, hfits, hstep⟩ := hopened.inStep.runs hruns
    have hbss := encodings_of_fits hfits
    refine ⟨hfile, ⟨_, hbss, ?_⟩, ?_, hstep.settles⟩
    · rw [hstep.content, hbss.logBytes_eq.2]
    · rw [hstep.content, hstep.offset]
  · cases (hside n hn hlt).symm.trans herr

def limited (size : Nat) (w : World) : World :=
  { w with disk := { w.disk with limit := some size } }

/-- Three bytes, the last of which is cut off, then an append that just has room under the limit,
and one for which a byte is missing. -/
theorem appends_in_step_cut : ∃ (w v v₁ v₂ : World) (a b : Appender) (l : Landing) (e : Error),
    w.disk.Sound ∧ openAt ['a'] 7 (some 2) w = (.ok a, v) ∧
      v.disk.bytesAt (tornPath ['a']) = .ok [3] ∧
      a.append ⟨1, [1], [5]⟩ (limited 20 v) = (.ok l, b, v₁) ∧ l.offset = 2 ∧
      b.append ⟨2, [2], [6]⟩ (limited 37 v₁) = (.error e, b, v₂) ∧
      v₂.disk.content b.file = [1, 2] ++ Record.bytes ⟨1, [1], [5]⟩ ∧ b.offset = 20 := by
  let w : World := ⟨(Disk.empty.create [] ['a']).2.setContent 0 [1, 2, 3], 0, []⟩
  have hd : w.disk.Sound := (Sound.empty.create [] ['a']).of_only (.setContent (by decide))
  have hside : ∀ n, some 2 = some n → n < (w.disk.found ['a']).length →
      (w.disk.appendFile (tornPath ['a']) ((w.disk.found ['a']).drop n)).1 = .ok () := by
    intro n hn _
    cases hn
    rfl
  obtain ⟨a, v, hopen, -, hsaved, hall⟩ := appends_in_step (p := ['a']) hd rfl 7 (some 2) hside
  have hstep := (opened_of_openAt hd hopen).inStep
  have hstart : Runs a v [] a (limited 20 v) :=
    .meanwhile .start (hstep.sound.withLimit (some 20)) rfl
  obtain ⟨-, -, hoffset, hsettles⟩ := hall _ _ _ hstart
  have hkept : (limited 20 v).disk.content a.file = [1, 2] := hstep.content
  have hroom := hsettles.room (Record.encode_of_fits (r := ⟨1, [1], [5]⟩) (by decide))
  rw [hkept] at hroom
  obtain ⟨l, b, v₁, happend⟩ := hroom.mpr (show 2 + 18 ≤ ceiling (some 20) by decide)
  have hthen : Runs a v [⟨1, [1], [5]⟩] b v₁ := hstart.appended happend
  obtain ⟨-, -, hstep₁⟩ := hstep.runs hthen
  have hbytes : v₁.disk.content b.file = [1, 2] ++ Record.bytes ⟨1, [1], [5]⟩ := by
    rw [hstep₁.content, logBytes_singleton]
    rfl
  have hthen' : Runs a v [⟨1, [1], [5]⟩] b (limited 37 v₁) :=
    hthen.meanwhile (hstep₁.sound.withLimit (some 37)) rfl
  obtain ⟨-, -, hoffset₁, hsettles₁⟩ := hall _ _ _ hthen'
  rw [show (limited 37 v₁).disk.content b.file = _ from hbytes] at hoffset₁
  have hroom₁ := hsettles₁.room (Record.encode_of_fits (r := ⟨2, [2], [6]⟩) (by decide))
  rw [show (limited 37 v₁).disk.content b.file = _ from hbytes] at hroom₁
  rcases hfull : b.append ⟨2, [2], [6]⟩ (limited 37 v₁) with ⟨e | l', c, v₂⟩
  · obtain ⟨rfl, hsame, -⟩ := hsettles₁.refused hfull
    have hlanded := (hsettles.landed happend).1
    rw [hkept] at hlanded
    exact ⟨w, v, v₁, v₂, a, c, l, e, hd, hopen, hsaved 2 rfl (by decide), happend, hlanded, hfull,
      hsame.trans hbytes, hoffset₁⟩
  · have hfits : 20 + 18 ≤ ceiling (some 37) := hroom₁.mp ⟨l', c, v₂, hfull⟩
    exact absurd hfits (by decide)

end Appender

end LogStore
