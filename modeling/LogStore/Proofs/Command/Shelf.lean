import LogStore.Command.Run
import LogStore.Proofs.Log.Canonical
import LogStore.Proofs.Log.Live
import LogStore.Proofs.Store.Merge
import LogStore.Proofs.Store.Open
import LogStore.Proofs.Text.Utf8

/-! The command line as a map of texts. Each call opens the log, carries out one command and ends;
over any number of calls, what they print is what a map of texts in memory would print. -/

namespace LogStore

open Disk Text

def Event.isWarning : Event → Bool
  | .removingStale _ | .endsInPartial .. | .cuttingTail .. | .rollbackFailed .. |
    .removeFailed .. => true
  | .creating _ | .recovered .. | .set .. | .delete _ | .merged .. | .closed _ => false

def World.Calm (w w' : World) : Prop := ∀ e ∈ w'.events, e ∈ w.events ∨ e.isWarning = false

namespace World.Calm

variable {u v w : World}

theorem refl (w : World) : Calm w w := fun _ he => .inl he

theorem trans (h : Calm u v) (h' : Calm v w) : Calm u w := by
  intro e he
  rcases h' e he with he | he
  · exact h e he
  · exact .inr he

theorem report (h : Calm v w) {event : Event} (hevent : event.isWarning = false) :
    Calm v (w.report event) := by
  intro e he
  rcases List.mem_append.mp he with he | he
  · exact h e he
  · exact .inr (List.mem_singleton.mp he ▸ hevent)

end World.Calm

abbrev Texts := Std.ExtTreeMap String { text : String // text ≠ "" }

def Texts.bytesOf? (texts : Texts) (key : String) : Option Bytes :=
  texts[key]?.map fun text => toBytes text.val

/-- A map of texts, and the length of the log that keeps it. -/
structure Shelf where
  texts : Texts
  length : Nat

def Outcome.printed (text : String) : Outcome := ⟨0, text, ""⟩

def Outcome.refused (message : String) : Outcome := ⟨1, "", "Error: " ++ message ++ "\n"⟩

namespace Shelf

def empty : Shelf := ⟨∅, 0⟩

def liveLength (m : Shelf) : Nat :=
  (m.texts.toList.map fun x => 16 + x.1.utf8ByteSize + x.2.val.utf8ByteSize).sum

/-- A change that takes a record of this length, if there can be a file so long. -/
def write (recordLen : Nat) (text : String) (texts : Texts) (m : Shelf) : Outcome × Shelf :=
  if m.length + recordLen < 2 ^ 63 then (.printed text, ⟨texts, m.length + recordLen⟩)
  else (.refused "IO error: File too large (os error 27)", m)

def tooLong (field : String) (length : Nat) : Outcome :=
  .refused (field ++ " of " ++ toString length ++ " bytes does not fit in a log record")

/-- What a command prints, and the map after it. Merging needs a name for its file, which is
`nameless` if that name is too long. -/
def run (nameless : Bool) (m : Shelf) : Command → Outcome × Shelf
  | .get key =>
    match m.texts[key]? with
    | some text => (.printed (text.val ++ "\n"), m)
    | none => (.refused "Key not found", m)
  | .set key value =>
    if h : value = "" then (.refused "value must not be empty", m)
    else if 2 ^ 32 ≤ key.utf8ByteSize then (tooLong "key" key.utf8ByteSize, m)
    else if 2 ^ 32 ≤ value.utf8ByteSize then (tooLong "value" value.utf8ByteSize, m)
    else m.write (16 + key.utf8ByteSize + value.utf8ByteSize) "" (m.texts.insert key ⟨value, h⟩)
  | .del key =>
    if m.texts.contains key then
      m.write (16 + key.utf8ByteSize) "Key deleted successfully\n" (m.texts.erase key)
    else (.refused "Key not found", m)
  | .merge =>
    if nameless then (.refused "IO error: File name too long (os error 36)", m)
    else (.printed "Database merged successfully\n", { m with length := m.liveLength })

def runAll (nameless : Bool) : Shelf → List Command → List Outcome
  | _, [] => []
  | m, c :: cs => (m.run nameless c).1 :: runAll nameless (m.run nameless c).2 cs

structure Tells (m : Shelf) (rs : List Record) : Prop where
  texts : ∀ key, (Contents.ofLog rs).bytesOf? (toBytes key) = m.texts.bytesOf? key
  only : ∀ key, (Contents.ofLog rs).bytesOf? key ≠ none → ∃ text, toBytes text = key
  length : m.length = (logBytes rs).length

namespace Tells

variable {m : Shelf} {rs : List Record} {key : String}

theorem empty : Tells empty [] := by
  refine ⟨fun key => ?_, fun key h => ?_, rfl⟩
  · simp [Contents.ofLog, Shelf.empty, Texts.bytesOf?]
  · simp [Contents.ofLog] at h

theorem snoc (h : Tells m rs) (r : Record) (hkey : r.key = toBytes key)
    {texts : Texts} (hother : ∀ k, key ≠ k → texts[k]? = m.texts[k]?)
    (hself : texts.bytesOf? key = if r.value = [] then none else some r.value) :
    Tells ⟨texts, m.length + r.encodedLen⟩ (rs ++ [r]) := by
  have hbytes : ∀ k, (Contents.ofLog (rs ++ [r])).bytesOf? k = if toBytes key = k then
      (if r.value = [] then none else some r.value) else (Contents.ofLog rs).bytesOf? k := by
    intro k
    rw [Contents.ofLog_append, List.foldl_cons, List.foldl_nil, Contents.bytesOf?_apply, hkey]
  constructor
  · intro k
    rw [hbytes]
    by_cases hk : key = k
    · subst hk
      rw [if_pos rfl]
      exact hself.symm
    · rw [if_neg fun heq => hk (toBytes_injective heq), h.texts]
      exact congrArg _ (hother k hk).symm
  · intro k hk
    rw [hbytes] at hk
    split at hk
    · exact ⟨key, ‹_›⟩
    · exact h.only k hk
  · rw [logBytes_append, List.length_append, logBytes_singleton, Record.bytes_length, ← h.length]

theorem set (h : Tells m rs) (key : String) {value : String} (hv : value ≠ "") (stamp : UInt32) :
    Tells ⟨m.texts.insert key ⟨value, hv⟩,
        m.length + (16 + (toBytes key).length + (toBytes value).length)⟩
      (rs ++ [⟨stamp, toBytes key, toBytes value⟩]) := by
  have hvalue : toBytes value ≠ [] := fun hnil => hv (toBytes_eq_nil_iff.mp hnil)
  have hother : ∀ k, key ≠ k → (m.texts.insert key ⟨value, hv⟩)[k]? = m.texts[k]? := by
    intro k hk
    simp [Std.ExtTreeMap.getElem?_insert, hk]
  have hself : Texts.bytesOf? (m.texts.insert key ⟨value, hv⟩) key =
      if toBytes value = [] then none else some (toBytes value) := by
    simp [Texts.bytesOf?, hvalue]
  exact h.snoc ⟨stamp, toBytes key, toBytes value⟩ rfl hother hself

theorem del (h : Tells m rs) (key : String) (stamp : UInt32) :
    Tells ⟨m.texts.erase key, m.length + (16 + (toBytes key).length)⟩
      (rs ++ [Record.tombstone (toBytes key) stamp]) := by
  have hother : ∀ k, key ≠ k → (m.texts.erase key)[k]? = m.texts[k]? := by
    intro k hk
    simp [Std.ExtTreeMap.getElem?_erase, hk]
  have hself : Texts.bytesOf? (m.texts.erase key) key = none := by simp [Texts.bytesOf?]
  exact h.snoc (.tombstone (toBytes key) stamp) rfl hother hself

theorem contains_eq (h : Tells m rs) (key : String) :
    (Contents.ofLog rs).contains (toBytes key) = m.texts.contains key := by
  have hsome := congrArg Option.isSome (h.texts key)
  rw [Std.ExtTreeMap.contains_eq_isSome_getElem?, Std.ExtTreeMap.contains_eq_isSome_getElem?]
  simpa [Contents.bytesOf?, Texts.bytesOf?] using hsome

theorem liveBytes_eq (h : Tells m rs) : (Contents.ofLog rs).liveBytes = m.liveLength := by
  have hkeys : ((m.texts.toList.map fun x => (toBytes x.1, toBytes x.2.val)).map
      Prod.fst).Nodup := by
    have hnodup : (m.texts.toList.map Prod.fst).Nodup := by
      rw [Std.ExtTreeMap.map_fst_toList_eq_keys]
      exact m.texts.nodup_keys
    rw [List.map_map]
    have := hnodup.map (f := toBytes) fun a b hab => toBytes_injective hab
    rwa [List.map_map] at this
  have hpairs : ∀ key value, (key, value) ∈
      m.texts.toList.map (fun x => (toBytes x.1, toBytes x.2.val)) ↔
        (Contents.ofLog rs).bytesOf? key = some value := by
    intro key value
    simp only [List.mem_map, Prod.exists, Prod.mk.injEq,
      Std.ExtTreeMap.mem_toList_iff_getElem?_eq_some]
    constructor
    · rintro ⟨k, text, htext, rfl, rfl⟩
      rw [h.texts, Texts.bytesOf?, htext, Option.map_some]
    · intro hlive
      obtain ⟨k, rfl⟩ := h.only key (by rw [hlive]; exact Option.some_ne_none _)
      rw [h.texts, Texts.bytesOf?, Option.map_eq_some_iff] at hlive
      obtain ⟨text, htext, rfl⟩ := hlive
      exact ⟨k, text, htext, rfl, rfl⟩
  rw [Contents.liveBytes_eq hkeys hpairs, List.map_map, liveLength]
  simp only [Function.comp_def, length_toBytes, Header.size]

theorem merged (h : Tells m rs) (c : Config) (now : UInt32) :
    Tells { m with length := m.liveLength } (Store.merged c now rs) := by
  constructor
  · rw [Store.ofLog_merged]
    exact h.texts
  · rw [Store.ofLog_merged]
    exact h.only
  · rw [Store.length_merged, h.liveBytes_eq]

end Tells

end Shelf

def Outcome.ofResult : Except Error String → Outcome
  | .ok text => .printed text
  | .error e => .failure e

namespace Command

open Store

/-- The store has done to its log what was done to the map, and prints what is printed there. A
failure leaves the log as it was, and nothing calls for a warning. -/
structure Matches (p : Path) (rs : List Record) (w : World)
    (x : Except Error String × Store × World) (y : Outcome × Shelf) : Prop where
  outcome : Outcome.ofResult x.1 = y.1
  log : ∃ no rs', x.2.1 = onLog { path := p } no rs' ∧ x.2.2.disk.LogAt p no rs' ∧ y.2.Tells rs' ∧
    ∀ e, x.1 = .error e → rs' = rs
  calm : (p.beside ".merge").tooLong = false → w.Calm x.2.2

variable {p : Path} {no : FileNo} {rs : List Record} {w : World} {m : Shelf}

theorem Matches.refused {e : Error} {y : Outcome} {d : Disk} (h : d.LogAt p no rs)
    (ht : m.Tells rs) (hy : .failure e = y) :
    Matches p rs w (.error e, onLog { path := p } no rs, { w with disk := d }) (y, m) :=
  ⟨hy, ⟨no, rs, rfl, h, ht, fun _ _ => rfl⟩, fun _ => .refl w⟩

theorem Matches.done {text : String} {no' : FileNo} {rs' : List Record} {d : Disk} {m' : Shelf}
    {event : Event} (h : d.LogAt p no' rs') (ht : m'.Tells rs') (hevent : event.isWarning = false) :
    Matches p rs w (.ok text, onLog { path := p } no' rs', { w with disk := d }.report event)
      (.printed text, m') := by
  refine ⟨rfl, ⟨no', rs', rfl, h, ht, fun _ he => ?_⟩, fun _ => ?_⟩
  · cases he
  · exact (World.Calm.refl w).report hevent

theorem room_iff (ht : m.Tells rs) (hlimit : w.disk.limit = none) (n : Nat) :
    m.length + n < 2 ^ 63 ↔ (logBytes rs).length + n ≤ ceiling w.disk.limit := by
  have hceiling : ceiling w.disk.limit = largest := by rw [hlimit]; rfl
  rw [hceiling, ht.length, largest]
  omega

section

variable (h : w.disk.LogAt p no rs) (ht : m.Tells rs)

include h ht

theorem get_matches (nameless : Bool) (key : String) :
    Matches p rs w ((Command.get key).perform (onLog { path := p } no rs) w)
      (m.run nameless (.get key)) := by
  have hget := get_onLog (c := { path := p }) h (toBytes key)
  rw [ht.texts, Texts.bytesOf?] at hget
  simp only [perform, Shelf.run, hget]
  cases m.texts[key]? with
  | none => exact .refused h ht rfl
  | some text =>
    refine ⟨?_, ⟨no, rs, rfl, h, ht, fun _ _ => rfl⟩, fun _ => .refl w⟩
    change Outcome.printed (ofBytes (toBytes text.val) ++ "\n") = _
    rw [ofBytes_toBytes]

theorem set_matches (hlimit : w.disk.limit = none) (nameless : Bool) (key value : String) :
    Matches p rs w ((Command.set key value).perform (onLog { path := p } no rs) w)
      (m.run nameless (.set key value)) := by
  simp only [perform, Shelf.run]
  by_cases hv : value = ""
  · subst hv
    have hfail := set_empty (onLog { path := p } no rs) (toBytes key) w
    rw [dif_pos rfl, toBytes_eq_nil_iff.mpr rfl, hfail]
    exact .refused h ht rfl
  have hvalue : toBytes value ≠ [] := fun hnil => hv (toBytes_eq_nil_iff.mp hnil)
  rw [dif_neg hv, ← length_toBytes key, ← length_toBytes value]
  by_cases hk : 2 ^ 32 ≤ (toBytes key).length
  · have he : Record.encode ⟨w.now, toBytes key, toBytes value⟩ =
        .error (.recordTooLarge .key (toBytes key).length) :=
      Record.encode_eq_error_iff.mpr (.inl ⟨hk, rfl⟩)
    rw [if_pos hk, set_misfit hvalue he]
    exact .refused h ht rfl
  rw [if_neg hk]
  by_cases hl : 2 ^ 32 ≤ (toBytes value).length
  · have he : Record.encode ⟨w.now, toBytes key, toBytes value⟩ =
        .error (.recordTooLarge .value (toBytes value).length) :=
      Record.encode_eq_error_iff.mpr (.inr ⟨Nat.not_le.mp hk, hl, rfl⟩)
    rw [if_pos hl, set_misfit hvalue he]
    exact .refused h ht rfl
  rw [if_neg hl]
  have hr : Record.Fits ⟨w.now, toBytes key, toBytes value⟩ :=
    ⟨Nat.not_le.mp hk, Nat.not_le.mp hl⟩
  have hroom := room_iff ht hlimit (16 + (toBytes key).length + (toBytes value).length)
  unfold Shelf.write
  by_cases hfit : m.length + (16 + (toBytes key).length + (toBytes value).length) < 2 ^ 63
  · obtain ⟨d, hok, hlog⟩ := set_ok (c := { path := p }) h hvalue hr (hroom.mp hfit)
    rw [if_pos hfit, hok]
    exact .done hlog (ht.set key hv w.now) rfl
  · have hfull := Nat.not_le.mp (mt hroom.mpr hfit)
    obtain ⟨d, hfail, hlog⟩ := set_full (c := { path := p }) h hvalue hr hfull
    rw [if_neg hfit, hfail]
    exact .refused hlog ht rfl

theorem del_matches (hlimit : w.disk.limit = none) (nameless : Bool) (key : String) :
    Matches p rs w ((Command.del key).perform (onLog { path := p } no rs) w)
      (m.run nameless (.del key)) := by
  have hcontains := ht.contains_eq key
  simp only [perform, Shelf.run]
  cases hk : (Contents.ofLog rs).contains (toBytes key) with
  | false =>
    have hgone : ¬ m.texts.contains key = true := by rw [← hcontains, hk]; exact Bool.false_ne_true
    rw [if_neg hgone, delete_absent hk]
    exact .refused h ht rfl
  | true =>
    have hroom := room_iff ht hlimit (16 + (toBytes key).length)
    rw [if_pos (hcontains.symm.trans hk), ← length_toBytes key]
    unfold Shelf.write
    by_cases hfit : m.length + (16 + (toBytes key).length) < 2 ^ 63
    · obtain ⟨d, hok, hlog⟩ := delete_ok (c := { path := p }) h hk (hroom.mp hfit)
      rw [if_pos hfit, hok]
      exact .done hlog (ht.del key w.now) rfl
    · have hfull := Nat.not_le.mp (mt hroom.mpr hfit)
      obtain ⟨d, hfail, hlog⟩ := delete_full (c := { path := p }) h hk hfull
      rw [if_neg hfit, hfail]
      exact .refused hlog ht rfl

theorem merge_matches (hlimit : w.disk.limit = none) :
    Matches p rs w (Command.merge.perform (onLog { path := p } no rs) w)
      (m.run (p.beside ".merge").tooLong .merge) := by
  simp only [perform, Shelf.run]
  cases hl : (p.beside ".merge").tooLong with
  | true =>
    obtain ⟨w', hfail, hdisk⟩ := merge_tooLong (c := { path := p }) h hl
    rw [if_pos rfl, hfail]
    refine ⟨rfl, ⟨no, rs, rfl, hdisk ▸ h, ht, fun _ _ => rfl⟩, fun hname => ?_⟩
    cases hl.symm.trans hname
  | false =>
    have hfalse : ¬ (false = true) := Bool.false_ne_true
    rw [if_neg hfalse]
    -- what is live is no longer than the log, and that fits
    have hlive := length_logBytes_eq rs
    have hroom := h.holds.length_le
    have hceiling : ceiling w.disk.limit = largest := by rw [hlimit]; rfl
    rcases merge_onLog (c := { path := p }) h hl with ⟨-, i, d, hok, hlog⟩ | ⟨hlt, -⟩
    · rw [hok]
      exact .done hlog (ht.merged _ _) rfl
    · omega

theorem perform_matches (hlimit : w.disk.limit = none) (c : Command) :
    Matches p rs w (c.perform (onLog { path := p } no rs) w)
      (m.run (p.beside ".merge").tooLong c) := by
  cases c with
  | get key => exact get_matches h ht _ key
  | set key value => exact set_matches h ht hlimit _ key value
  | del key => exact del_matches h ht hlimit _ key
  | merge => exact merge_matches h ht hlimit

end

end Command

end LogStore
