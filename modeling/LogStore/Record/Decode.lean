import LogStore.Record.Basic
import LogStore.Record.Source

/-! Reading one record. A record cut off by the end of the input is torn; only if
turning over one bit of its lengths would make it whole is it damaged instead. -/

namespace LogStore

namespace Header

/-- The headers that differ from this one in a single bit of a length. -/
def lengthFlips (h : Header) : List Header :=
  (List.range 32).map (fun i => { h with keyLen := h.keyLen ^^^ (1 <<< UInt32.ofNat i) }) ++
    (List.range 32).map fun i => { h with valueLen := h.valueLen ^^^ (1 <<< UInt32.ofNat i) }

/-- The header is that of a whole record at the front of `body`. -/
def fits (h : Header) (body : Bytes) : Bool :=
  h.bodyLen ≤ body.length && h.checksum (body.take h.bodyLen) == h.crc

def toRecord (h : Header) (body : Bytes) : Except Error Record :=
  if body.length < h.bodyLen then
    if h.lengthFlips.any (·.fits body) then .error (.corruptRecord h.crc (h.checksum body))
    else .error (.truncatedRecord (size + h.bodyLen) (size + body.length))
  else if h.checksum body = h.crc then
    .ok ⟨h.timestamp, body.take h.keyLen.toNat, body.drop h.keyLen.toNat⟩
  else .error (.corruptRecord h.crc (h.checksum body))

end Header

namespace Record

/-- One record off the front of a source. What a failing call has read is gone. -/
def decode {σ : Type} [Source σ] (s : σ) : Except Error Record × σ :=
  match Source.fill Header.size s with
  | (.error e, s) => (.error (.io e), s)
  | (.ok front, s) =>
    match Header.ofBytes? front with
    | none =>
      if front.isEmpty then (.error .endOfLog, s)
      else (.error (.truncatedRecord Header.size front.length), s)
    | some h =>
      match Source.fill h.bodyLen s with
      | (.error e, s) => (.error (.io e), s)
      | (.ok body, s) => (h.toRecord body, s)

end Record

namespace Header

theorem length_of_ofBytes? {bs : Bytes} {h : Header} (e : ofBytes? bs = some h) :
    size ≤ bs.length := by
  unfold ofBytes? at e
  split at e
  · simp only [List.length_cons, size]
    omega
  · cases e

theorem encodedLen_toRecord {h : Header} {body : Bytes} {r : Record}
    (e : h.toRecord body = .ok r) : r.encodedLen = size + body.length := by
  unfold toRecord at e
  split at e
  · split at e <;> cases e
  · split at e
    · cases e
      simp only [Record.encodedLen, List.length_take, List.length_drop, bodyLen] at *
      omega
    · cases e

end Header

/-- A record is read off by using up at least its own length. -/
theorem Record.left_decode {σ : Type} [Source σ] {s s' : σ} {r : Record}
    (e : decode s = (.ok r, s')) : Source.left s' + r.encodedLen ≤ Source.left s := by
  unfold decode at e
  split at e
  · cases e
  · rename_i front _ hfront
    split at e
    · split at e <;> cases e
    · rename_i h hh
      split at e
      · cases e
      · rename_i body _ hbody
        simp only [Prod.mk.injEq] at e
        obtain ⟨hr, rfl⟩ := e
        have := Source.left_fill hfront
        have := Source.left_fill hbody
        have := Header.length_of_ofBytes? hh
        have := Header.encodedLen_toRecord hr
        omega

end LogStore
