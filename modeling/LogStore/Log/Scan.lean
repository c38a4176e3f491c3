import LogStore.Record.Decode

/-! A log is records one after another. A scan reads them off the front until
something stops it: the end of the log, a torn record, or damage. -/

namespace LogStore

structure Positioned where
  offset : Nat
  record : Record
  deriving DecidableEq, Repr

namespace Positioned

def valuePos (p : Positioned) : Nat := p.offset + p.record.valueOffset

def next (p : Positioned) : Nat := p.offset + p.record.encodedLen

end Positioned

structure Scan where
  records : List Positioned
  validLen : Nat
  stop : Error
  deriving DecidableEq, Repr

namespace Scan

def after (p : Positioned) (s : Scan) : Scan := { s with records := p :: s.records }

def failure? (s : Scan) : Option Error := if s.stop.isEndOfLog then none else some s.stop

def isTorn (s : Scan) : Bool := s.stop.isEndOfLog && s.stop ≠ .endOfLog

def tombstones (s : Scan) : Nat := s.records.countP (·.record.isTombstone)

end Scan

def scan {σ : Type} [Source σ] (offset : Nat) (s : σ) : Scan :=
  match _h : Record.decode s with
  | (.error e, _) => ⟨[], offset, e⟩
  | (.ok r, s') => (scan (offset + r.encodedLen) s').after ⟨offset, r⟩
termination_by Source.left s
decreasing_by
  have := Record.left_decode ‹_›
  simp only [Record.encodedLen, Header.size] at this
  omega

/-- The log that holds these records and nothing else. -/
def logBytes (rs : List Record) : Bytes := rs.flatMap Record.bytes

theorem logBytes_append (as bs : List Record) :
    logBytes (as ++ bs) = logBytes as ++ logBytes bs :=
  List.flatMap_append

end LogStore
