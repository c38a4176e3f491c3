import LogStore.Disk.Basic
import LogStore.Event

/-! What a store works on: a disk, a clock, and the reports made so far. A failing
step keeps what it did before it failed, so every step returns a world. -/

namespace LogStore

structure World where
  disk : Disk
  /-- Seconds since 1970; negative before. -/
  clock : Int
  /-- Oldest first. -/
  events : List Event

namespace World

def empty (clock : Int) : World := ⟨Disk.empty, clock, []⟩

/-- The second in which a record is stamped: zero before 1970, and counted
modulo 2³². -/
def now (w : World) : UInt32 := UInt32.ofNat w.clock.toNat

def report (w : World) (e : Event) : World := { w with events := w.events ++ [e] }

end World

abbrev Action (α : Type) := ExceptT Error (StateM World) α

namespace Action

def onDisk {α : Type} (f : Disk → Except IoError α × Disk) : Action α := fun w =>
  match f w.disk with
  | (.ok a, d) => (.ok a, { w with disk := d })
  | (.error e, d) => (.error (.io e), { w with disk := d })

def world : Action World := fun w => (.ok w, w)

def ask {α : Type} (f : Disk → Except Error α) : Action α := fun w => (f w.disk, w)

def report (e : Event) : Action Unit := fun w => (.ok (), w.report e)

section Lemmas

variable {α β : Type} {x : Action α} {w w' : World}

theorem world_eq (w : World) : world w = (.ok w, w) := rfl

theorem report_eq (e : Event) (w : World) : report e w = (.ok (), w.report e) := rfl

theorem bind_eq (x : Action α) (f : α → Action β) (w : World) :
    (x >>= f) w = match x w with
      | (.ok a, w') => f a w'
      | (.error e, w') => (.error e, w') := by
  simp only [bind, ExceptT.bind, ExceptT.mk, StateT.bind]
  rcases x w with ⟨_ | _, w'⟩ <;> rfl

theorem bind_ok {a : α} (h : x w = (.ok a, w')) (f : α → Action β) : (x >>= f) w = f a w' := by
  rw [bind_eq, h]

theorem bind_error {e : Error} (h : x w = (.error e, w')) (f : α → Action β) :
    (x >>= f) w = (.error e, w') := by
  rw [bind_eq, h]

/-- What succeeds has succeeded at each step. -/
theorem ok_of_bind {b : β} {f : α → Action β} (h : (x >>= f) w = (.ok b, w')) :
    ∃ a v, x w = (.ok a, v) ∧ f a v = (.ok b, w') := by
  rcases hx : x w with ⟨_ | a, v⟩
  · cases (bind_error hx f).symm.trans h
  · exact ⟨a, v, rfl, (bind_ok hx f).symm.trans h⟩

theorem onDisk_ok {f : Disk → Except IoError α × Disk} {a : α} {d : Disk}
    (h : f w.disk = (.ok a, d)) : onDisk f w = (.ok a, { w with disk := d }) := by
  simp only [onDisk, h]

theorem onDisk_error {f : Disk → Except IoError α × Disk} {e : IoError} {d : Disk}
    (h : f w.disk = (.error e, d)) : onDisk f w = (.error (.io e), { w with disk := d }) := by
  simp only [onDisk, h]

end Lemmas

end Action

end LogStore
