import LogStore.Record.Source

/-! Reading by single reads. One read hands out what it pleases: at least a byte while
there is one, at most what there is room for, never more than one chunk. What is asked
for is gathered by reading on, until it is all there or the input ends or fails. -/

namespace LogStore

inductive Delivery where
  /-- No bytes at all mean the end of the input. -/
  | bytes (bs : Bytes)
  | interrupted
  | failure (text : String)
  deriving DecidableEq, Repr

def Delivery.size : Delivery → Nat
  | .bytes bs => bs.length
  | _ => 0

namespace Script

/-- One read into room for `room` bytes. Empty chunks are passed over. -/
def read (room : Nat) : Script → Delivery × Script
  | [] => (.bytes [], [])
  | .interrupted :: rest => (.interrupted, rest)
  | .failure text :: rest => (.failure text, rest)
  | .chunk c :: rest =>
    if c = [] then read room rest
    else (.bytes (c.take room), if c.length ≤ room then rest else .chunk (c.drop room) :: rest)

end Script

/-- A script, and for each read to come the number of bytes that it hands out at most.
Whoever reads may also offer less room than is needed: it comes to the same. -/
structure Reader where
  script : Script
  sizes : Nat → Nat

namespace Reader

def read (room : Nat) (r : Reader) : Delivery × Reader :=
  let (d, s) := r.script.read (min room (max 1 (r.sizes 0)))
  (d, ⟨s, fun i => r.sizes (i + 1)⟩)

end Reader

namespace Script

/-- A read that is not the last shortens the script, or gives bytes. -/
theorem length_read (room : Nat) (s : Script) :
    (s.read room).2.length ≤ s.length ∧
      ((s.read room).1 = .interrupted → (s.read room).2.length < s.length) := by
  induction s with
  | nil => exact ⟨Nat.le_refl _, nofun⟩
  | cons a rest ih =>
    cases a with
    | interrupted => exact ⟨Nat.le_succ _, fun _ => Nat.lt_succ_self _⟩
    | failure text => exact ⟨Nat.le_succ _, nofun⟩
    | chunk c =>
      rw [read]
      split
      · exact ⟨Nat.le_succ_of_le ih.1, fun h => Nat.lt_succ_of_lt (ih.2 h)⟩
      · refine ⟨?_, nofun⟩
        simp only
        split
        · exact Nat.le_succ _
        · exact Nat.le_refl _

/-- What one read hands out was still to come. -/
theorem left_read (room : Nat) (s : Script) :
    left (s.read room).2 + (s.read room).1.size ≤ left s := by
  induction s with
  | nil => exact Nat.le_refl _
  | cons a rest ih =>
    cases a with
    | interrupted => exact Nat.le_refl _
    | failure text => exact Nat.le_refl _
    | chunk c =>
      rw [read, left]
      split
      · exact Nat.le_add_left_of_le ih
      · simp only [Delivery.size, List.length_take]
        split
        · omega
        · simp only [left, List.length_drop]
          omega

end Script

namespace Reader

/-- Read on until `n` bytes are there. An interrupted read is made again. -/
def fill (n : Nat) (r : Reader) : Except IoError Bytes × Reader :=
  if n = 0 then (.ok [], r)
  else
    match _h : r.read n with
    | (.interrupted, r') => fill n r'
    | (.failure text, r') => (.error (.other text), r')
    | (.bytes bs, r') =>
      if bs = [] then (.ok [], r')
      else
        let (more, r') := fill (n - bs.length) r'
        (more.map (bs ++ ·), r')
termination_by (n, r.script.length)
decreasing_by
  · have hlt := (r.script.length_read (min n (max 1 (r.sizes 0)))).2
    simp only [read, Prod.mk.injEq] at _h
    obtain ⟨hd, rfl⟩ := _h
    exact Prod.Lex.right _ (hlt hd)
  · have := List.length_pos_iff.mpr ‹bs ≠ []›
    exact Prod.Lex.left _ _ (by omega)

theorem left_read (n : Nat) (r : Reader) :
    (r.read n).2.script.left + (r.read n).1.size ≤ r.script.left :=
  Script.left_read ..

theorem left_fill {n : Nat} {r r' : Reader} {bs : Bytes} (h : fill n r = (.ok bs, r')) :
    r'.script.left + bs.length ≤ r.script.left := by
  fun_induction fill n r generalizing bs with
  | case1 r =>
    cases h
    exact Nat.le_refl _
  | case2 n r hn r₁ hread ih =>
    have hleft := left_read n r
    rw [hread] at hleft
    exact Nat.le_trans (ih h) (Nat.le_trans (Nat.le_add_right ..) hleft)
  | case3 => cases h
  | case4 n r hn r₁ hread =>
    have hleft := left_read n r
    rw [hread] at hleft
    cases h
    exact hleft
  | case5 n r hn front r₁ hread hfront more r₂ hmore ih =>
    have hleft := left_read n r
    rw [hread] at hleft
    cases more with
    | error e => cases h
    | ok more =>
      cases h
      have hrest := ih hmore
      simp only [Delivery.size, List.length_append] at *
      omega

end Reader

instance : Source Reader where
  fill := Reader.fill
  left r := r.script.left
  left_fill := Reader.left_fill

end LogStore
