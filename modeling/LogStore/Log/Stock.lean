/-! How far ahead of its reader a file is fetched. Only counts matter here: the bytes
at hand, and those that still lie beyond. A small request is served from a block
fetched whole; a large one, when nothing is at hand, goes to the file directly. What
is asked for at a time grows with what has been gathered. -/

namespace LogStore

structure Stock where
  /-- Fetched, and not yet handed out. -/
  ahead : Nat
  /-- Not yet fetched. -/
  beyond : Nat
  deriving DecidableEq, Repr

namespace Stock

def blockSize : Nat := 8192

def total (s : Stock) : Nat := s.ahead + s.beyond

/-- Ask once for up to `n` bytes; the number says how many were handed out. -/
def pull (n : Nat) (s : Stock) : Nat × Stock :=
  if 0 < s.ahead then (min n s.ahead, ⟨s.ahead - n, s.beyond⟩)
  else if blockSize ≤ n then (min n s.beyond, ⟨0, s.beyond - n⟩)
  else
    let block := min blockSize s.beyond
    (min n block, ⟨block - n, s.beyond - block⟩)

/-- At least so much room is kept free for the next request. -/
def leastRoom : Nat := 32

/-- The room for what is gathered, `got` bytes so far: doubled when it runs out. -/
def widen (got room : Nat) : Nat :=
  if room < got + leastRoom then max (2 * room) (got + leastRoom) else room

/-- Go on gathering up to `n` bytes, each time as many as there is room for, until
nothing more is handed out. -/
def gatherFrom (n got room : Nat) (s : Stock) : Stock :=
  if n ≤ got then s
  else
    match s.pull (min (widen got room - got) (n - got)) with
    | (0, s) => s
    | (k + 1, s) => gatherFrom n (got + (k + 1)) (widen got room) s
termination_by n - got

/-- Gather up to `n` bytes. The first request is a small one, and the room is then
made to fit. -/
def gather (n : Nat) (s : Stock) : Stock :=
  if n = 0 then s
  else
    match s.pull (min leastRoom n) with
    | (0, s) => s
    | (k + 1, s) => gatherFrom n (k + 1) (k + 1) s

theorem pull_le (n : Nat) (s : Stock) : (s.pull n).1 ≤ n := by
  unfold pull
  split
  · exact Nat.min_le_left ..
  · split <;> exact Nat.min_le_left ..

theorem total_pull (n : Nat) (s : Stock) : (s.pull n).1 + (s.pull n).2.total = s.total := by
  unfold pull
  split
  · simp only [total]
    omega
  · split <;> simp only [total] <;> omega

theorem beyond_pull (n : Nat) (s : Stock) : (s.pull n).2.beyond ≤ s.beyond := by
  unfold pull
  split
  · exact Nat.le_refl _
  · split <;> exact Nat.sub_le ..

theorem pull_pos {n : Nat} {s : Stock} (hn : 0 < n) (hs : 0 < s.total) : 0 < (s.pull n).1 := by
  unfold pull
  simp only [total] at hs
  split
  · simp only
    omega
  · split <;> simp only [blockSize] at * <;> omega

theorem lt_widen (got room : Nat) : got < widen got room := by
  unfold widen leastRoom
  split <;> omega

theorem total_gatherFrom (n got room : Nat) (s : Stock) :
    (s.gatherFrom n got room).total + min (n - got) s.total = s.total := by
  fun_induction gatherFrom n got room s with
  | case1 => omega
  | case2 got room s h s' heq =>
    have := lt_widen got room
    have ht := total_pull (min (widen got room - got) (n - got)) s
    have hp := @pull_pos (min (widen got room - got) (n - got)) s (by omega)
    simp only [heq] at ht hp
    omega
  | case3 got room s h k s' heq ih =>
    have ht := total_pull (min (widen got room - got) (n - got)) s
    have hl := pull_le (min (widen got room - got) (n - got)) s
    simp only [heq] at ht hl
    omega

theorem total_gather (n : Nat) (s : Stock) : (s.gather n).total + min n s.total = s.total := by
  unfold gather
  split
  · omega
  · have ht := total_pull (min leastRoom n) s
    have hl := pull_le (min leastRoom n) s
    have hp := @pull_pos (min leastRoom n) s (by simp only [leastRoom]; omega)
    split
    · rename_i s' heq
      simp only [heq] at ht hp
      omega
    · rename_i k s' heq
      simp only [heq] at ht hl
      have := total_gatherFrom n (k + 1) (k + 1) s'
      omega

theorem beyond_gatherFrom (n got room : Nat) (s : Stock) :
    (s.gatherFrom n got room).beyond ≤ s.beyond := by
  fun_induction gatherFrom n got room s with
  | case1 => exact Nat.le_refl _
  | case2 got room s h s' heq =>
    have := beyond_pull (min (widen got room - got) (n - got)) s
    rwa [heq] at this
  | case3 got room s h k s' heq ih =>
    have := beyond_pull (min (widen got room - got) (n - got)) s
    rw [heq] at this
    exact Nat.le_trans ih this

theorem beyond_gather (n : Nat) (s : Stock) : (s.gather n).beyond ≤ s.beyond := by
  unfold gather
  split
  · exact Nat.le_refl _
  · have := beyond_pull (min leastRoom n) s
    split
    · rename_i s' heq
      rwa [heq] at this
    · rename_i k s' heq
      rw [heq] at this
      exact Nat.le_trans (beyond_gatherFrom ..) this

end Stock

end LogStore
