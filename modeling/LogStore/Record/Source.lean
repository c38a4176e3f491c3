import LogStore.Error
import LogStore.Bytes

/-! Where records are read from. A source hands out as many bytes as it is asked
for, and fewer only at the end of its input; a failing read loses the bytes that
were handed out before it in the same request. -/

namespace LogStore

class Source (σ : Type) where
  fill : Nat → σ → Except IoError Bytes × σ
  /-- A bound on the bytes still to come. -/
  left : σ → Nat
  left_fill : ∀ {n s bs s'}, fill n s = (.ok bs, s') → left s' + bs.length ≤ left s

/-- Bytes in memory, all at hand. -/
instance : Source Bytes where
  fill n b := (.ok (b.take n), b.drop n)
  left b := b.length
  left_fill := by
    intro n s bs s' h
    simp only [Prod.mk.injEq, Except.ok.injEq] at h
    obtain ⟨rfl, rfl⟩ := h
    simp only [List.length_take, List.length_drop]
    omega

inductive Arrival where
  /-- Bytes, delivered by as many reads as it takes. -/
  | chunk (bytes : Bytes)
  | interrupted
  | failure (text : String)
  deriving DecidableEq, Repr

/-- A reader that delivers what it is told to, then ends. -/
abbrev Script := List Arrival

namespace Script

def fill (n : Nat) : Script → Except IoError Bytes × Script
  | [] => (.ok [], [])
  | .interrupted :: rest => if n = 0 then (.ok [], .interrupted :: rest) else fill n rest
  | .failure text :: rest =>
    if n = 0 then (.ok [], .failure text :: rest) else (.error (.other text), rest)
  | .chunk c :: rest =>
    if n < c.length then (.ok (c.take n), .chunk (c.drop n) :: rest)
    else
      match fill (n - c.length) rest with
      | (.ok bs, rest) => (.ok (c ++ bs), rest)
      | (.error e, rest) => (.error e, rest)

def left : Script → Nat
  | [] => 0
  | .chunk c :: rest => c.length + left rest
  | _ :: rest => left rest

theorem left_fill {n : Nat} {s : Script} {bs : Bytes} {s' : Script}
    (h : fill n s = (.ok bs, s')) : left s' + bs.length ≤ left s := by
  induction s generalizing n bs with
  | nil => simp_all [fill, left]
  | cons a rest ih =>
    cases a with
    | interrupted =>
      simp only [fill] at h
      split at h
      · simp only [Prod.mk.injEq, Except.ok.injEq] at h
        obtain ⟨rfl, rfl⟩ := h
        exact Nat.le_refl _
      · exact ih h
    | failure text =>
      simp only [fill] at h
      split at h
      · simp only [Prod.mk.injEq, Except.ok.injEq] at h
        obtain ⟨rfl, rfl⟩ := h
        exact Nat.le_refl _
      · simp at h
    | chunk c =>
      simp only [fill] at h
      split at h
      · simp only [Prod.mk.injEq, Except.ok.injEq] at h
        obtain ⟨rfl, rfl⟩ := h
        simp only [left, List.length_drop, List.length_take]
        omega
      · split at h
        · rename_i heq
          simp only [Prod.mk.injEq, Except.ok.injEq] at h
          obtain ⟨rfl, rfl⟩ := h
          have := ih heq
          simp only [left, List.length_append]
          omega
        · simp at h

end Script

instance : Source Script where
  fill := Script.fill
  left := Script.left
  left_fill := Script.left_fill

end LogStore
