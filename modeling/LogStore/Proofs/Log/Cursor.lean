import LogStore.Proofs.Log.Scan

/-! What a cursor gives, call after call, from a file that stays as it is: the records that lie
before it, each with its place, however far ahead the file was fetched. A pass gives all of them,
then the damage behind them if there is any, and then nothing any more. -/

namespace LogStore

namespace Cursor

variable {c : Cursor} {d : Disk} {file bs rest : Bytes}

/-- The cursor has these bytes of its file before it. -/
def Faces (c : Cursor) (d : Disk) (file bs : Bytes) : Prop := (c.feed d).Gives file bs

theorem faces_start {node : Node} (h : d.read node = .ok file) : (start node).Faces d file file :=
  ⟨h, rfl⟩

/-- A call goes on where the decoder has left off. -/
theorem faces_of_decode {x : Except Error Record} {f : Feed} {o : Nat} (h : c.Faces d file bs)
    (hf : Record.decode (c.feed d) = (x, f)) :
    (⟨c.node, f.position, f.ahead, o⟩ : Cursor).Faces d file (Record.decode bs).2 := by
  have hgives := (Record.decode_feed h).2
  rw [hf] at hgives
  exact ⟨h.1, hgives.2⟩

theorem next_ok {r : Record} (h : c.Faces d file bs) (hr : Record.decode bs = (.ok r, rest)) :
    ∃ c', c.next d = (.ok (some ⟨c.offset, r⟩), c') ∧ c'.Faces d file rest ∧
      c'.offset = c.offset + r.encodedLen := by
  have hsame := (Record.decode_feed h).1
  rcases hf : Record.decode (c.feed d) with ⟨x, f⟩
  have hfaces := faces_of_decode (o := c.offset + r.encodedLen) h hf
  rw [hf, hr] at hsame
  rw [hr] at hfaces
  subst hsame
  refine ⟨_, ?_, hfaces, rfl⟩
  rw [next, hf]
  rfl

theorem next_error {e : Error} (h : c.Faces d file bs)
    (he : Record.decode bs = (.error e, rest)) :
    ∃ c', c.next d = (if e = .endOfLog then .ok none else .error e, c') ∧ c'.Faces d file rest ∧
      c'.offset = c.offset := by
  have hsame := (Record.decode_feed h).1
  rcases hf : Record.decode (c.feed d) with ⟨x, f⟩
  have hfaces := faces_of_decode (o := c.offset) h hf
  rw [hf, he] at hsame
  rw [he] at hfaces
  subst hsame
  refine ⟨_, ?_, hfaces, rfl⟩
  rw [next, hf]

end Cursor

namespace Pass

variable {c : Cursor} {d : Disk} {file t : Bytes} {rs : List Record} {e : Error}

def calls : Nat → Pass → Disk → List (Option (Except Error Positioned))
  | 0, _, _ => []
  | n + 1, p, d => (p.next d).1 :: calls n (p.next d).2 d

theorem calls_done (c : Cursor) (d : Disk) (n : Nat) :
    calls n ⟨c, true⟩ d = List.replicate n none := by
  induction n with
  | zero => rfl
  | succ n ih =>
    rw [List.replicate_succ, ← ih]
    rfl

/-- The end of the log, clean or torn, is passed over quietly, and damage is given once. -/
theorem calls_stop (h : c.Faces d file t) (ht : (Record.decode t).1 = .error e) (n : Nat) :
    calls (n + 1) (start c) d =
      (if e.isEndOfLog then none else some (.error e)) :: List.replicate n none := by
  obtain ⟨c', hnext, -⟩ := Cursor.next_error h (Prod.ext ht rfl)
  have hstep : (start c).next d =
      (if e.isEndOfLog then none else some (.error e), ⟨c', true⟩) := by
    rw [next, start, if_neg Bool.false_ne_true, hnext]
    by_cases he : e = .endOfLog
    · rw [if_pos he, he]
      rfl
    · rw [if_neg he]
  rw [calls, hstep, calls_done]

/-- A pass gives the records in order, each with its place, then the damage if there is any, and
then nothing. -/
theorem calls_eq (hfits : ∀ r ∈ rs, r.Fits) (ht : (Record.decode t).1 = .error e)
    (h : c.Faces d file (logBytes rs ++ t)) (n : Nat) :
    calls (rs.length + (n + 1)) (start c) d = (positions c.offset rs).map (some ∘ .ok) ++
      (if e.isEndOfLog then none else some (.error e)) :: List.replicate n none := by
  induction rs generalizing c with
  | nil =>
    rw [List.length_nil, Nat.zero_add]
    exact calls_stop h ht n
  | cons r rs ih =>
    rw [logBytes_cons, List.append_assoc] at h
    obtain ⟨c', hnext, hfaces, hoffset⟩ :=
      Cursor.next_ok h (Record.decode_bytes (hfits r List.mem_cons_self) (logBytes rs ++ t))
    have hstep : (start c).next d = (some (.ok ⟨c.offset, r⟩), start c') := by
      rw [next, start, if_neg Bool.false_ne_true, hnext]
      rfl
    rw [List.length_cons, Nat.add_right_comm, calls, hstep,
      ih (fun s hs => hfits s (List.mem_cons_of_mem _ hs)) hfaces, hoffset]
    rfl

end Pass

end LogStore
