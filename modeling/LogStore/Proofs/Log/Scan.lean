import Mathlib.Algebra.GroupWithZero.Nat
import LogStore.Log.Replay
import LogStore.Proofs.Record.Codec

/-! A scan splits any bytes into records and a tail that is no record, and finds the
records where they lie. It sees the same in a file as in the bytes of that file,
however far ahead the file is fetched. -/

namespace LogStore

/-! Two sources that hand out the same bytes are read alike. -/

section Alike

variable {σ τ : Type} [Source σ] [Source τ] {R : σ → τ → Prop}

theorem Record.decode_alike
    (hfill : ∀ n s t, R s t → (Source.fill n s).1 = (Source.fill n t).1 ∧
      R (Source.fill n s).2 (Source.fill n t).2)
    {s : σ} {t : τ} (h : R s t) :
    (decode s).1 = (decode t).1 ∧ R (decode s).2 (decode t).2 := by
  obtain ⟨h1, h2⟩ := hfill Header.size s t h
  unfold decode
  rcases hs : Source.fill Header.size s with ⟨a, s₁⟩
  rcases ht : Source.fill Header.size t with ⟨b, t₁⟩
  simp only [hs, ht] at h1 h2
  subst h1
  cases a with
  | error e => exact ⟨rfl, h2⟩
  | ok front =>
    cases hh : Header.ofBytes? front with
    | none =>
      simp only [hh]
      split <;> exact ⟨rfl, h2⟩
    | some hd =>
      obtain ⟨h3, h4⟩ := hfill hd.bodyLen s₁ t₁ h2
      simp only [hh]
      rcases hs₁ : Source.fill hd.bodyLen s₁ with ⟨a, s₂⟩
      rcases ht₁ : Source.fill hd.bodyLen t₁ with ⟨b, t₂⟩
      simp only [hs₁, ht₁] at h3 h4
      subst h3
      cases a <;> exact ⟨rfl, h4⟩

theorem scan_error {o : Nat} {s s' : σ} {e : Error} (h : Record.decode s = (.error e, s')) :
    scan o s = ⟨[], o, e⟩ := by
  rw [scan]
  split <;> simp_all

theorem scan_ok {o : Nat} {s s' : σ} {r : Record} (h : Record.decode s = (.ok r, s')) :
    scan o s = (scan (o + r.encodedLen) s').after ⟨o, r⟩ := by
  rw [scan]
  split <;> simp_all

theorem scan_alike
    (hfill : ∀ n s t, R s t → (Source.fill n s).1 = (Source.fill n t).1 ∧
      R (Source.fill n s).2 (Source.fill n t).2)
    {o : Nat} {s : σ} {t : τ} (h : R s t) : scan o s = scan o t := by
  fun_induction scan o s generalizing t with
  | case1 o s e s' hs =>
    obtain ⟨h1, -⟩ := Record.decode_alike hfill h
    rcases ht : Record.decode t with ⟨a, t'⟩
    simp only [hs, ht] at h1
    subst h1
    exact (scan_error ht).symm
  | case2 o s r s' hs ih =>
    obtain ⟨h1, h2⟩ := Record.decode_alike hfill h
    rcases ht : Record.decode t with ⟨a, t'⟩
    simp only [hs, ht] at h1 h2
    subst h1
    rw [scan_ok ht, ih h2]

end Alike

def Feed.Gives (file : Bytes) (f : Feed) (bs : Bytes) : Prop :=
  f.file = .ok file ∧ f.coming file = bs

theorem Feed.fill_gives {file : Bytes} (n : Nat) (f : Feed) (bs : Bytes) (h : f.Gives file bs) :
    (Source.fill n f).1 = (Source.fill n bs).1 ∧
      Gives file (Source.fill n f).2 (Source.fill n bs).2 := by
  obtain ⟨hf, rfl⟩ := h
  obtain ⟨h1, h2, h3⟩ := Feed.fill_eq (n := n) hf
  exact ⟨h1, h2, h3⟩

/-- A file is read as the bytes still to come from it. -/
theorem Record.decode_feed {file bs : Bytes} {f : Feed} (h : f.Gives file bs) :
    (decode f).1 = (decode bs).1 ∧ (decode f).2.Gives file (decode bs).2 :=
  decode_alike Feed.fill_gives h

theorem scan_feed {f : Feed} {bs : Bytes} (h : f.file = .ok bs) (o : Nat) :
    scan o f = scan o (f.coming bs) :=
  scan_alike Feed.fill_gives (show f.Gives bs (f.coming bs) from ⟨h, rfl⟩)

/-- The records of a log that starts at `o`, each with its place. -/
def positions : Nat → List Record → List Positioned
  | _, [] => []
  | o, r :: rs => ⟨o, r⟩ :: positions (o + r.encodedLen) rs

@[simp] theorem logBytes_nil : logBytes [] = [] := rfl

@[simp] theorem logBytes_cons (r : Record) (rs : List Record) :
    logBytes (r :: rs) = r.bytes ++ logBytes rs := rfl

@[simp] theorem logBytes_singleton (r : Record) : logBytes [r] = r.bytes := by
  simp [logBytes]

@[simp] theorem positions_nil (o : Nat) : positions o [] = [] := rfl

theorem positions_append (o : Nat) (rs ss : List Record) :
    positions o (rs ++ ss) = positions o rs ++ positions (o + (logBytes rs).length) ss := by
  induction rs generalizing o with
  | nil => rfl
  | cons r rs ih =>
    simp only [List.cons_append, positions, ih, logBytes_cons, List.length_append,
      Record.bytes_length, Nat.add_assoc]

theorem record_mem_of_positions {o : Nat} {rs : List Record} {p : Positioned}
    (h : p ∈ positions o rs) : p.record ∈ rs := by
  induction rs generalizing o with
  | nil => cases h
  | cons r rs ih =>
    rcases List.mem_cons.mp h with rfl | h
    · exact List.mem_cons_self
    · exact List.mem_cons_of_mem _ (ih h)

theorem logBytes_length (rs : List Record) :
    (logBytes rs).length = (rs.map Record.encodedLen).sum := by
  induction rs with
  | nil => rfl
  | cons r rs ih => simp [Record.bytes_length, ih]

/-- What the scan of a log makes of it, given what stands behind its records. -/
theorem scan_logBytes {rs : List Record} (hrs : ∀ r ∈ rs, r.Fits) {t : Bytes} {e : Error}
    (ht : (Record.decode t).1 = .error e) (o : Nat) :
    scan o (logBytes rs ++ t) = ⟨positions o rs, o + (logBytes rs).length, e⟩ := by
  induction rs generalizing o with
  | nil =>
    rcases hd : Record.decode t with ⟨a, t'⟩
    rw [hd] at ht
    subst ht
    exact scan_error hd
  | cons r rs ih =>
    have hr := Record.decode_bytes (hrs r (by simp)) (logBytes rs ++ t)
    rw [logBytes_cons, List.append_assoc, scan_ok hr, ih fun s hs => hrs s (by simp [hs])]
    simp only [Scan.after, positions, List.length_append, Record.bytes_length, Nat.add_assoc]

/-- Bytes, taken apart into the records at their front and the tail behind them, at the
front of which stands no record. -/
structure Parts (bs : Bytes) (rs : List Record) (t : Bytes) (e : Error) : Prop where
  eq : bs = logBytes rs ++ t
  fits : ∀ r ∈ rs, r.Fits
  stop : (Record.decode t).1 = .error e

theorem Parts.of_records {rs : List Record} (hfits : ∀ r ∈ rs, r.Fits) :
    Parts (logBytes rs) rs [] .endOfLog :=
  ⟨(List.append_nil _).symm, hfits, rfl⟩

theorem exists_parts (bs : Bytes) : ∃ rs t e, Parts bs rs t e := by
  induction hn : bs.length using Nat.strong_induction_on generalizing bs with
  | _ n ih =>
    rcases hd : Record.decode bs with ⟨a, rest⟩
    cases a with
    | error e => exact ⟨[], bs, e, rfl, by simp, by rw [hd]⟩
    | ok r =>
      obtain ⟨hfit, rfl⟩ := Record.eq_bytes_of_decode hd
      have hlt : rest.length < n := by
        have := r.encodedLen_pos
        rw [List.length_append, Record.bytes_length] at hn
        omega
      obtain ⟨rs, t, e, rfl, hrs, ht⟩ := ih _ hlt rest rfl
      refine ⟨r :: rs, t, e, by simp, ?_, ht⟩
      intro s hs
      rcases List.mem_cons.mp hs with rfl | hs
      · exact hfit
      · exact hrs s hs

theorem Record.decode_error {t : Bytes} {e : Error} (h : (Record.decode t).1 = .error e) :
    (t = [] ∧ e = .endOfLog) ∨
      (t ≠ [] ∧ ∃ x y, e = .truncatedRecord x y) ∨
      (t ≠ [] ∧ ∃ x y, e = .corruptRecord x y) := by
  by_cases h0 : t = []
  · subst h0
    simp only [decode_nil, Except.error.injEq] at h
    exact .inl ⟨rfl, h.symm⟩
  · by_cases hs : t.length < Header.size
    · simp only [decode_short h0 hs, Except.error.injEq] at h
      exact .inr (.inl ⟨h0, _, _, h.symm⟩)
    · obtain ⟨hd, body, rfl⟩ := Header.exists_bytes (Nat.not_lt.mp hs)
      simp only [decode_header, Header.toRecord] at h
      split at h
      · split at h
        · exact .inr (.inr ⟨h0, _, _, (Except.error.inj h).symm⟩)
        · exact .inr (.inl ⟨h0, _, _, (Except.error.inj h).symm⟩)
      · split at h
        · cases h
        · exact .inr (.inr ⟨h0, _, _, (Except.error.inj h).symm⟩)

end LogStore
