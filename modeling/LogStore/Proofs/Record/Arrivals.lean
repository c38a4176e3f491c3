import LogStore.Proofs.Log.Canonical
import LogStore.Record.Reader

/-! Reading does not depend on how the bytes arrive: in chunks of whatever sizes, by reads
that hand out as little as they please, with reads between them that are interrupted. A
failure is met by the call that needs a byte from behind it, and by no call before, and that
call reports the failure: it is never taken for the end of the input. -/

namespace LogStore

/-- What is still to come, one byte after another, and the failures among them. -/
abbrev Tape := List (UInt8 ⊕ String)

namespace Tape

def ofBytes (bs : Bytes) (rest : Tape) : Tape := bs.map .inl ++ rest

theorem ofBytes_append (bs cs : Bytes) (rest : Tape) :
    ofBytes (bs ++ cs) rest = ofBytes bs (ofBytes cs rest) := by
  rw [ofBytes, ofBytes, ofBytes, List.map_append, List.append_assoc]

def fill : Nat → Tape → Except IoError Bytes × Tape
  | 0, t => (.ok [], t)
  | _ + 1, [] => (.ok [], [])
  | n + 1, .inl b :: t => ((fill n t).1.map (b :: ·), (fill n t).2)
  | _ + 1, .inr text :: t => (.error (.other text), t)

theorem left_fill {n : Nat} {t t' : Tape} {bs : Bytes} (h : fill n t = (.ok bs, t')) :
    t'.length + bs.length ≤ t.length := by
  induction t generalizing n bs with
  | nil =>
    cases n <;> cases h <;> exact Nat.le_refl _
  | cons x t ih =>
    cases n with
    | zero =>
      cases h
      exact Nat.le_refl _
    | succ n =>
      cases x with
      | inr text => cases h
      | inl b =>
        rcases hf : fill n t with ⟨_ | front, t₁⟩
        · simp [fill, hf, Except.map] at h
        · simp only [fill, hf, Except.map, Prod.mk.injEq, Except.ok.injEq] at h
          obtain ⟨rfl, rfl⟩ := h
          have := ih hf
          simp only [List.length_cons]
          omega

instance : Source Tape where
  fill := fill
  left t := t.length
  left_fill := left_fill

theorem fill_ofBytes {n : Nat} {bs : Bytes} (h : n ≤ bs.length) (rest : Tape) :
    fill n (ofBytes bs rest) = (.ok (bs.take n), ofBytes (bs.drop n) rest) := by
  induction bs generalizing n with
  | nil =>
    rw [Nat.le_zero.mp h]
    rfl
  | cons b bs ih =>
    cases n with
    | zero => rfl
    | succ n =>
      have hrest := ih (Nat.le_of_succ_le_succ h)
      simp only [ofBytes, List.map_cons, List.cons_append, fill] at hrest ⊢
      rw [hrest]
      rfl

/-- Where they are not enough, it goes on behind them. -/
theorem fill_ofBytes_beyond {n : Nat} {bs : Bytes} (h : bs.length ≤ n) (rest : Tape) :
    fill n (ofBytes bs rest) =
      ((fill (n - bs.length) rest).1.map (bs ++ ·), (fill (n - bs.length) rest).2) := by
  induction bs generalizing n with
  | nil =>
    rw [ofBytes, List.length_nil, Nat.sub_zero, List.map_nil, List.nil_append]
    rcases fill n rest with ⟨_ | _, _⟩ <;> rfl
  | cons b bs ih =>
    cases n with
    | zero => cases h
    | succ n =>
      have hrest := ih (Nat.le_of_succ_le_succ h)
      simp only [ofBytes, List.map_cons, List.cons_append, fill] at hrest ⊢
      rw [hrest, List.length_cons, Nat.succ_sub_succ]
      rcases fill (n - bs.length) rest with ⟨_ | _, _⟩ <;> rfl

/-- At the end of the input there is less. -/
theorem fill_ofBytes_nil (n : Nat) (bs : Bytes) :
    fill n (ofBytes bs []) = (.ok (bs.take n), ofBytes (bs.drop n) []) := by
  rcases Nat.le_total n bs.length with hle | hle
  · exact fill_ofBytes hle []
  · have hnil : fill (n - bs.length) [] = (.ok [], []) := by cases n - bs.length <;> rfl
    rw [fill_ofBytes_beyond hle, hnil, List.take_of_length_le hle, List.drop_of_length_le hle]
    exact Prod.ext (congrArg Except.ok (List.append_nil bs)) rfl

/-- A failure is reported, and what was handed out before it is lost. -/
theorem fill_ofBytes_failure {n : Nat} {bs : Bytes} (h : bs.length < n) (text : String)
    (rest : Tape) : fill n (ofBytes bs (.inr text :: rest)) = (.error (.other text), rest) := by
  obtain ⟨k, hk⟩ : ∃ k, n - bs.length = k + 1 := ⟨n - bs.length - 1, by omega⟩
  rw [fill_ofBytes_beyond (Nat.le_of_lt h), hk]
  rfl

end Tape

/-- What was to come when a read came to this, and left `t` to come. -/
def Delivery.onto (t : Tape) : Delivery → Tape
  | .bytes bs => .ofBytes bs t
  | .interrupted => t
  | .failure text => .inr text :: t

namespace Script

/-- Where one chunk ends and the next begins does not show, nor do interruptions. -/
def tape : Script → Tape
  | [] => []
  | .chunk c :: rest => Tape.ofBytes c (tape rest)
  | .interrupted :: rest => tape rest
  | .failure text :: rest => .inr text :: tape rest

theorem tape_filter (s : Script) : tape (s.filter (· ≠ .interrupted)) = s.tape := by
  induction s with
  | nil => rfl
  | cons a rest ih =>
    cases a with
    | interrupted => exact ih
    | failure text => exact congrArg (Sum.inr text :: ·) ih
    | chunk c => exact congrArg (Tape.ofBytes c) ih

theorem fill_tape (n : Nat) (s : Script) :
    (fill n s).1 = (Tape.fill n s.tape).1 ∧ (fill n s).2.tape = (Tape.fill n s.tape).2 := by
  induction s generalizing n with
  | nil => cases n <;> exact ⟨rfl, rfl⟩
  | cons a rest ih =>
    cases a with
    | interrupted =>
      rw [fill]
      split
      · rename_i hn
        subst hn
        exact ⟨rfl, rfl⟩
      · exact ih n
    | failure text =>
      cases n with
      | zero => exact ⟨rfl, rfl⟩
      | succ n => exact ⟨rfl, rfl⟩
    | chunk c =>
      rw [fill, tape]
      split
      · rename_i hn
        rw [Tape.fill_ofBytes (Nat.le_of_lt hn)]
        exact ⟨rfl, rfl⟩
      · rename_i hn
        obtain ⟨h1, h2⟩ := ih (n - c.length)
        rw [Tape.fill_ofBytes_beyond (Nat.not_lt.mp hn), ← h1, ← h2]
        rcases fill (n - c.length) rest with ⟨_ | _, _⟩ <;> exact ⟨rfl, rfl⟩

/-- What one read hands out or meets is taken off what is still to come. -/
theorem read_tape (room : Nat) (s : Script) :
    s.tape = (s.read room).1.onto (s.read room).2.tape := by
  induction s with
  | nil => rfl
  | cons a rest ih =>
    cases a with
    | interrupted => rfl
    | failure text => rfl
    | chunk c =>
      rw [read, tape]
      by_cases hc : c = []
      · rw [if_pos hc, ← ih, hc]
        rfl
      · rw [if_neg hc]
        by_cases hle : c.length ≤ room
        · rw [if_pos hle, List.take_of_length_le hle]
          rfl
        · rw [if_neg hle, Delivery.onto, tape, ← Tape.ofBytes_append, List.take_append_drop]

theorem read_bytes {room : Nat} (hroom : 0 < room) {s : Script} {bs : Bytes}
    (h : (s.read room).1 = .bytes bs) : bs.length ≤ room ∧ (bs = [] → (s.read room).2 = []) := by
  induction s with
  | nil =>
    cases h
    exact ⟨Nat.zero_le _, fun _ => rfl⟩
  | cons a rest ih =>
    cases a with
    | interrupted => cases h
    | failure text => cases h
    | chunk c =>
      rw [read] at h ⊢
      by_cases hc : c = []
      · rw [if_pos hc] at h ⊢
        exact ih h
      · rw [if_neg hc] at h ⊢
        cases h
        refine ⟨List.length_take_le .., fun hempty => ?_⟩
        rcases List.take_eq_nil_iff.mp hempty with hzero | hnil
        · exact absurd hzero hroom.ne'
        · exact absurd hnil hc

end Script

namespace Reader

theorem read_tape (n : Nat) (r : Reader) :
    r.script.tape = (r.read n).1.onto (r.read n).2.script.tape :=
  Script.read_tape ..

theorem read_bytes {n : Nat} (hn : n ≠ 0) {r : Reader} {bs : Bytes}
    (h : (r.read n).1 = .bytes bs) :
    bs.length ≤ n ∧ (bs = [] → (r.read n).2.script.tape = []) := by
  have hroom : 0 < min n (max 1 (r.sizes 0)) := by omega
  obtain ⟨hle, hend⟩ := Script.read_bytes hroom h
  refine ⟨Nat.le_trans hle (Nat.min_le_left ..), fun hempty => ?_⟩
  exact congrArg Script.tape (hend hempty)

/-- However little each read hands out, what is gathered is the same. -/
theorem fill_tape (n : Nat) (r : Reader) :
    (fill n r).1 = (Tape.fill n r.script.tape).1 ∧
      (fill n r).2.script.tape = (Tape.fill n r.script.tape).2 := by
  fun_induction fill n r with
  | case1 r => exact ⟨rfl, rfl⟩
  | case2 n r hn r₁ hread ih =>
    have htape := read_tape n r
    rw [hread] at htape
    rwa [htape]
  | case3 n r hn text r₁ hread =>
    have htape := read_tape n r
    rw [hread] at htape
    rw [htape]
    cases n with
    | zero => exact absurd rfl hn
    | succ n => exact ⟨rfl, rfl⟩
  | case4 n r hn r₁ hread =>
    have htape := read_tape n r
    have hend := (read_bytes hn (congrArg Prod.fst hread)).2 rfl
    rw [hread] at htape hend
    rw [htape, hend]
    cases n with
    | zero => exact absurd rfl hn
    | succ n => exact ⟨rfl, rfl⟩
  | case5 n r hn bs r₁ hread hbs more r₂ hmore ih =>
    have htape := read_tape n r
    have hle := (read_bytes hn (congrArg Prod.fst hread)).1
    rw [hread] at htape
    rw [hmore] at ih
    rw [htape, Delivery.onto, Tape.fill_ofBytes_beyond hle, ← ih.1, ← ih.2]
    exact ⟨rfl, rfl⟩

end Reader

namespace Record

section Calls

variable {σ τ : Type} [Source σ] [Source τ] {R : σ → τ → Prop}

def leave : Nat → σ → σ
  | 0, s => s
  | n + 1, s => leave n (decode s).2

theorem calls_alike
    (hfill : ∀ n s t, R s t → (Source.fill n s).1 = (Source.fill n t).1 ∧
      R (Source.fill n s).2 (Source.fill n t).2)
    {s : σ} {t : τ} (h : R s t) (n : Nat) : calls n s = calls n t ∧ R (leave n s) (leave n t) := by
  induction n generalizing s t with
  | zero => exact ⟨rfl, h⟩
  | succ n ih =>
    obtain ⟨hfirst, hrest⟩ := decode_alike hfill h
    obtain ⟨hcalls, hleave⟩ := ih hrest
    exact ⟨by rw [calls, calls, hfirst, hcalls], hleave⟩

end Calls

theorem decode_tape (s : Script) :
    (decode s).1 = (decode s.tape).1 ∧ (decode s).2.tape = (decode s.tape).2 :=
  decode_alike (R := fun (s : Script) (t : Tape) => s.tape = t)
    (fun n s _ h => h ▸ Script.fill_tape n s) rfl

theorem calls_tape (s : Script) (n : Nat) :
    calls n s = calls n s.tape ∧ (leave n s).tape = leave n s.tape :=
  calls_alike (R := fun (s : Script) (t : Tape) => s.tape = t)
    (fun n s _ h => h ▸ Script.fill_tape n s) rfl n

/-- A script that is read a little at a time is read as its tape is. -/
theorem calls_reader (r : Reader) (n : Nat) :
    calls n r = calls n r.script.tape ∧ (leave n r).script.tape = leave n r.script.tape :=
  calls_alike (R := fun (r : Reader) (t : Tape) => r.script.tape = t)
    (fun n r _ h => h ▸ Reader.fill_tape n r) rfl n

theorem calls_ofBytes_nil (bs : Bytes) (n : Nat) :
    calls n (Tape.ofBytes bs []) = calls n bs ∧
      leave n (Tape.ofBytes bs []) = Tape.ofBytes (leave n bs) [] := by
  refine calls_alike (R := fun (t : Tape) (bs : Bytes) => t = Tape.ofBytes bs []) ?_ rfl n
  intro n t bs h
  have hfill := Tape.fill_ofBytes_nil n bs
  subst h
  exact ⟨congrArg Prod.fst hfill, congrArg Prod.snd hfill⟩

/-- A header stands at the front, and all that it announces stands behind it. -/
def Whole (bs : Bytes) : Prop := ∃ h body, bs = Header.bytes h ++ body ∧ h.bodyLen ≤ body.length

/-- Where that is so, a call does not look behind the record. -/
theorem decode_ofBytes {bs : Bytes} (hw : Whole bs) (rest : Tape) :
    decode (Tape.ofBytes bs rest) = ((decode bs).1, Tape.ofBytes (decode bs).2 rest) := by
  obtain ⟨h, body, rfl, hbody⟩ := hw
  have hlong : Header.size ≤ (h.bytes ++ body).length := by
    rw [List.length_append, h.bytes_length]
    exact Nat.le_add_right ..
  have hfront := Tape.fill_ofBytes hlong rest
  rw [List.take_left' h.bytes_length, List.drop_left' h.bytes_length] at hfront
  have hrest := Tape.fill_ofBytes hbody rest
  have hheader : Header.ofBytes? h.bytes = some h := by simpa using Header.ofBytes?_bytes h []
  rw [decode_header]
  simp only [decode, Source.fill, hfront, hheader, hrest]

theorem decode_ofBytes_failure {bs : Bytes} (hw : ¬ Whole bs) (text : String) (rest : Tape) :
    decode (Tape.ofBytes bs (.inr text :: rest)) = (.error (.io (.other text)), rest) := by
  by_cases hlong : Header.size ≤ bs.length
  · obtain ⟨h, body, rfl⟩ := Header.exists_bytes hlong
    have hbody : body.length < h.bodyLen := by
      by_contra hge
      exact hw ⟨h, body, rfl, Nat.not_lt.mp hge⟩
    have hfront := Tape.fill_ofBytes hlong (.inr text :: rest)
    rw [List.take_left' h.bytes_length, List.drop_left' h.bytes_length] at hfront
    have hrest := Tape.fill_ofBytes_failure hbody text rest
    have hheader : Header.ofBytes? h.bytes = some h := by simpa using Header.ofBytes?_bytes h []
    simp only [decode, Source.fill, hfront, hheader, hrest]
  · have hfront := Tape.fill_ofBytes_failure (Nat.not_le.mp hlong) text rest
    simp only [decode, Source.fill, hfront]

theorem calls_ofBytes {bs : Bytes} {n : Nat} (hw : ∀ k < n, Whole (leave k bs)) (rest : Tape) :
    calls n (Tape.ofBytes bs rest) = calls n bs ∧
      leave n (Tape.ofBytes bs rest) = Tape.ofBytes (leave n bs) rest := by
  induction n generalizing bs with
  | zero => exact ⟨rfl, rfl⟩
  | succ n ih =>
    have hwhole : Whole bs := hw 0 (Nat.succ_pos n)
    have hfirst := decode_ofBytes hwhole rest
    have hrest : ∀ k < n, Whole (leave k (decode bs).2) :=
      fun k hk => hw (k + 1) (Nat.succ_lt_succ hk)
    obtain ⟨hcalls, hleave⟩ := ih hrest
    refine ⟨?_, ?_⟩
    · rw [calls, calls, hfirst, hcalls]
    · rw [leave, leave, hfirst, hleave]

/-- How the bytes of a script arrive does not show in what the calls give. It does not matter how
much each read hands out, nor where reads are interrupted. A script without failures is read as
its bytes are when they are all at hand. With a failure, so are the bytes in front of the first
one, as long as each call finds a header there and all that it announces; the first call that does
not reports that failure, and the next one goes on behind it. -/
theorem decode_of_arrivals (s : Script) (n : Nat) :
    (∀ sizes, calls n (⟨s, sizes⟩ : Reader) = calls n s ∧
      (leave n (⟨s, sizes⟩ : Reader)).script.tape = (leave n s).tape) ∧
    (∀ s' : Script, s'.filter (· ≠ .interrupted) = s.filter (· ≠ .interrupted) →
      calls n s' = calls n s ∧ (leave n s').tape = (leave n s).tape) ∧
    (∀ bs : Bytes, s.tape = bs.map .inl →
      calls n s = calls n bs ∧ (leave n s).tape = (leave n bs).map .inl) ∧
    ∀ (bs : Bytes) (text : String) (rest : Tape), s.tape = bs.map .inl ++ .inr text :: rest →
      (∀ k < n, Whole (leave k bs)) →
        calls n s = calls n bs ∧ (leave n s).tape = (leave n bs).map .inl ++ .inr text :: rest ∧
          (¬ Whole (leave n bs) → (decode (leave n s)).1 = .error (.io (.other text)) ∧
            (decode (leave n s)).2.tape = rest) := by
  obtain ⟨hcalls, hleave⟩ := calls_tape s n
  refine ⟨?_, ?_, ?_, ?_⟩
  · intro sizes
    obtain ⟨hcalls', hleave'⟩ := calls_reader ⟨s, sizes⟩ n
    exact ⟨hcalls'.trans hcalls.symm, hleave'.trans hleave.symm⟩
  · intro s' hs
    have htape : s'.tape = s.tape := by rw [← s'.tape_filter, hs, s.tape_filter]
    obtain ⟨hcalls', hleave'⟩ := calls_tape s' n
    rw [hcalls, hleave, hcalls', hleave', htape]
    exact ⟨rfl, rfl⟩
  · intro bs hs
    have htape : s.tape = Tape.ofBytes bs [] := by rw [hs, Tape.ofBytes, List.append_nil]
    obtain ⟨hcalls', hleave'⟩ := calls_ofBytes_nil bs n
    rw [hcalls, hleave, htape, hcalls', hleave', Tape.ofBytes, List.append_nil]
    exact ⟨rfl, rfl⟩
  · intro bs text rest hs hw
    obtain ⟨hcalls', hleave'⟩ := calls_ofBytes hw (.inr text :: rest)
    rw [← Tape.ofBytes] at hs
    have htape : (leave n s).tape = Tape.ofBytes (leave n bs) (.inr text :: rest) := by
      rw [hleave, hs, hleave']
    refine ⟨by rw [hcalls, hs, hcalls'], htape, fun hnot => ?_⟩
    obtain ⟨hlast, hbehind⟩ := decode_tape (leave n s)
    rw [htape, decode_ofBytes_failure hnot text rest] at hlast hbehind
    exact ⟨hlast, hbehind⟩

/-- A record in two chunks, read a byte at a time with an interruption on the way, and then either
the end or a failure right behind the record's last byte. -/
theorem decode_of_arrivals_two_chunks :
    let r : Record := ⟨7, [1], [2]⟩
    let s : Script := [.chunk (r.bytes.take 3), .interrupted, .chunk (r.bytes.drop 3)]
    calls 2 (.interrupted :: s) = [.ok r, .error .endOfLog] ∧
      calls 1 (⟨s ++ [.failure "gone"], fun _ => 1⟩ : Reader) = [.ok r] ∧
      calls 1 (s ++ [.failure "gone"]) = [.ok r] ∧
      (decode (leave 1 (s ++ [.failure "gone"]))).1 = .error (.io (.other "gone")) := by
  intro r s
  have hr : decode r.bytes = (.ok r, []) := by
    simpa using decode_bytes (r := r) (by decide) []
  have htape : s.tape = r.bytes.map .inl := by
    simp only [s, Script.tape, Tape.ofBytes, List.append_nil, ← List.map_append,
      List.take_append_drop]
  have htape' : Script.tape (s ++ [.failure "gone"]) =
      r.bytes.map .inl ++ .inr "gone" :: [] := by
    simp only [s, List.cons_append, List.nil_append, Script.tape, Tape.ofBytes,
      ← List.append_assoc, ← List.map_append, List.take_append_drop]
  have hwhole : ∀ k < 1, Whole (leave k r.bytes) := by
    intro k hk
    rw [Nat.lt_one_iff.mp hk]
    exact ⟨r.header, r.key ++ r.value, rfl, by decide⟩
  have hend : ¬ Whole (leave 1 r.bytes) := by
    rintro ⟨h, body, heq, -⟩
    rw [leave, leave, hr] at heq
    cases heq
  obtain ⟨-, hinterrupted, hbytes, -⟩ := decode_of_arrivals s 2
  obtain ⟨hsizes, -, -, hfailure⟩ := decode_of_arrivals (s ++ [.failure "gone"]) 1
  obtain ⟨hfront, -, hlast⟩ := hfailure r.bytes "gone" [] htape' hwhole
  have hcalls : calls 1 r.bytes = [.ok r] := by rw [calls, calls, hr]
  refine ⟨?_, ?_, ?_, ?_⟩
  · rw [(hinterrupted (.interrupted :: s) rfl).1, (hbytes r.bytes htape).1, calls, hr, calls, calls]
    rfl
  · rw [(hsizes _).1, hfront, hcalls]
  · rw [hfront, hcalls]
  · exact (hlast hend).1

end Record

end LogStore
