import LogStore.Proofs.Command.Shelf

/-! Calls of the program, one after another, on the same log. Each finds what the one before it
has left on the disk and nothing else, and still they print what one map of texts would. -/

namespace LogStore

open Disk

/-- The path leads to a free name, where there are no records yet, or to a log of these records. No
directory stands where the merge file has its place. -/
inductive Disk.Keeps (p : Path) : List Record → Disk → Prop
  | vacant {d : Disk} {parent : List Name} {name : Name} (hd : d.Sound)
    (hs : Seats d p parent name) (hnone : d.tree[parent ++ [name]]? = none)
    (hm : d.isDir (p.beside ".merge") = false) : Keeps p [] d
  | log {d : Disk} {no : FileNo} {rs : List Record} (h : d.Holds p no (logBytes rs))
    (hfits : ∀ r ∈ rs, r.Fits) (hm : d.isDir (p.beside ".merge") = false) : Keeps p rs d

namespace Disk.Keeps

open Store

variable {p : Path} {rs : List Record} {d d' : Disk} {w : World}

theorem of_logAt {no : FileNo} (h : d.LogAt p no rs) : Keeps p rs d :=
  .log h.holds h.fits (isDir_of_gone h.quiet)

theorem bytesAt_eq (h : Keeps p rs d) {bs : Bytes} (hb : d.bytesAt p = .ok bs) :
    bs = logBytes rs := by
  cases h with
  | vacant hd hs hnone hm =>
    rw [bytesAt, hs.lookup_eq, hnone] at hb
    cases hb
  | log h hfits hm =>
    rw [bytesAt_file h.lookup, h.content] at hb
    exact (Except.ok.inj hb).symm

theorem withLimit (h : Keeps p rs d) (limit : Option Nat) : Keeps p rs { d with limit } := by
  have ht : { d with limit }.tree = d.tree := rfl
  have hdir : isDir { d with limit } (p.beside ".merge") = d.isDir (p.beside ".merge") := by
    rw [isDir, isDir, lookup_congr ht]
  cases h with
  | vacant hd hs hnone hm =>
    exact .vacant (hd.withLimit limit) (hs.of_tree_eq ht) hnone (hdir.trans hm)
  | log h hfits hm => exact .log (h.withLimit limit) hfits (hdir.trans hm)

theorem seated (h : Keeps p rs d) : ∃ parent name, Seats d p parent name ∧
    d.tree[parent ++ [name]]? ≠ some .dir ∧ d.isDir (p.beside ".merge") = false := by
  cases h with
  | @vacant _ parent name hd hs hnone hm =>
    refine ⟨parent, name, hs, ?_, hm⟩
    rw [hnone]
    rintro ⟨⟩
  | log h hfits hm =>
    obtain ⟨parent, name, hs, hfile⟩ := seats_of_lookup h.lookup
    refine ⟨parent, name, hs, ?_, hm⟩
    rw [hfile]
    rintro ⟨⟩

theorem cleared (h : Keeps p rs d) (hcl : Cleared d d' (p.beside ".merge")) : Keeps p rs d' := by
  have hm := isDir_of_gone hcl.gone
  cases h with
  | @vacant _ parent name hd hs hnone _ =>
    refine .vacant (hcl.sound hd) (hs.of_dirs hcl.keepsDirs) ?_ hm
    rw [hcl.tree_beside hs (Ne.symm (beside_ne parent name isEnding_merge)), hnone]
  | log h hfits _ =>
    obtain ⟨parent, name, hs⟩ := site_of_lookup h.sound h.lookup
    exact .log (holds_cleared hcl hs h.content) hfits hm

structure Opens (p : Path) (rs : List Record) (w : World) (x : Except Error Store × World) :
    Prop where
  result : ∃ no, x.1 = .ok (onLog { path := p } no rs) ∧ x.2.disk.LogAt p no rs
  limit : x.2.disk.limit = w.disk.limit
  calm : w.Calm x.2

theorem open_quiet (h : Keeps p rs w.disk) (hgone : w.disk.exists? (p.beside ".merge") = false) :
    Opens p rs w (openPath p w) := by
  cases h with
  | vacant hd hs hnone hm =>
    obtain ⟨d, hopen, hlimit, hlog⟩ := openWith_vacant (c := { path := p }) hd hs hnone hgone
    rw [openPath, hopen]
    exact ⟨⟨_, rfl, hlog⟩, hlimit, (World.Calm.refl _).report rfl⟩
  | log h hfits hm =>
    have hlog : w.disk.LogAt p _ rs := ⟨h, hfits, hgone⟩
    obtain ⟨n, k, hopen⟩ := openWith_eq_report (c := { path := p }) hlog
    rw [openPath, hopen]
    exact ⟨⟨_, rfl, hlog⟩, rfl, (World.Calm.refl _).report rfl⟩

theorem open_stale (h : Keeps p rs w.disk) : ∃ w₁, Opens p rs w₁ (openPath p w) ∧
    w₁.disk.limit = w.disk.limit ∧ (w.disk.exists? (p.beside ".merge") = false → w₁ = w) := by
  obtain ⟨parent, name, hs, hdir, hm⟩ := h.seated
  obtain ⟨w₁, hstale⟩ := removeStale_beside hs hm
  have hcl := removeStale_ok hstale
  have hopen : openPath p w = openPath p w₁ :=
    openWith_cleared (c := { path := p }) hs hdir hstale
  refine ⟨w₁, hopen ▸ (h.cleared hcl).open_quiet hcl.gone, hcl.limit_eq, fun hgone => ?_⟩
  cases hstale.symm.trans (removeStale_gone hgone)
  rfl

end Disk.Keeps

namespace Command

theorem isOption_ofList {a : Char} (ha : a ≠ '-') (text : List Char) :
    isOption (String.ofList (a :: text)) = false := by
  rw [isOption, String.toList_ofList]
  split
  · rename_i hdash
    exact absurd (List.cons.inj hdash).1 ha
  · rfl

theorem operands_pair {key value : String} (hk : isOption key = false)
    (hv : isOption value = false) : operands 2 [] [key, value] = some (some [key, value]) := by
  have hne : ∀ text, isOption text = false → text ≠ "--" := by
    rintro text htext rfl
    cases htext
  simp [operands, hne key hk, hk, hne value hv, hv]

end Command

theorem Wish.ofArgs_set {log key value : String} (hl : Command.isOption log = false)
    (hne : log ≠ "") (hk : Command.isOption key = false) (hv : Command.isOption value = false) :
    ofArgs none ["--db", log, "set", key, value] = .invoke ⟨log.toList, .set key value⟩ := by
  have hlog : ofArgs none ["--db", log, "set", key, value] =
      Command.read log.toList "set" [key, value] := by
    rw [ofArgs, hl, decide_eq_false hne]
    · rfl
  rw [hlog]
  simp only [Command.read, Command.operands_pair hk hv]

theorem Wish.ofArgs_merge {log : String} (hl : Command.isOption log = false) (hne : log ≠ "") :
    ofArgs none ["--db", log, "merge"] = .invoke ⟨log.toList, .merge⟩ := by
  rw [ofArgs, hl, decide_eq_false hne]
  · rfl

structure Call (p : Path) where
  clock : Int
  args : List String
  command : Command
  accepted : Wish.ofArgs none args = .invoke ⟨p, command⟩

namespace Call

variable {p : Path}

/-- The program, started on these files, with no limit to their size. -/
def run (c : Call p) (d : Disk) : Outcome × World :=
  (Wish.ofArgs none c.args).run ⟨{ d with limit := none }, c.clock, []⟩

def runAll : List (Call p) → Disk → List (Disk × Outcome × World)
  | [], _ => []
  | c :: cs, d => (d, c.run d) :: runAll cs (c.run d).2.disk

open Store

variable {rs : List Record} {m : Shelf} {d : Disk}

/-- One call: it prints what the map prints, and leaves a log of the map that is then there, with
no merge file beside it. If it fails, the log is left as it was; and it gives no warning, if there
is nothing to warn of. -/
theorem run_matches (h : d.Keeps p rs) (ht : m.Tells rs) (c : Call p) :
    (c.run d).1 = (m.run (p.beside ".merge").tooLong c.command).1 ∧
      (∃ rs', (c.run d).2.disk.Keeps p rs' ∧
        (m.run (p.beside ".merge").tooLong c.command).2.Tells rs') ∧
      (c.run d).2.disk.exists? (p.beside ".merge") = false ∧
      ((c.run d).1.code ≠ 0 → ∀ bs, d.bytesAt p = .ok bs →
        (c.run d).2.disk.bytesAt p = .ok bs) ∧
      ((p.beside ".merge").tooLong = false → d.exists? (p.beside ".merge") = false →
        ∀ e ∈ (c.run d).2.events, e.isWarning = false) := by
  have ht₀ : { d with limit := none }.tree = d.tree := rfl
  have hfound := LogAt.exists?_congr ht₀ (p.beside ".merge")
  obtain ⟨w₁, hopens, hlimit₁, hsame⟩ :=
    Keeps.open_stale (w := ⟨{ d with limit := none }, c.clock, []⟩) (h.withLimit none)
  unfold run
  rw [c.accepted]
  simp only [Wish.run, Invocation.run]
  rcases hx : openPath p ⟨{ d with limit := none }, c.clock, []⟩ with ⟨x, w₂⟩
  rw [hx] at hopens
  obtain ⟨⟨no, hx₁, hlog⟩, hlimit, hcalm⟩ := hopens
  cases hx₁
  dsimp only
  have hmatch := c.command.perform_matches hlog ht (hlimit.trans hlimit₁)
  rcases hy : c.command.perform (onLog { path := p } no rs) w₂ with ⟨a, s, w₃⟩
  rw [hy] at hmatch
  obtain ⟨houtcome, ⟨no', rs', rfl, hlog', htells, hkept⟩, hcalm'⟩ := hmatch
  -- without a stale merge file, opening starts in the world of the call
  have hquiet : (p.beside ".merge").tooLong = false → d.exists? (p.beside ".merge") = false →
      World.Calm ⟨{ d with limit := none }, c.clock, []⟩ w₃ := by
    intro hname hgone
    rw [← hsame (hfound.trans hgone)]
    exact hcalm.trans (hcalm' hname)
  cases a with
  | error e =>
    refine ⟨houtcome, ⟨rs', .of_logAt hlog', htells⟩, hlog'.quiet, fun _ bs hb => ?_,
      fun hname hgone e he => ?_⟩
    · rw [h.bytesAt_eq hb, ← hkept e rfl]
      exact hlog'.bytesAt_eq
    · exact (hquiet hname hgone e he).resolve_left List.not_mem_nil
  | ok text =>
    refine ⟨houtcome, ⟨rs', .of_logAt hlog', htells⟩, hlog'.quiet,
      fun hcode => absurd rfl hcode, fun hname hgone e he => ?_⟩
    have hclosed : World.Calm _ (w₃.report (.closed p)) := (hquiet hname hgone).report rfl
    exact (hclosed e he).resolve_left List.not_mem_nil

/-- The command line is a map of texts. Over any number of calls on the same log, whether it is
there at first or not, the program prints what one map would print that is carried along, texts
being printed just as they were given; only a merge whose file cannot be named, and texts or
logs longer than any can be, are refused besides. A call that fails leaves a log that is there
as it was, and no call gives a warning where the first finds no stale merge file. -/
theorem outcomes_eq_shelf (h : d.Keeps p rs) (ht : m.Tells rs) (cs : List (Call p)) :
    (runAll cs d).map (fun x => x.2.1) =
      m.runAll (p.beside ".merge").tooLong (cs.map Call.command) ∧
    (∀ x ∈ runAll cs d, x.2.1.code ≠ 0 →
      ∀ bs, x.1.bytesAt p = .ok bs → x.2.2.disk.bytesAt p = .ok bs) ∧
    ((p.beside ".merge").tooLong = false → d.exists? (p.beside ".merge") = false →
      ∀ x ∈ runAll cs d, ∀ e ∈ x.2.2.events, e.isWarning = false) := by
  induction cs generalizing d m rs with
  | nil => simp [runAll, Shelf.runAll]
  | cons c cs ih =>
    obtain ⟨houtcome, ⟨rs', hkeeps, htells⟩, hgone, hkept, hcalm⟩ := c.run_matches h ht
    obtain ⟨hrest, hkeptRest, hcalmRest⟩ := ih hkeeps htells
    refine ⟨?_, ?_, fun hname hfirst => ?_⟩
    · rw [runAll, List.map_cons, houtcome, hrest]
      rfl
    · intro x hx
      rcases List.mem_cons.mp hx with rfl | hx
      · exact hkept
      · exact hkeptRest x hx
    · intro x hx
      rcases List.mem_cons.mp hx with rfl | hx
      · exact hcalm hname hfirst
      · exact hcalmRest hname hgone x hx

def fiveCalls : List (Call ['a']) :=
  [⟨5, ["--db", "a", "set", "ключ", "value"], .set "ключ" "value", rfl⟩,
    ⟨4, ["--db=a", "get", "ключ"], .get "ключ", rfl⟩,
    ⟨3, ["--db", "a", "set", "ключ", ""], .set "ключ" "", rfl⟩,
    ⟨2, ["--db", "a", "merge"], .merge, rfl⟩,
    ⟨1, ["--db", "a", "del", "other"], .del "other", rfl⟩]

theorem outcomes_eq_shelf_five :
    Disk.empty.Keeps ['a'] [] ∧ Shelf.empty.Tells [] ∧
    (runAll fiveCalls Disk.empty).map (fun x => x.2.1) =
      [⟨0, "", ""⟩, ⟨0, "value\n", ""⟩, ⟨1, "", "Error: value must not be empty\n"⟩,
        ⟨0, "Database merged successfully\n", ""⟩, ⟨1, "", "Error: Key not found\n"⟩] := by
  have hseat : Seats Disk.empty ['a'] [] ['a'] := ⟨rfl, rfl⟩
  have hkeeps : Disk.empty.Keeps ['a'] [] := .vacant Sound.empty hseat rfl rfl
  exact ⟨hkeeps, .empty, (outcomes_eq_shelf hkeeps .empty fiveCalls).1⟩

def longName : Path := 'a' :: List.replicate 249 'a'

theorem isOption_longName : Command.isOption (String.ofList longName) = false :=
  Command.isOption_ofList (by decide) _

theorem ofList_longName_ne : String.ofList longName ≠ "" := by
  rw [longName]
  exact mt String.ofList_eq_empty_iff.mp (List.cons_ne_nil _ _)

def longSet : Call longName where
  clock := 0
  args := ["--db", String.ofList longName, "set", "k", "v"]
  command := .set "k" "v"
  accepted := (Wish.ofArgs_set isOption_longName ofList_longName_ne rfl rfl).trans
    (congrArg (fun p => Wish.invoke ⟨p, .set "k" "v"⟩) String.toList_ofList)

def longMerge : Call longName where
  clock := 0
  args := ["--db", String.ofList longName, "merge"]
  command := .merge
  accepted := (Wish.ofArgs_merge isOption_longName ofList_longName_ne).trans
    (congrArg (fun p => Wish.invoke ⟨p, .merge⟩) String.toList_ofList)

theorem utf8ByteSize_replicate (n : Nat) :
    (String.ofList (List.replicate n 'a')).utf8ByteSize = n := by
  have ha : (String.utf8EncodeChar 'a').length = 1 := rfl
  rw [← Text.length_toBytes, Text.toBytes, String.toList_ofList, List.length_flatMap,
    List.map_replicate, ha, List.sum_replicate_nat, Nat.mul_one]

def longText : String := String.ofList (List.replicate (2 ^ 32 - 1 + 1) 'a')

theorem utf8ByteSize_longText : longText.utf8ByteSize = 2 ^ 32 := utf8ByteSize_replicate _

def hugeSet : Call ['a'] where
  clock := 0
  args := ["--db", "a", "set", "k", longText]
  command := .set "k" longText
  accepted := Wish.ofArgs_set rfl (by decide) rfl (Command.isOption_ofList (by decide) _)

def blocked : Disk := (createDirs "a.merge".toList Disk.empty).2

/-- Where a map would do it: under a long name, a text is set but the log is not merged; a very
long text is not set; and where a directory stands in the place of the merge file, no text is. -/
theorem merge_refused :
    Disk.empty.Keeps longName [] ∧ Shelf.empty.Tells [] ∧
    (runAll [longSet, longMerge] Disk.empty).map (fun x => x.2.1) =
      [⟨0, "", ""⟩, ⟨1, "", "Error: IO error: File name too long (os error 36)\n"⟩] ∧
    Shelf.empty.runAll false [longSet.command, longMerge.command] =
      [⟨0, "", ""⟩, ⟨0, "Database merged successfully\n", ""⟩] ∧
    (hugeSet.run Disk.empty).1 =
      ⟨1, "", "Error: value of 4294967296 bytes does not fit in a log record\n"⟩ ∧
    blocked.lookup ['a'] = .error .noEntry ∧
    ∃ c : Call ['a'], c.command = .set "k" "v" ∧ (c.run blocked).1 =
      ⟨1, "", "Error: IO error: Is a directory (os error 21)\n"⟩ := by
  have hseat : Seats Disk.empty longName [] longName := ⟨by decide +kernel, by decide +kernel⟩
  have hkeeps : Disk.empty.Keeps longName [] :=
    .vacant Sound.empty hseat (by decide +kernel) (by decide +kernel)
  have hlong : (longName.beside ".merge").tooLong = true := by decide +kernel
  have hruns : (runAll [longSet, longMerge] Disk.empty).map (fun x => x.2.1) =
      [⟨0, "", ""⟩, ⟨1, "", "Error: IO error: File name too long (os error 36)\n"⟩] := by
    obtain ⟨hset, ⟨rs, hkept, htells⟩, -⟩ := longSet.run_matches hkeeps .empty
    obtain ⟨hmerge, -⟩ := longMerge.run_matches hkept htells
    rw [runAll, runAll, runAll, List.map_cons, List.map_cons, List.map_nil, hset, hmerge, hlong]
    rfl
  have hhuge : (hugeSet.run Disk.empty).1 =
      ⟨1, "", "Error: value of 4294967296 bytes does not fit in a log record\n"⟩ := by
    have hseat' : Seats Disk.empty ['a'] [] ['a'] := ⟨rfl, rfl⟩
    have hsize := utf8ByteSize_longText
    have hne : longText ≠ "" := by
      intro hnil
      rw [hnil] at hsize
      cases hsize
    rw [(hugeSet.run_matches (.vacant Sound.empty hseat' rfl rfl) .empty).1]
    simp only [hugeSet, Shelf.run, hne, hsize]
    rfl
  exact ⟨hkeeps, .empty, hruns, rfl, hhuge, rfl,
    ⟨0, ["--db", "a", "set", "k", "v"], .set "k" "v", rfl⟩, rfl, rfl⟩

end Call

end LogStore
