import LogStore.Proofs.Log.Replay
import LogStore.Proofs.Disk.Site
import LogStore.Proofs.Store.Basic

/-! Opening reads the log as far as it holds records. Damage behind them is refused, and a
torn tail is saved before it is cut off, so that the log ends with its last record. What
fails on the way fails before anything is lost. -/

namespace LogStore

open Disk

/-- What a replay makes of a file, given its parts. -/
theorem Replay.recover_eq {d : Disk} {p : Path} {no : FileNo} {bs t : Bytes} {rs : List Record}
    {e : Error} (h : d.Holds p no bs) (hp : Parts bs rs t e) (fileId : FileId) (ix : Index) :
    recover p fileId ix d = (if e.isEndOfLog
        then .ok (ofScan bs.length ⟨positions 0 rs, (logBytes rs).length, e⟩) else .error e,
      ix.replay fileId (positions 0 rs)) := by
  rw [← h.content] at hp ⊢
  exact recover_parts h.lookup hp fileId ix

theorem Replay.recover_dir {d : Disk} {p : Path} (h : d.lookup p = .ok .dir) (fileId : FileId)
    (ix : Index) : recover p fileId ix d = (.error (.io .isDirectory), ix) := by
  have hopen : Cursor.openLog p d = .ok (Cursor.start .dir) := by
    simp only [Cursor.openLog, h]
  have hdecode : Record.decode ((Cursor.start .dir).feed d) =
      (.error (.io .isDirectory), ⟨.error .isDirectory, 0, []⟩) := rfl
  have hscan : (Cursor.start .dir).rest d = ⟨[], 0, .io .isDirectory⟩ := scan_error hdecode
  simp only [recover, hopen, hscan, Scan.failure?, Error.isEndOfLog, Bool.false_eq_true, if_false]
  rfl

namespace Disk

/-- Nothing stands at the path `m` any more; a file that stood there has lost its name. -/
structure Cleared (d d' : Disk) (m : Path) : Prop where
  gone : d'.exists? m = false
  how : d' = d ∨ ∃ parent name i, Seats d m parent name ∧
    d.tree[parent ++ [name]]? = some (.file i) ∧
    d' = { d with tree := d.tree.erase (parent ++ [name]) }

namespace Cleared

variable {d d' : Disk} {m p : Path} {parent : List Name} {name : Name} {no : FileNo}

theorem content_eq (h : Cleared d d' m) (i : FileNo) : d'.content i = d.content i := by
  rcases h.how with rfl | ⟨_, _, _, -, -, rfl⟩ <;> rfl

theorem limit_eq (h : Cleared d d' m) : d'.limit = d.limit := by
  rcases h.how with rfl | ⟨_, _, _, -, -, rfl⟩ <;> rfl

theorem sound (h : Cleared d d' m) (hd : d.Sound) : d'.Sound := by
  rcases h.how with rfl | ⟨_, _, _, -, -, rfl⟩
  · exact hd
  · exact hd.erase _

theorem keepsDirs (h : Cleared d d' m) : KeepsDirs d d' := by
  rcases h.how with rfl | ⟨parent, name, i, -, hfile, rfl⟩
  · exact .of_eq rfl
  · refine keepsDirs_erase ?_
    rw [hfile]
    rintro ⟨⟩

theorem tree_of (h : Cleared d d' m) {names : List Name} {node : Node}
    (hn : d'.tree[names]? = some node) : d.tree[names]? = some node := by
  rcases h.how with rfl | ⟨parent, name, i, -, -, rfl⟩
  · exact hn
  · rw [getElem?_erase_tree] at hn
    split at hn
    · cases hn
    · exact hn

theorem keepsDirs_back (h : Cleared d d' m) : KeepsDirs d' d := fun _ hn => h.tree_of hn

/-- Beside a file, only the cleared name is concerned. -/
theorem tree_beside (h : Cleared d d' (p.beside ".merge")) (hs : Seats d p parent name)
    {names : List Name} (hne : names ≠ parent ++ [name ++ ".merge".toList]) :
    d'.tree[names]? = d.tree[names]? := by
  rcases h.how with rfl | ⟨parent', name', i, hm, hfile, rfl⟩
  · rfl
  · have hshort : (p.beside ".merge").tooLong = false := by
      by_contra hl
      rw [Bool.not_eq_false] at hl
      have hlook := hm.lookup_eq
      rw [(hs.tooLong_beside isEnding_merge hl).1, hfile] at hlook
      cases hlook
    have hloc := (hs.beside isEnding_merge hshort).located.symm.trans hm.located
    simp only [Except.ok.injEq, Place.entry.injEq, and_true] at hloc
    obtain ⟨rfl, rfl⟩ := hloc
    rw [getElem?_erase_tree, if_neg (Ne.symm hne)]

theorem site (h : Cleared d d' (p.beside ".merge")) (hs : Site d p parent name no) :
    Site d' p parent name no := by
  refine ⟨h.sound hs.sound, hs.seat.of_dirs h.keepsDirs, ?_⟩
  rw [h.tree_beside hs.seat (Ne.symm (beside_ne parent name isEnding_merge)), hs.file]

theorem sameBeside (h : Cleared d d' (p.beside ".merge")) (hs : Site d p parent name no)
    {other : String} (ho : Path.IsEnding other) (hne : other ≠ ".merge") :
    SameBeside d d' p other := by
  have hlook := hs.seat.lookup_beside_congr (h.site hs).seat ho
    (h.tree_beside hs.seat (append_ending_injective parent name hne))
  exact ⟨hlook, bytesAt_congr hlook fun j _ => h.content_eq j⟩

end Cleared

end Disk

namespace Store

variable {c : Config} {w w' : World} {m : Path}

theorem removeStale_gone (h : w.disk.exists? m = false) : removeStale m w = (.ok (), w) := by
  unfold removeStale
  rw [Action.bind_ok (Action.world_eq w)]
  simp only [h]
  rfl

theorem removeStale_there (h : w.disk.exists? m = true) :
    removeStale m w = Action.onDisk (Disk.remove m) (w.report (.removingStale m)) := by
  unfold removeStale
  rw [Action.bind_ok (Action.world_eq w)]
  simp only [h, if_true]
  exact Action.bind_ok (Action.report_eq _ w) _

theorem removeStale_ok (h : removeStale m w = (.ok (), w')) : Cleared w.disk w'.disk m := by
  cases hex : w.disk.exists? m with
  | false =>
    rw [removeStale_gone hex] at h
    cases h
    exact ⟨hex, .inl rfl⟩
  | true =>
    rw [removeStale_there hex, Action.onDisk] at h
    rcases hr : Disk.remove m (w.report (.removingStale m)).disk with ⟨result, d'⟩
    rw [hr] at h
    cases result with
    | error e => cases h
    | ok =>
      cases h
      obtain ⟨parent, name, i, hs, hfile, rfl⟩ := remove_ok hr
      exact ⟨exists?_erase hs hfile, .inr ⟨parent, name, i, hs, hfile, rfl⟩⟩

theorem removeStale_error {e : Error} (h : removeStale m w = (.error e, w')) :
    w'.disk = w.disk := by
  cases hex : w.disk.exists? m with
  | false =>
    rw [removeStale_gone hex] at h
    cases h
  | true =>
    rw [removeStale_there hex, Action.onDisk] at h
    rcases hr : Disk.remove m (w.report (.removingStale m)).disk with ⟨result, d'⟩
    rw [hr] at h
    cases result with
    | ok => cases h
    | error e =>
      cases h
      exact remove_error hr

section Reopen

variable {p : Path} {parent : List Name} {name : Name} {no : FileNo} {bs t : Bytes}
  {rs : List Record} {e : Error}

/-- A torn tail is saved, and then cut off. -/
theorem openAfter_torn (h : Site w.disk p parent name no)
    (hc : w.disk.content no = logBytes rs ++ t) (ht : t ≠ []) :
    ∃ d, Appended w.disk d p parent name no ".torn" t ∧
      ((appendOutcome w.disk.limit (w.disk.bytesAt (p.beside ".torn")) t.length = .ok () ∧
        ∃ w', Appender.openAfter p Config.activeFile (logBytes rs).length w =
            (.ok (Appender.behind no (logBytes rs)), w') ∧
          w'.disk = d.setContent no (logBytes rs)) ∨
      ∃ cause, appendOutcome w.disk.limit (w.disk.bytesAt (p.beside ".torn")) t.length =
          .error cause ∧
        Appender.openAfter p Config.activeFile (logBytes rs).length w =
          (.error (.io cause), { w with disk := d })) :=
  Appender.openAfter_cut h hc ht Config.activeFile

theorem openAfter_clean (h : Site w.disk p parent name no) (hc : w.disk.content no = logBytes rs) :
    Appender.openAfter p Config.activeFile (logBytes rs).length w =
      (.ok (Appender.behind no (logBytes rs)), w) := by
  have hwhole := Appender.openAfter_whole h.openWrite_eq (by rw [hc]) Config.activeFile
  rwa [hc] at hwhole

theorem reopen_corrupt (h : w.disk.Holds p no bs) (hp : Parts bs rs t e)
    (he : e.isEndOfLog = false) : reopen p w = (.error (.recoveryFailed e), w) := by
  unfold reopen
  rw [Action.bind_ok (Action.world_eq w), Replay.recover_eq h hp, he]
  rfl

theorem reopen_dir (h : w.disk.lookup p = .ok .dir) :
    reopen p w = (.error (.recoveryFailed (.io .isDirectory)), w) := by
  unfold reopen
  rw [Action.bind_ok (Action.world_eq w), Replay.recover_dir h]
  rfl

/-- Where there is no damage, appending goes on behind the last record. -/
theorem reopen_eq (h : w.disk.Holds p no bs) (hp : Parts bs rs t e) (he : e.isEndOfLog = true) :
    ∃ w₁, w₁.disk = w.disk ∧ (e = .endOfLog → ∃ n k, w₁ = w.report (.recovered p n k
        (Index.replay Config.activeFile ∅ (positions 0 rs)).size)) ∧
      reopen p w = (do
        let a ← Appender.openAfter p Config.activeFile (logBytes rs).length
        return (Index.replay Config.activeFile ∅ (positions 0 rs), a) : Action _) w₁ := by
  have hrecover := Replay.recover_eq h hp Config.activeFile ∅
  rw [he, if_pos rfl] at hrecover
  unfold reopen
  rw [Action.bind_ok (Action.world_eq w), hrecover]
  dsimp only
  rw [Action.bind_ok (Action.report_eq ..)]
  split
  · rename_i htorn
    refine ⟨_, ?_, ?_, Action.bind_ok (Action.report_eq ..) _⟩
    · rfl
    · rintro rfl
      cases htorn
  · refine ⟨_, ?_, fun _ => ⟨_, _, rfl⟩, rfl⟩
    rfl

end Reopen

theorem exists?_of_lookup {d : Disk} {p : Path} {node : Node} (h : d.lookup p = .ok node) :
    d.exists? p = true := by
  rw [exists?, h]
  rfl

theorem isDir_of_gone {d : Disk} {p : Path} (h : d.exists? p = false) : d.isDir p = false := by
  by_contra hdir
  rw [Bool.not_eq_false] at hdir
  unfold isDir at hdir
  split at hdir
  · rw [exists?_of_lookup ‹_›] at h
    cases h
  · cases hdir

section Attach

variable {w₁ w₂ : World} {no : FileNo}

abbrev readied (c : Config) (w : World) : Except Error (Index × Appender) × World :=
  (if w.disk.exists? c.path then reopen c.path else start c.path : Action _) w

theorem attach_of_ready {ix : Index} {a : Appender}
    (hstale : removeStale c.mergePath w = (.ok (), w₁)) (hr : readied c w₁ = (.ok (ix, a), w₂))
    (hl : w₂.disk.lookup c.path = .ok (.file no)) :
    attach c w = (.ok ⟨c, ix, Segments.single ⟨Config.activeFile, .file no⟩, some a⟩, w₂) := by
  have hsegment : Action.ask (Segment.openFile Config.activeFile c.path) w₂ =
      (.ok ⟨Config.activeFile, .file no⟩, w₂) := by
    simp only [Action.ask, Segment.openFile, hl]
  unfold attach
  rw [Action.bind_ok hstale, Action.bind_ok (Action.world_eq w₁)]
  unfold readied at hr
  split at hr <;> rename_i hex
  · rw [if_pos hex]
    exact (Action.bind_ok hr _).trans (Action.bind_ok hsegment _)
  · rw [if_neg hex]
    exact (Action.bind_ok hr _).trans (Action.bind_ok hsegment _)

theorem attach_error_of_ready {e : Error} (hstale : removeStale c.mergePath w = (.ok (), w₁))
    (hr : readied c w₁ = (.error e, w₂)) : attach c w = (.error e, w₂) := by
  unfold attach
  rw [Action.bind_ok hstale, Action.bind_ok (Action.world_eq w₁)]
  unfold readied at hr
  split at hr <;> rename_i hex
  · rw [if_pos hex]
    exact Action.bind_error hr _
  · rw [if_neg hex]
    exact Action.bind_error hr _

theorem readied_of_exists (h : w.disk.exists? c.path = true) : readied c w = reopen c.path w := by
  rw [readied, if_pos h]

theorem attach_of_reopen {ix : Index} {a : Appender}
    (hstale : removeStale c.mergePath w = (.ok (), w₁)) (hex : w₁.disk.exists? c.path = true)
    (hr : reopen c.path w₁ = (.ok (ix, a), w₂)) (hl : w₂.disk.lookup c.path = .ok (.file no)) :
    attach c w = (.ok ⟨c, ix, Segments.single ⟨Config.activeFile, .file no⟩, some a⟩, w₂) :=
  attach_of_ready hstale ((readied_of_exists hex).trans hr) hl

theorem attach_error_of_reopen {e : Error} (hstale : removeStale c.mergePath w = (.ok (), w₁))
    (hex : w₁.disk.exists? c.path = true) (hr : reopen c.path w₁ = (.error e, w₂)) :
    attach c w = (.error e, w₂) :=
  attach_error_of_ready hstale ((readied_of_exists hex).trans hr)

theorem attach_error_of_stale {e : Error} (hstale : removeStale c.mergePath w = (.error e, w₁)) :
    attach c w = (.error e, w₁) :=
  Action.bind_error hstale _

theorem remove_dir {d : Disk} (h : d.lookup m = .ok .dir) :
    d.remove m = (.error .isDirectory, d) := by
  unfold lookup at h
  split at h
  · cases h
  · rename_i hloc
    simp only [remove, hloc]
  · rename_i hloc
    split at h
    · cases h
    · cases h
    · split at h <;> cases h
    · rename_i hentry
      simp only [remove, hloc, hentry]

theorem removeStale_isDirectory (hm : w.disk.isDir m = true) :
    removeStale m w = (.error (.io .isDirectory), w.report (.removingStale m)) := by
  have hlook : w.disk.lookup m = .ok .dir := by
    unfold isDir at hm
    split at hm
    · assumption
    · cases hm
  rw [removeStale_there (exists?_of_lookup hlook)]
  exact Action.onDisk_error (remove_dir hlook)

theorem removeStale_dir (hm : w.disk.isDir m = true) :
    ∃ e w₁, removeStale m w = (.error e, w₁) := ⟨_, _, removeStale_isDirectory hm⟩

theorem removeStale_seat {parent : List Name} {name : Name} (hs : Seats w.disk m parent name)
    (hn : w.disk.tree[parent ++ [name]]? ≠ some .dir) :
    ∃ v, removeStale m w = (.ok (), v) ∧ v.clock = w.clock ∧
      Erased w.disk v.disk (parent ++ [name]) := by
  have hex := hs.exists?_eq
  have hremove := hs.remove_eq
  cases hx : w.disk.tree[parent ++ [name]]? with
  | none =>
    rw [hx] at hex
    exact ⟨w, removeStale_gone hex, rfl, erased_of_none hx⟩
  | some node =>
    rw [hx] at hex hremove hn
    cases node with
    | dir => exact absurd rfl hn
    | file i =>
      rw [removeStale_there hex]
      exact ⟨_, Action.onDisk_ok hremove, rfl, erased_erase ..⟩

theorem removeStale_beside {p : Path} {parent : List Name} {name : Name}
    (h : Seats w.disk p parent name) (hm : w.disk.isDir (p.beside ".merge") = false) :
    ∃ w₁, removeStale (p.beside ".merge") w = (.ok (), w₁) := by
  cases hl : (p.beside ".merge").tooLong with
  | true =>
    refine ⟨w, removeStale_gone ?_⟩
    rw [exists?, (h.tooLong_beside isEnding_merge hl).1]
    rfl
  | false =>
    have hs := h.beside isEnding_merge hl
    have hdir : w.disk.tree[parent ++ [name ++ ".merge".toList]]? ≠ some .dir := by
      intro hdir
      rw [isDir, hs.lookup_eq, hdir] at hm
      cases hm
    obtain ⟨v, hstale, -⟩ := removeStale_seat hs hdir
    exact ⟨v, hstale⟩

theorem removeStale_site {p : Path} {parent : List Name} {name : Name}
    (h : Site w.disk p parent name no) (hm : w.disk.isDir (p.beside ".merge") = false) :
    ∃ w₁, removeStale (p.beside ".merge") w = (.ok (), w₁) := removeStale_beside h.seat hm

/-- Once a stale merge file is gone, it makes no difference that it was there. -/
theorem attach_cleared (h : removeStale c.mergePath w = (.ok (), w₁)) :
    attach c w = attach c w₁ := by
  have hgone := removeStale_gone (removeStale_ok h).gone
  unfold attach
  rw [Action.bind_ok h, Action.bind_ok hgone]

variable {t : Bytes} {rs : List Record} {e : Error} {parent : List Name} {name : Name}

theorem holds_cleared {d d' : Disk} {p : Path} {bs : Bytes} (hcl : Cleared d d' (p.beside ".merge"))
    (hs : Site d p parent name no) (hc : d.content no = bs) : d'.Holds p no bs := by
  have hs' := hcl.site hs
  exact ⟨hs'.sound, hs'.lookup_eq, (hcl.content_eq no).trans hc⟩

/-- Damage is refused, and only a stale merge file has gone. -/
theorem attach_corrupt (hs : Site w.disk c.path parent name no)
    (hp : Parts (w.disk.content no) rs t e) (hm : w.disk.isDir c.mergePath = false)
    (he : e.isEndOfLog = false) :
    ∃ w', attach c w = (.error (.recoveryFailed e), w') ∧ Cleared w.disk w'.disk c.mergePath := by
  obtain ⟨w₁, hstale⟩ := removeStale_site hs hm
  have hcl := removeStale_ok hstale
  have hh := holds_cleared hcl hs rfl
  exact ⟨w₁, attach_error_of_reopen hstale (exists?_of_lookup hh.lookup)
    (reopen_corrupt hh hp he), hcl⟩

theorem attach_clean (hs : Site w.disk c.path parent name no)
    (hp : Parts (w.disk.content no) rs [] e) (hm : w.disk.isDir c.mergePath = false) :
    ∃ w', attach c w = (.ok (onLog c no rs), w') ∧ w'.disk.LogAt c.path no rs ∧
      Cleared w.disk w'.disk c.mergePath := by
  obtain ⟨w₁, hstale⟩ := removeStale_site hs hm
  have hcl := removeStale_ok hstale
  have hh := holds_cleared hcl hs (hp.eq.trans (List.append_nil _))
  obtain ⟨w₂, hdisk, -, hreopen⟩ := reopen_eq hh (.of_records hp.fits) rfl
  rw [← hdisk] at hcl hh
  have hs₂ := hcl.site hs
  rw [Action.bind_ok (openAfter_clean hs₂ hh.content)] at hreopen
  exact ⟨w₂, attach_of_reopen hstale (exists?_of_lookup (hdisk ▸ hh.lookup)) hreopen hs₂.lookup_eq,
    ⟨hh, hp.fits, hcl.gone⟩, hcl⟩

theorem logAt_cut {d d' : Disk} {p : Path} (happ : Appended d d' p parent name no ".torn" t)
    (hp : Parts (d.content no) rs t e) (hgone : d.exists? (p.beside ".merge") = false) :
    (d'.setContent no (logBytes rs)).LogAt p no rs ∧
      (d'.setContent no (logBytes rs)).bytesAt (p.beside ".torn") =
        d'.bytesAt (p.beside ".torn") := by
  obtain ⟨hcut, hs, hkept⟩ := Appender.site_cut happ hp.eq
  refine ⟨⟨⟨hs.sound, hs.lookup_eq, content_setContent_self ..⟩, hp.fits, ?_⟩, hkept⟩
  rw [LogAt.exists?_congr hcut.tree, exists?, (happ.others isEnding_merge (by decide)).1]
  exact hgone

/-- A torn tail is saved beside the log and cut off, or opening fails and has cut nothing. -/
theorem attach_torn (hs : Site w.disk c.path parent name no)
    (hp : Parts (w.disk.content no) rs t e) (hm : w.disk.isDir c.mergePath = false)
    (he : e.isEndOfLog = true) (ht : t ≠ []) :
    ∃ w', (appendOutcome w.disk.limit (w.disk.bytesAt (c.path.beside ".torn")) t.length = .ok () ∧
          attach c w = (.ok (onLog c no rs), w') ∧ w'.disk.LogAt c.path no rs ∧
          w'.disk.bytesAt (c.path.beside ".torn") =
            .ok (w.disk.found (c.path.beside ".torn") ++ t)) ∨
        ∃ cause, appendOutcome w.disk.limit (w.disk.bytesAt (c.path.beside ".torn")) t.length =
            .error cause ∧
          attach c w = (.error (.io cause), w') ∧
          w'.disk.Holds c.path no (w.disk.content no) ∧
          ∀ old, w.disk.bytesAt (c.path.beside ".torn") = .ok old →
            ∃ n, w'.disk.bytesAt (c.path.beside ".torn") = .ok (old ++ t.take n) := by
  obtain ⟨w₁, hstale⟩ := removeStale_site hs hm
  have hcl := removeStale_ok hstale
  have hh := holds_cleared hcl hs rfl
  have hex := exists?_of_lookup hh.lookup
  obtain ⟨w₂, hdisk, -, hreopen⟩ := reopen_eq hh hp he
  rw [← hdisk] at hcl hh
  have hp₂ : Parts (w₂.disk.content no) rs t e := by rwa [hh.content]
  have htorn := (hcl.sameBeside hs isEnding_torn (by decide)).2
  have hfound : w₂.disk.found (c.path.beside ".torn") = w.disk.found (c.path.beside ".torn") := by
    rw [found, found, htorn]
  obtain ⟨d, happ, hout⟩ := openAfter_torn (hcl.site hs) hp₂.eq ht
  rw [← htorn, ← hcl.limit_eq]
  rcases hout with ⟨hok, w', hafter, hw'⟩ | ⟨cause, herr, hafter⟩
  · rw [Action.bind_ok hafter] at hreopen
    obtain ⟨hlog, hkept⟩ := logAt_cut happ hp₂ hcl.gone
    rw [← hw'] at hlog hkept
    refine ⟨w', .inl ⟨hok, attach_of_reopen hstale hex hreopen hlog.holds.lookup, hlog, ?_⟩⟩
    rw [hkept, happ.whole hok, hfound]
  · rw [Action.bind_error hafter] at hreopen
    have hkept : d.Holds c.path no (w.disk.content no) :=
      ⟨happ.site.sound, happ.site.lookup_eq, happ.content.trans hh.content⟩
    exact ⟨_, .inr ⟨cause, herr, attach_error_of_reopen hstale hex hreopen, hkept,
      fun old hold => happ.kept hold⟩⟩

/-- Where there is no damage, the log is opened behind its last record, with what follows
that saved; or the saving fails, and nothing is cut. -/
theorem attach_recovers (hs : Site w.disk c.path parent name no)
    (hp : Parts (w.disk.content no) rs t e) (hm : w.disk.isDir c.mergePath = false)
    (he : e.isEndOfLog = true) :
    ∃ w', (attach c w = (.ok (onLog c no rs), w') ∧ w'.disk.LogAt c.path no rs ∧
          (t = [] → w'.disk.bytesAt (c.path.beside ".torn") =
            w.disk.bytesAt (c.path.beside ".torn")) ∧
          (t ≠ [] → w'.disk.bytesAt (c.path.beside ".torn") =
            .ok (w.disk.found (c.path.beside ".torn") ++ t))) ∨
        ∃ cause, t ≠ [] ∧
          appendOutcome w.disk.limit (w.disk.bytesAt (c.path.beside ".torn")) t.length =
            .error cause ∧
          attach c w = (.error (.io cause), w') ∧
          w'.disk.Holds c.path no (w.disk.content no) ∧
          ∀ old, w.disk.bytesAt (c.path.beside ".torn") = .ok old →
            ∃ n, w'.disk.bytesAt (c.path.beside ".torn") = .ok (old ++ t.take n) := by
  by_cases ht : t = []
  · subst ht
    obtain ⟨w', hok, hlog, hcl⟩ := attach_clean hs hp hm
    exact ⟨w', .inl ⟨hok, hlog, fun _ => (hcl.sameBeside hs isEnding_torn (by decide)).2,
      fun h => absurd rfl h⟩⟩
  · obtain ⟨w', ⟨-, hok, hlog, hsaved⟩ | ⟨cause, herr, hrest⟩⟩ := attach_torn hs hp hm he ht
    · exact ⟨w', .inl ⟨hok, hlog, fun h => absurd h ht, fun _ => hsaved⟩⟩
    · exact ⟨w', .inr ⟨cause, ht, herr, hrest⟩⟩

/-- Where opening fails, for whatever reason, the log is where and as it was, and of what was
saved before nothing is gone. -/
theorem attach_refused (hs : Site w.disk c.path parent name no) {cause : Error}
    (h : attach c w = (.error cause, w')) :
    w'.disk.Holds c.path no (w.disk.content no) ∧
      ∀ old, w.disk.bytesAt (c.path.beside ".torn") = .ok old →
        ∃ more, w'.disk.bytesAt (c.path.beside ".torn") = .ok (old ++ more) := by
  have cleared : Cleared w.disk w'.disk c.mergePath →
      w'.disk.Holds c.path no (w.disk.content no) ∧
        ∀ old, w.disk.bytesAt (c.path.beside ".torn") = .ok old →
          ∃ more, w'.disk.bytesAt (c.path.beside ".torn") = .ok (old ++ more) := by
    intro hcl
    refine ⟨holds_cleared hcl hs rfl, fun old hold => ⟨[], ?_⟩⟩
    rw [(hcl.sameBeside hs isEnding_torn (by decide)).2, hold, List.append_nil]
  cases hm : w.disk.isDir c.mergePath with
  | true =>
    obtain ⟨e, w₁, hstale⟩ := removeStale_dir hm
    cases h.symm.trans (attach_error_of_stale hstale)
    rw [removeStale_error hstale]
    exact ⟨⟨hs.sound, hs.lookup_eq, rfl⟩, fun old hold => ⟨[], by rw [hold, List.append_nil]⟩⟩
  | false =>
    obtain ⟨rs, t, e, hp⟩ := exists_parts (w.disk.content no)
    cases he : e.isEndOfLog with
    | false =>
      obtain ⟨w₁, herr, hcl⟩ := attach_corrupt hs hp hm he
      cases h.symm.trans herr
      exact cleared hcl
    | true =>
      obtain ⟨w₁, ⟨hok, -⟩ | ⟨cause, -, -, herr, hheld, htorn⟩⟩ := attach_recovers hs hp hm he
      · cases h.symm.trans hok
      · cases h.symm.trans herr
        refine ⟨hheld, fun old hold => ?_⟩
        obtain ⟨n, hn⟩ := htorn old hold
        exact ⟨_, hn⟩

theorem start_ok {w₁ w₂ : World} {ix : Index} {a : Appender} {node : IoError}
    (hd : w₁.disk.Sound) (hl : w₁.disk.lookup c.path = .error node)
    (hgone : w₁.disk.exists? c.mergePath = false) (h : start c.path w₁ = (.ok (ix, a), w₂)) :
    ∃ parent name, Seats w₁.disk c.path parent name ∧
      w₁.disk.tree[parent ++ [name]]? = none ∧ ix = ∅ ∧
      a = Appender.behind w₁.disk.fresh [] ∧ w₂.disk.LogAt c.path w₁.disk.fresh [] := by
  unfold start at h
  rw [Action.bind_ok (Action.report_eq _ w₁)] at h
  rcases hopen : (w₁.report (.creating c.path)).disk.openWrite c.path with ⟨_ | i, d⟩
  · rw [Action.bind_error (Appender.openEnd_error hopen)] at h
    cases h
  · obtain ⟨parent, name, hs⟩ : ∃ parent name, Seats w₁.disk c.path parent name :=
      seats_of_openWrite hopen
    have hnone : w₁.disk.tree[parent ++ [name]]? = none := by
      rw [hs.lookup_eq] at hl
      split at hl
      · assumption
      · cases hl
    have heq := hs.openWrite_eq
    rw [hnone] at heq
    have hmade := heq.symm.trans hopen
    simp only [Prod.mk.injEq, Except.ok.injEq] at hmade
    obtain ⟨rfl, rfl⟩ := hmade
    rw [Action.bind_ok (Appender.openEnd_ok hopen)] at h
    cases h
    have hs' := hs.of_dirs (keepsDirs_create hnone)
    have hmerge := hs.lookup_beside_congr hs' isEnding_merge (by
      rw [getElem?_create, if_neg (Ne.symm (beside_ne parent name isEnding_merge))])
    refine ⟨parent, name, hs, hnone, rfl, ?_,
      ⟨hd.create .., ?_, content_create_self ..⟩, by simp, ?_⟩
    · rw [content_create_self]
    · change (w₁.disk.create parent name).2.lookup c.path = _
      rw [hs'.lookup_eq, getElem?_create, if_pos rfl]
    · change ((w₁.disk.create parent name).2.lookup (c.path.beside ".merge")).isOk = false
      rw [hmerge]
      exact hgone

theorem isDir_of_removeStale (hstale : removeStale m w = (.ok (), w₁)) :
    w.disk.isDir m = false := by
  by_contra hdir
  rw [Bool.not_eq_false] at hdir
  obtain ⟨e, w₂, herr⟩ := removeStale_dir hdir
  cases hstale.symm.trans herr

theorem attach_started {s : Store} {cause : IoError} (hd : w.disk.Sound)
    (hstale : removeStale c.mergePath w = (.ok (), w₁))
    (hl : w₁.disk.lookup c.path = .error cause) (h : attach c w = (.ok s, w')) :
    ∃ no, w.disk.found c.path = [] ∧ s = onLog c no [] ∧ w'.disk.LogAt c.path no [] := by
  have hcl := removeStale_ok hstale
  have hex : ¬ w₁.disk.exists? c.path = true := by
    rw [exists?, hl]
    exact Bool.false_ne_true
  have hready : readied c w₁ = start c.path w₁ := by rw [readied, if_neg hex]
  rcases hst : start c.path w₁ with ⟨_ | ⟨ix, a⟩, w₂⟩
  · rw [attach_error_of_ready hstale (hready.trans hst)] at h
    cases h
  · obtain ⟨parent, name, hs, hnone, rfl, rfl, hlog⟩ := start_ok (hcl.sound hd) hl hcl.gone hst
    rw [attach_of_ready hstale (hready.trans hst) hlog.holds.lookup] at h
    cases h
    have hs₀ := hs.of_dirs hcl.keepsDirs_back
    refine ⟨w₁.disk.fresh, ?_, rfl, hlog⟩
    rw [found, bytesAt, hs₀.lookup_eq, ← hcl.tree_beside hs₀
      (Ne.symm (beside_ne parent name isEnding_merge)), hnone]
    rfl

/-- An opened store is that of the records at the front of what was found at its path. -/
theorem attach_ok {s : Store} (hd : w.disk.Sound) (h : attach c w = (.ok s, w')) :
    ∃ no rs t e, Parts (w.disk.found c.path) rs t e ∧ s = onLog c no rs ∧
      w'.disk.LogAt c.path no rs := by
  rcases hstale : removeStale c.mergePath w with ⟨_ | _, w₁⟩
  · rw [attach_error_of_stale hstale] at h
    cases h
  have hcl := removeStale_ok hstale
  have hm : w.disk.isDir c.mergePath = false := isDir_of_removeStale hstale
  cases hl : w₁.disk.lookup c.path with
  | error cause =>
    obtain ⟨no, hempty, rfl, hlog⟩ := attach_started hd hstale hl h
    refine ⟨no, [], [], .endOfLog, ?_, rfl, hlog⟩
    rw [hempty]
    exact ⟨rfl, by simp, rfl⟩
  | ok node =>
    cases node with
    | dir =>
      rw [attach_error_of_reopen hstale (exists?_of_lookup hl) (reopen_dir hl)] at h
      cases h
    | file no =>
      obtain ⟨parent, name, hs₁⟩ := site_of_lookup (hcl.sound hd) hl
      have hs : Site w.disk c.path parent name no :=
        ⟨hd, hs₁.seat.of_dirs hcl.keepsDirs_back, hcl.tree_of hs₁.file⟩
      have hfound : w.disk.found c.path = w.disk.content no := by
        rw [found, bytesAt_file hs.lookup_eq]
        rfl
      obtain ⟨rs, t, e, hp⟩ := exists_parts (w.disk.content no)
      rw [hfound]
      cases he : e.isEndOfLog with
      | false =>
        obtain ⟨w₂, herr, -⟩ := attach_corrupt hs hp hm he
        cases h.symm.trans herr
      | true =>
        obtain ⟨w₂, ⟨hok, hlog, -⟩ | ⟨cause, -, -, herr, -⟩⟩ := attach_recovers hs hp hm he
        · cases h.symm.trans hok
          exact ⟨no, rs, t, e, hp, rfl, hlog⟩
        · cases h.symm.trans herr

end Attach

theorem openWith_invalid {e : Error} (h : c.validate w.disk = .error e) :
    openWith c w = (.error e, w) := by
  have hask : Action.ask c.validate w = (.error e, w) := by rw [Action.ask, h]
  exact Action.bind_error hask _

theorem openWith_of_seat {parent : List Name} {name : Name} (hs : Seats w.disk c.path parent name)
    (h : c.validate w.disk = .ok ()) : openWith c w = attach c w := by
  have hask : Action.ask c.validate w = (.ok (), w) := by rw [Action.ask, h]
  unfold openWith
  rw [Action.bind_ok hask]
  split
  · exact Action.bind_ok (Action.onDisk_ok hs.createDirs_parent) _
  · rfl

theorem validate_of_seat {parent : List Name} {name : Name} (hs : Seats w.disk c.path parent name)
    (hdir : w.disk.tree[parent ++ [name]]? ≠ some .dir) : c.validate w.disk = .ok () := by
  have hne : c.path ≠ [] := by
    intro hnil
    have hloc := hs.located
    rw [hnil] at hloc
    cases hloc
  have hfile : w.disk.isDir c.path = false := by
    rw [isDir, hs.lookup_eq]
    rcases hn : w.disk.tree[parent ++ [name]]? with _ | node
    · rfl
    · cases node with
      | dir => exact absurd hn hdir
      | file => rfl
  simp [Config.validate, hne, hfile]

theorem openWith_eq {parent : List Name} {name : Name} {no : FileNo}
    (hs : Site w.disk c.path parent name no) : openWith c w = attach c w := by
  refine openWith_of_seat hs.seat (validate_of_seat hs.seat ?_)
  rw [hs.file]
  rintro ⟨⟩

/-- Opening begins with the removal of a stale merge file. -/
theorem openWith_cleared {w₁ : World} {parent : List Name} {name : Name}
    (hs : Seats w.disk c.path parent name) (hdir : w.disk.tree[parent ++ [name]]? ≠ some .dir)
    (h : removeStale c.mergePath w = (.ok (), w₁)) : openWith c w = openWith c w₁ := by
  have hcl := removeStale_ok h
  have hs₁ := hs.of_dirs hcl.keepsDirs
  have hdir₁ : w₁.disk.tree[parent ++ [name]]? ≠ some .dir := fun hn => hdir (hcl.tree_of hn)
  rw [openWith_of_seat hs (validate_of_seat hs hdir), attach_cleared h,
    openWith_of_seat hs₁ (validate_of_seat hs₁ hdir₁)]

/-- The bytes at the path of the log, once the directories above it are there. -/
def initialLog (c : Config) (d : Disk) : Bytes :=
  (if c.createDirs then (createDirs c.path.parent d).2 else d).found c.path

/-- Whatever was there, a store that has opened is that of the records found. -/
theorem openWith_ok {s : Store} (hd : w.disk.Sound) (h : openWith c w = (.ok s, w')) :
    ∃ no rs t e, Parts (initialLog c w.disk) rs t e ∧ s = onLog c no rs ∧
      w'.disk.LogAt c.path no rs := by
  rcases hv : c.validate w.disk with cause | _
  · rw [openWith_invalid hv] at h
    cases h
  have hask : Action.ask c.validate w = (.ok (), w) := by rw [Action.ask, hv]
  unfold openWith at h
  rw [Action.bind_ok hask] at h
  unfold initialLog
  split at h <;> rename_i hc
  · rw [if_pos hc]
    have hmore := moreDirs_createDirs c.path.parent w.disk
    rcases hcreate : createDirs c.path.parent w.disk with ⟨_ | _, d⟩
    · rw [Action.bind_error (Action.onDisk_error hcreate)] at h
      cases h
    · rw [Action.bind_ok (Action.onDisk_ok hcreate)] at h
      rw [hcreate] at hmore
      exact attach_ok (hmore.sound hd) h
  · rw [if_neg hc]
    exact attach_ok hd h

/-- A log as a store leaves it is opened again as it is. -/
theorem openWith_eq_report {no : FileNo} {rs : List Record} (h : w.disk.LogAt c.path no rs) :
    ∃ n k, openWith c w = (.ok (onLog c no rs),
      w.report (.recovered c.path n k (onLog c no rs).keyCount)) := by
  obtain ⟨parent, name, hs⟩ := site_of_lookup h.holds.sound h.holds.lookup
  obtain ⟨w₁, hdisk, hreport, hreopen⟩ := reopen_eq h.holds (.of_records h.fits) rfl
  rw [Action.bind_ok (openAfter_clean (hdisk ▸ hs) (hdisk ▸ h.holds.content))] at hreopen
  obtain ⟨n, k, rfl⟩ := hreport rfl
  refine ⟨n, k, ?_⟩
  rw [openWith_eq hs]
  exact attach_of_reopen (removeStale_gone h.quiet) (exists?_of_lookup h.holds.lookup) hreopen
    h.holds.lookup

theorem openWith_logAt {no : FileNo} {rs : List Record} (h : w.disk.LogAt c.path no rs) :
    ∃ w', openWith c w = (.ok (onLog c no rs), w') ∧ w'.disk = w.disk := by
  obtain ⟨n, k, hopen⟩ := openWith_eq_report h
  exact ⟨_, hopen, rfl⟩

theorem openWith_vacant {parent : List Name} {name : Name} (hd : w.disk.Sound)
    (hs : Seats w.disk c.path parent name) (hnone : w.disk.tree[parent ++ [name]]? = none)
    (hgone : w.disk.exists? c.mergePath = false) :
    ∃ d, openWith c w = (.ok (onLog c w.disk.fresh []),
        World.report { w with disk := d } (.creating c.path)) ∧
      d.limit = w.disk.limit ∧ d.LogAt c.path w.disk.fresh [] := by
  have hopen : (w.report (.creating c.path)).disk.openWrite c.path =
      (.ok w.disk.fresh, (w.disk.create parent name).2) := by
    change w.disk.openWrite c.path = _
    rw [hs.openWrite_eq, hnone]
  have hstart : start c.path w = (.ok (∅, Appender.behind w.disk.fresh []),
      World.report { w with disk := (w.disk.create parent name).2 } (.creating c.path)) := by
    unfold start
    rw [Action.bind_ok (Action.report_eq _ w), Action.bind_ok (Appender.openEnd_ok hopen),
      content_create_self]
    rfl
  have hl : w.disk.lookup c.path = .error .noEntry := by rw [hs.lookup_eq, hnone]
  have hex : ¬ w.disk.exists? c.path = true := by
    rw [exists?, hl]
    exact Bool.false_ne_true
  obtain ⟨-, -, -, -, -, -, hlog⟩ := start_ok hd hl hgone hstart
  have hready : readied c w = start c.path w := by rw [readied, if_neg hex]
  refine ⟨(w.disk.create parent name).2, ?_, rfl, hlog⟩
  rw [openWith_of_seat hs (validate_of_seat hs (by rw [hnone]; rintro ⟨⟩))]
  exact attach_of_ready (removeStale_gone hgone) (hready.trans hstart) hlog.holds.lookup

end Store

end LogStore
