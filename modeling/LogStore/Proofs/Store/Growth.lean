import LogStore.Proofs.Store.MergeFrame

/-! While a store stands over its log, no file on the disk loses a byte. What is appended goes
behind the bytes that are there, what a limit cuts short is taken back no further than to
where it began, and a merge writes to a file of its own. -/

namespace LogStore

open Disk

namespace Disk

/-- All files are there still, with more behind their bytes at most, whatever their names. -/
structure Grows (d d' : Disk) : Prop where
  fresh : d.fresh ≤ d'.fresh
  content : ∀ i, i < d.fresh → d.content i <+: d'.content i

namespace Grows

variable {d d' d'' : Disk} {no k : FileNo} {place : List Name}

theorem refl (d : Disk) : Grows d d := ⟨le_rfl, fun _ _ => List.prefix_refl _⟩

theorem trans (h : Grows d d') (h' : Grows d' d'') : Grows d d'' :=
  ⟨h.fresh.trans h'.fresh, fun i hi =>
    (h.content i hi).trans (h'.content i (hi.trans_le h.fresh))⟩

theorem of_files (hc : d'.files = d.files) (hf : d'.fresh = d.fresh) : Grows d d' :=
  ⟨hf.ge, fun i _ => by rw [Disk.content, Disk.content, hc]⟩

theorem of_only (ho : Only no d d') (hc : d.content no <+: d'.content no) : Grows d d' := by
  refine ⟨ho.fresh.ge, fun i _ => ?_⟩
  by_cases hi : i = no
  · exact hi ▸ hc
  · rw [ho.others i hi]

theorem of_put (hp : Put d d' place k) (h : d.tree[place]? = none) : Grows d d' := by
  refine ⟨hp.fresh, fun i hi => ?_⟩
  rw [hp.others i hi (hp.eq_fresh h ▸ hi.ne)]

end Grows

end Disk

variable {p : Path} {no : FileNo} {rs : List Record} {bs : Bytes} {c : Config} {w : World}

theorem Appender.grows_append (h : w.disk.Holds p no bs) (r : Record) :
    Grows w.disk ((Appender.behind no bs).append r w).2.2.disk := by
  cases he : r.encode with
  | error e =>
    rw [append_misfit he]
    exact .refl _
  | ok front =>
    have hr := (Record.encode_eq_ok_iff.mp he).1
    rcases Nat.lt_or_ge (ceiling w.disk.limit) (bs.length + r.encodedLen) with hfull | hroom
    · obtain ⟨d, hx, ho, hheld⟩ := append_full h hr hfull
      rw [hx]
      exact .of_only ho (by rw [h.content, hheld.content])
    · obtain ⟨d, hx, ho, hheld⟩ := append_ok h hr hroom
      rw [hx]
      refine .of_only ho ?_
      rw [h.content, hheld.content]
      exact List.prefix_append _ _

namespace Store

theorem grows_set (h : w.disk.LogAt p no rs) (key value : Bytes) :
    Grows w.disk ((onLog c no rs).set key value w).2.2.disk := by
  have ha := Appender.grows_append h.holds ⟨w.now, key, value⟩
  simp only [set, onLog]
  split
  · exact .refl _
  · split <;> rename_i hx <;> rw [hx] at ha
    · exact ha
    · exact ha

theorem grows_delete (h : w.disk.LogAt p no rs) (key : Bytes) :
    Grows w.disk ((onLog c no rs).delete key w).2.2.disk := by
  have ha := Appender.grows_append h.holds (.tombstone key w.now)
  cases hk : (Contents.ofLog rs).contains key with
  | false =>
    rw [delete_absent hk]
    exact .refl _
  | true =>
    have hk' := (contains_onLog c no rs key).trans hk
    simp only [onLog] at hk'
    simp only [delete, onLog, hk', if_true]
    split <;> rename_i hx <;> rw [hx] at ha
    · exact ha
    · exact ha

theorem grows_merge (h : w.disk.LogAt c.path no rs) :
    Grows w.disk ((onLog c no rs).merge w).2.2.disk := by
  rcases hx : (onLog c no rs).merge w with ⟨x, s', w'⟩
  rcases merge_frame h.holds.sound.numbered rfl hx with ⟨e, -, -, -, hdisk, -⟩ |
    ⟨parent, name, k, d, hs, hput, hend⟩
  · dsimp only
    rw [hdisk]
    exact .refl _
  · have hmade : Grows w.disk d := .of_put hput (hs.exists?_eq_false_iff.mp h.quiet)
    rcases hend with ⟨e, -, -, herased, -⟩ | ⟨-, hfiles, hfresh⟩
    · exact hmade.trans (.of_files herased.files herased.fresh)
    · exact hmade.trans (.of_files hfiles hfresh)

theorem grows_askStore (h : w.disk.LogAt c.path no rs) (r : Request) :
    Grows w.disk (r.askStore (onLog c no rs) w).2.2.disk := by
  cases r with
  | set key value => exact grows_set h key value
  | delete key => exact grows_delete h key
  | merge => exact grows_merge h
  | get | close | logSize | openWith | drop => exact .refl _

theorem Stands.grows {m : Ideal} {slot : Option Store} {t : Turn} (h : Stands p m slot w)
    (hstay : t.request.StaysAt p) : Grows w.disk (t.run slot w).2.2.disk := by
  have henter : Grows w.disk (t.enter w).disk := .of_files rfl rfl
  replace h := h.enter t
  refine henter.trans ?_
  unfold Turn.run
  cases hr : t.request with
  | openWith c =>
    rw [hr] at hstay
    have hc : c.path = p := hstay
    subst hc
    obtain ⟨no, rs, phase, hlog, -⟩ := h.log
    obtain ⟨w', hopen, hdisk⟩ := openWith_logAt hlog
    simp only [Request.run, hopen, hdisk]
    exact .refl _
  | drop => cases h <;> exact .refl _
  | get | set | delete | merge | close | logSize =>
    cases h with
    | absent h => exact .refl _
    | opened hc h =>
      subst hc
      have hask := grows_askStore h t.request
      rw [hr] at hask
      exact hask
    | closed h =>
      simp only [Request.run, askStore_shut]
      exact .refl _

end Store

end LogStore
