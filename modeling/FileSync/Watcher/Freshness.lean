import FileSync.Watcher.Model

/-!
# Watcher — the record of a file and its content

Whether a file is read again is decided by its size and by the second in which it was written:
`NeedsUpdate` has nothing else to compare, and the database has no other trace of the content.

* `Version.stamp` is what is compared; `Told u v` says that a change from `u` to `v` shows in it, or
  does not change the Merkle root.
* `Apart p s e` says that `e` does not write the file at `p` while a flush is past looking at it.
* `Good` follows the record of the file through the stages of a flush, and `good_step` and
  `good_finish` are its rules.
* `fresh_iff`: in a run whose writes are apart, the record has the size and the root of the content
  whenever a flush that had the file ends, if and only if the contents at the ends of successive
  such flushes are told apart.
* `rewrite_within_second`: a file is rewritten with as many bytes in the same second.
-/

open Transition

namespace FileSync.Watcher

open Db (FileRow)

/-! ### Versions of a file -/

/-- The Merkle root of a content. -/
def merkleRootOf (content : Bytes) : Bytes :=
  computeMerkleRoot ((Cas.chunksOf content).map Cas.Chunk.hash)

/-- What `NeedsUpdate` compares. -/
def Version.stamp (v : Version) : ℤ × ℤ := (v.content.length, Db.unix v.modTime)

/-- The step from `u` to `v` shows in the stamp, or does not show in the Merkle root. -/
def Told (u v : Version) : Prop :=
  u.stamp = v.stamp → merkleRootOf u.content = merkleRootOf v.content

namespace State

def version (s : State) (p : Path) : Option Version :=
  match s.fs.lookup p with
  | some (.file v) => some v
  | _ => none

/-- A flush runs that had the path pending. -/
def Flushing (s : State) (p : Path) : Prop := ∃ f, s.flush = some f ∧ p ∈ f.paths

/-- It has looked at the file. -/
def Visited (s : State) (p : Path) : Prop := ∃ f, s.flush = some f ∧ p ∈ f.paths ∧ p ∉ f.todo

end State

/-- The record of the file is that of its content. -/
def Fresh (p : Path) (s : State) : Prop :=
  ∃ v row, s.version p = some v ∧ s.row p = some row ∧ row.size = v.content.length ∧
    row.merkleRoot = merkleRootOf v.content

/-- The event leaves the file alone, or writes it while no flush is past looking at it. -/
def Apart (p : Path) (s : State) : Event → Prop
  | .change c => ∀ fs, c.apply s.fs = some fs →
      fs.lookup p = s.fs.lookup p ∨ fs.isFile p ∧ ¬ s.Visited p
  | _ => True

-- Whether a path is among those of a flush is decided through this instance.
local instance : LawfulBEq Path := inferInstance

/-- The version of the file at the end of a flush that had it pending. -/
def seen (p : Path) (s : State) : Event → List Version
  | .finish =>
    match s.flush with
    | some f => if p ∈ f.paths then (s.version p).toList else []
    | none => []
  | _ => []

/-! ### A flush and one file -/

/-- The row is the record of the version, or there is none of either. -/
def Recorded : Option Version → Option FileRow → Prop
  | none, row => row = none
  | some v, row => ∃ r, row = some r ∧ r.size = v.content.length ∧ r.modTime = Db.unix v.modTime ∧
      r.merkleRoot = merkleRootOf v.content

/-- The stamp is not the one of the version that is recorded. -/
def New (prev : Option Version) (v : Version) : Prop := ∀ u, prev = some u → u.stamp ≠ v.stamp

/-- Where the running flush is with the file. -/
inductive Phase
  | idle
  | working (stage : Stage)
  | done

namespace State

def phase (s : State) (p : Path) : Phase :=
  match s.flush with
  | none => .idle
  | some f =>
    if p ∈ f.paths ∧ p ∉ f.todo then
      match f.job with
      | some (q, stage) => if q = p then .working stage else .done
      | none => .done
    else .idle

/-- The paths a flush is at and those to come are paths it has taken. -/
def WF (s : State) : Prop :=
  ∀ f, s.flush = some f → f.todo ⊆ f.paths ∧
    ∀ q stage, f.job = some (q, stage) → q ∈ f.paths ∧ q ∉ f.todo

end State

/-- What is known of the row, where the file has the version `v` now and had `prev` when the last
flush ended. -/
def Fits (prev : Option Version) (v : Version) (row : Option FileRow) : Phase → Prop
  | .idle => Recorded prev row
  | .working (.check info) => info = v.info ∧ Recorded prev row
  | .working (.chunk info) => info = v.info ∧ New prev v
  | .working (.commit info chunks) => info = v.info ∧ chunks = Cas.chunksOf v.content ∧ New prev v
  | .working .delete => False
  | .done => Recorded (some v) row ∧ New prev v ∨
      ∃ u, prev = some u ∧ u.stamp = v.stamp ∧ Recorded prev row

structure Good (p : Path) (prev : Option Version) (s : State) : Prop where
  wf : s.WF
  fits : ∃ v, s.version p = some v ∧ Fits prev v (s.row p) (s.phase p)

theorem State.version_eq_some {s : State} {p : Path} {v : Version} :
    s.version p = some v ↔ s.fs.lookup p = some (.file v) := by
  rw [State.version]
  split
  · next w h => rw [h]; simp
  · next h => exact iff_of_false (by simp) (h v)

theorem State.phase_of_not_visited {s : State} {p : Path} (h : ¬ s.Visited p) :
    s.phase p = .idle := by
  rw [State.phase]
  split
  · rfl
  · next f hf => exact if_neg fun hp => h ⟨f, hf, hp⟩

/-- The stages of another file leave the phase of this one. -/
theorem State.phase_other {s s' : State} {p q : Path} {f : Flush} (hne : q ≠ p)
    (hs : s.flush = some f) (hjob : ∀ q' stage, f.job = some (q', stage) → q' = q)
    {todo : List Path} (htodo : p ∈ todo ↔ p ∈ f.todo) {job : Option (Path × Stage)}
    (hs' : s'.flush = some ⟨f.paths, todo, job⟩)
    (hjob' : ∀ q' stage, job = some (q', stage) → q' = q) : s'.phase p = s.phase p := by
  have hother : ∀ job : Option (Path × Stage), (∀ q' stage, job = some (q', stage) → q' = q) →
      (match job with
        | some (q, stage) => if q = p then Phase.working stage else .done
        | none => .done) = .done := by
    rintro (_ | ⟨q', stage⟩) h
    · rfl
    · obtain rfl := h q' stage rfl
      exact if_neg hne
  rw [State.phase, State.phase, hs, hs']
  simp only [hother _ hjob, hother _ hjob', htodo]

/-- A stage keeps the invariant of the flush. -/
theorem State.WF.frame {s s' : State} {f : Flush} {p : Path} (h : State.Frame s s' f p)
    (hsub : f.todo ⊆ f.paths) (hp : p ∈ f.paths ∧ p ∉ f.todo) : s'.WF := by
  intro f' hf'
  obtain ⟨job, hflush, hjob⟩ := h.flush
  obtain rfl := Option.some.inj (hf'.symm.trans hflush)
  refine ⟨hsub, fun q stage hq => ?_⟩
  obtain rfl := hjob q stage hq
  exact hp

/-- The path of the job is at its stage. -/
theorem State.phase_job {s : State} {p : Path} {f : Flush} {stage : Stage} (hs : s.flush = some f)
    (hjob : f.job = some (p, stage)) (hp : p ∈ f.paths ∧ p ∉ f.todo) :
    s.phase p = .working stage := by
  rw [State.phase, hs]
  simp [hp, hjob]

/-- A path that was looked at and is not the job is done. -/
theorem State.phase_done {s : State} {p : Path} {f : Flush} (hs : s.flush = some f)
    (hjob : f.job = none) (hp : p ∈ f.paths ∧ p ∉ f.todo) : s.phase p = .done := by
  rw [State.phase, hs]
  simp [hp, hjob]

variable {p : Path} {prev : Option Version} {s s' : State}

theorem good_of_phase {v : Version} {phase : Phase} (hwf : s.WF) (hv : s.version p = some v)
    (hphase : s.phase p = phase) (hfits : Fits prev v (s.row p) phase) : Good p prev s :=
  ⟨hwf, v, hv, by rwa [hphase]⟩

/-- A step that keeps the file, its row and its phase. -/
theorem Good.congr (h : Good p prev s) (hwf : s'.WF) (hfs : s'.fs.lookup p = s.fs.lookup p)
    (hrow : s'.row p = s.row p) (hphase : s'.phase p = s.phase p) : Good p prev s' := by
  obtain ⟨v, hv, hfits⟩ := h.fits
  refine ⟨hwf, v, ?_, ?_⟩
  · rw [State.version_eq_some] at hv ⊢
    rw [hfs, hv]
  · rw [hrow, hphase]
    exact hfits

theorem good_change {c : Change} {fs : Fs} (h : Good p prev s) (hapart : Apart p s (.change c))
    (hfs : c.apply s.fs = some fs) : Good p prev (s.change c fs) := by
  rcases hapart fs hfs with hsame | ⟨hfile, hvisited⟩
  · exact h.congr h.wf hsame rfl rfl
  · obtain ⟨v, hv⟩ := Fs.isFile_iff.1 hfile
    obtain ⟨_, -, hfits⟩ := h.fits
    refine ⟨h.wf, v, State.version_eq_some.2 hv, ?_⟩
    have hidle : (s.change c fs).phase p = .idle := State.phase_of_not_visited hvisited
    rw [State.phase_of_not_visited hvisited] at hfits
    rw [hidle]
    exact hfits

/-- The flush looks at a file, this one or another. -/
theorem good_visit {paths todo : List Path} {q : Path} (h : Good p prev s)
    (hs : s.flush = some ⟨paths, todo, none⟩) (hq : q ∈ todo) :
    Good p prev (s.visit q ⟨paths, todo, none⟩) := by
  have hframe : State.Frame s (s.visit q ⟨paths, todo, none⟩)
      ⟨paths, todo.filter (· ≠ q), none⟩ q := State.frame_visit rfl
  have hwf := (h.wf _ hs).1
  have hwf' := State.WF.frame hframe (fun r hr => hwf (List.mem_of_mem_filter hr))
    ⟨hwf hq, by simp⟩
  by_cases hqp : q = p
  · subst hqp
    obtain ⟨v, hv, hfits⟩ := h.fits
    rw [State.version_eq_some] at hv
    have hidle : s.phase q = .idle := by
      refine State.phase_of_not_visited ?_
      rintro ⟨f, hf, -, hq'⟩
      obtain rfl := Option.some.inj (hs.symm.trans hf)
      exact hq' hq
    rw [hidle] at hfits
    have hvisit : s.visit q ⟨paths, todo, none⟩ =
        { s with flush := some ⟨paths, todo.filter (· ≠ q), some (q, .check v.info)⟩ } := by
      rw [State.visit, Fs.stat_of_some hv]
    rw [hvisit] at hwf' ⊢
    exact good_of_phase hwf' (State.version_eq_some.2 hv)
      (State.phase_job rfl rfl ⟨hwf hq, by simp⟩) ⟨rfl, hfits⟩
  · obtain ⟨job, hflush, hjob⟩ := hframe.flush
    refine h.congr hwf' (by rw [hframe.fs]) ?_ ?_
    · exact hframe.rows _ fun heq => hqp (relPath_injective heq).symm
    · exact State.phase_other hqp hs (by simp) (by simp [Ne.symm hqp]) hflush hjob

/-- The flush goes on with this file. -/
theorem good_work_self (foreignKeys : Bool) {f : Flush} {stage : Stage} (h : Good p prev s)
    (hs : s.flush = some f) (hjob : f.job = some (p, stage)) :
    Good p prev (s.work foreignKeys f p stage) := by
  obtain ⟨hsub, hmem⟩ := h.wf _ hs
  have hp := hmem p stage hjob
  have hwf := State.WF.frame (State.frame_work (s := s) foreignKeys stage) hsub hp
  obtain ⟨v, hv, hfits⟩ := h.fits
  rw [State.phase_job hs hjob hp] at hfits
  cases stage with
  | check info =>
    obtain ⟨rfl, hrec⟩ := hfits
    by_cases hsame : ∃ row, s.tables.files.lookup (relPath p) = some row ∧
        row.size = v.info.size ∧ row.modTime = Db.unix v.info.modTime
    · rw [State.work_check_same foreignKeys hsame] at hwf ⊢
      refine good_of_phase hwf hv (State.phase_done rfl rfl hp) ?_
      obtain ⟨row, hrow, hsize, htime⟩ := hsame
      have hrec' := hrec
      rw [State.row, hrow] at hrec'
      rcases prev with _ | u
      · cases hrec'
      · obtain ⟨r, hr, hsize', htime', -⟩ := hrec'
        obtain rfl := Option.some.inj hr
        refine .inr ⟨u, rfl, ?_, hrec⟩
        exact Prod.ext (hsize'.symm.trans hsize) (htime'.symm.trans htime)
    · rw [State.work_check_changed foreignKeys hsame] at hwf ⊢
      refine good_of_phase hwf hv (State.phase_job rfl rfl hp) ⟨rfl, ?_⟩
      rintro u rfl hstamp
      obtain ⟨r, hr, hsize, htime, -⟩ := hrec
      exact hsame ⟨r, hr, hsize.trans (congrArg Prod.fst hstamp),
        htime.trans (congrArg Prod.snd hstamp)⟩
  | chunk info =>
    obtain ⟨rfl, hnew⟩ := hfits
    rw [State.work_chunk foreignKeys _ (State.version_eq_some.1 hv)] at hwf ⊢
    exact good_of_phase hwf hv (State.phase_job rfl rfl hp) ⟨rfl, rfl, hnew⟩
  | commit info chunks =>
    obtain ⟨rfl, rfl, hnew⟩ := hfits
    rw [State.work_commit] at hwf ⊢
    refine good_of_phase hwf hv (State.phase_done rfl rfl hp) ?_
    obtain ⟨id, hid⟩ := s.tables.lookup_update_self (record p v.info (Cas.chunksOf v.content))
      ((Cas.chunksOf v.content).map Cas.Chunk.hash)
      ((Cas.chunksOf v.content).map fun c => (c.size.toNat : ℤ))
    exact .inl ⟨⟨_, hid, rfl, rfl, rfl⟩, hnew⟩
  | delete => exact hfits.elim

/-- The flush goes on with another file. -/
theorem good_work_other (foreignKeys : Bool) {f : Flush} {q : Path} {stage : Stage}
    (h : Good p prev s) (hs : s.flush = some f) (hjob : f.job = some (q, stage)) (hqp : q ≠ p) :
    Good p prev (s.work foreignKeys f q stage) := by
  have hframe := State.frame_work (s := s) (p := q) (f := f) foreignKeys stage
  obtain ⟨hsub, hmem⟩ := h.wf _ hs
  obtain ⟨job, hflush, hjob'⟩ := hframe.flush
  refine h.congr (State.WF.frame hframe hsub (hmem q stage hjob)) (by rw [hframe.fs]) ?_ ?_
  · exact hframe.rows _ fun heq => hqp (relPath_injective heq).symm
  · refine State.phase_other hqp hs ?_ Iff.rfl hflush hjob'
    intro q' stage' hq'
    rw [hjob] at hq'
    cases hq'
    rfl

/-- **Every step but the end of a flush of the file** keeps what is known of its record. -/
theorem good_step {e : Event} (h : Good p prev s) (hapart : Apart p s e)
    (hs : s.step e = some s') (hend : e = .finish → ¬ s.Flushing p) : Good p prev s' := by
  cases State.move_of_step hs with
  | change hc => exact good_change h hapart hc
  | @handle event queue hq =>
    obtain ⟨hfs, -, hflush, htables⟩ := @State.handleEvent_frame { s with queue := queue } event
    refine h.congr ?_ (by rw [hfs]) (by rw [State.row, htables]; rfl) ?_
    · rw [State.WF, hflush]
      exact h.wf
    · rw [State.phase, hflush]
      rfl
  | idle => exact h
  | flush hidle =>
    refine h.congr ?_ rfl rfl ?_
    · rintro f ⟨⟩
      exact ⟨fun _ h => h, nofun⟩
    · simp [State.phase, hidle]
  | visit hf hq => exact good_visit h hf hq
  | @work f q stage foreignKeys hf hjob =>
    by_cases hqp : q = p
    · subst hqp
      exact good_work_self foreignKeys h hf hjob
    · exact good_work_other foreignKeys h hf hjob hqp
  | @finish paths hf =>
    refine h.congr nofun rfl rfl ?_
    have hp : p ∉ paths := fun hp => hend rfl ⟨_, hf, hp⟩
    simp [State.phase, hf, hp]

/-- **The end of a flush of the file**: the record is that of the content exactly when the change
since the flush before was told. -/
theorem good_finish (h : Good p prev s) (hs : s.step .finish = some s') (hp : s.Flushing p) :
    ∃ v, s.version p = some v ∧ (Fresh p s ↔ ∀ u, prev = some u → Told u v) ∧
      (Fresh p s → Good p (some v) s') := by
  obtain ⟨f, hflush, hmem⟩ := hp
  simp only [State.step, hflush] at hs
  split at hs
  · next paths hf =>
    obtain rfl := Option.some.inj hf
    cases hs
    obtain ⟨v, hv, hfits⟩ := h.fits
    rw [State.phase_done hflush rfl ⟨hmem, by simp⟩] at hfits
    have hafter : Recorded (some v) (s.row p) → Good p (some v) { s with flush := none } :=
      fun hrec => ⟨by simp [State.WF], v, hv, hrec⟩
    refine ⟨v, hv, ?_⟩
    rcases hfits with ⟨hrec, hnew⟩ | ⟨u, rfl, hstamp, r, hr, hsize, htime, hroot⟩
    · have hfresh : Fresh p s := by
        obtain ⟨r, hr, hsize, -, hroot⟩ := hrec
        exact ⟨v, r, hv, hr, hsize, hroot⟩
      exact ⟨iff_of_true hfresh fun u hu heq => absurd heq (hnew u hu), fun _ => hafter hrec⟩
    · have hsizes : (u.content.length : ℤ) = v.content.length := congrArg Prod.fst hstamp
      have htimes : Db.unix u.modTime = Db.unix v.modTime := congrArg Prod.snd hstamp
      have hiff : Fresh p s ↔ merkleRootOf u.content = merkleRootOf v.content := by
        constructor
        · rintro ⟨v', r', hv', hr', -, hroot'⟩
          obtain rfl := Option.some.inj (hv.symm.trans hv')
          obtain rfl := Option.some.inj (hr.symm.trans hr')
          exact hroot.symm.trans hroot'
        · intro heq
          exact ⟨v, r, hv, hr, hsize.trans hsizes, hroot.trans heq⟩
      refine ⟨hiff.trans ⟨?_, fun htold => htold u rfl hstamp⟩, fun hfresh => hafter ?_⟩
      · rintro heq _ ⟨⟩ -
        exact heq
      · exact ⟨r, hr, hsize.trans hsizes, htime.trans htimes, hroot.trans (hiff.1 hfresh)⟩
  · cases hs

/-! ### Whole runs -/

/-- The first of the versions is the last one recorded, if there is one. -/
theorem isChain_toList_cons {v : Version} {vs : List Version} :
    (prev.toList ++ v :: vs).IsChain Told ↔
      (∀ u, prev = some u → Told u v) ∧ (v :: vs).IsChain Told := by
  rcases prev with _ | u
  · simp
  · simp [List.isChain_cons_cons]

theorem fresh_iff_of_good {es : List Event} (h : Good p prev s)
    (hrun : Run State.step (Apart p) s es s') :
    Run State.step (fun s e => e = .finish → s.Flushing p → Fresh p s) s es s' ↔
      (prev.toList ++ trace State.step (seen p) s es).IsChain Told := by
  induction hrun generalizing prev with
  | nil s =>
    refine iff_of_true (.nil s) ?_
    cases prev <;> simp [trace]
  | @cons s s₁ s' e es hapart hs hrest ih =>
    rw [Run.cons_iff hs, trace, hs, Option.elim_some]
    by_cases hend : e = .finish ∧ s.Flushing p
    · obtain ⟨rfl, hp⟩ := hend
      obtain ⟨v, hv, hiff, hgood⟩ := good_finish h hs hp
      have hseen : seen p s .finish = [v] := by
        obtain ⟨f, hf, hmem⟩ := hp
        simp [seen, hf, hmem, hv]
      rw [hseen, List.singleton_append, isChain_toList_cons, ← hiff,
        imp_iff_right rfl, imp_iff_right hp]
      -- If the record is not that of the content, nothing is asked of what follows.
      refine and_congr_right fun hfresh => ?_
      exact ih (hgood hfresh)
    · have hseen : seen p s e = [] := by
        cases e with
        | finish =>
          rw [seen]
          split
          · next f hf => exact if_neg fun hmem => hend ⟨rfl, f, hf, hmem⟩
          · rfl
        | _ => rfl
      rw [hseen, List.nil_append]
      refine (and_iff_right ?_).trans (ih ?_)
      · exact fun he hp => absurd ⟨he, hp⟩ hend
      · exact good_step h hapart hs fun he hp => hend ⟨he, hp⟩

/-- **Watcher content freshness.**  Let the database have no record of the file, or that of its
version `prev`, and let no write of the file fall between the look of a flush at it and the end of
that flush.  Then at the end of every flush that had the file pending, its record has the size and
the Merkle root of the content, if and only if each version at such an end differs in size or in the
second of its time from the one before, or has the same Merkle root. -/
theorem fresh_iff {es : List Event} (hfile : s.fs.isFile p) (hidle : s.flush = none)
    (hprev : Recorded prev (s.row p)) (hrun : Run State.step (Apart p) s es s') :
    Run State.step (fun s e => e = .finish → s.Flushing p → Fresh p s) s es s' ↔
      (prev.toList ++ trace State.step (seen p) s es).IsChain Told := by
  obtain ⟨v, hv⟩ := Fs.isFile_iff.1 hfile
  have hwf : s.WF := by
    intro f hf
    rw [hidle] at hf
    cases hf
  have hphase : s.phase p = .idle := by rw [State.phase, hidle]
  exact fresh_iff_of_good (good_of_phase hwf (State.version_eq_some.2 hv) hphase hprev) hrun

/-- A directory with one file, of which there is no record yet. -/
def oneFile (p : Path) (v : Version) : State :=
  ⟨AList.singleton p (.file v), [[]], [], [], none, .empty, []⟩

/-- The file `a`. -/
def fileA : Path := [⟨[97], by decide⟩]

/-- A write of the file, and the flush that follows it, up to the answer of the database. -/
def writeAndCheck (p : Path) (v : Version) : List Event :=
  [.change (.write p v), .handle, .flush, .visit p, .work true]

/-- The rest of a flush that reads the file. -/
def updateAndFinish : List Event := [.work true, .work true, .finish]

theorem apart_write {p : Path} {s : State} (hidle : s.flush = none) (v : Version) :
    Apart p s (.change (.write p v)) := by
  intro fs hfs
  obtain ⟨-, hfs⟩ := Option.ite_none_right_eq_some.1 hfs
  obtain rfl := Option.some.inj hfs
  refine .inr ⟨Fs.isFile_iff.2 ⟨v, AList.lookup_insert _⟩, ?_⟩
  rintro ⟨f, hf, -⟩
  rw [hidle] at hf
  cases hf

/-- Two flushes, of versions that differ in size. -/
theorem fresh_iff_two_records :
    ∃ s, Run State.step (Apart fileA) (oneFile fileA ⟨[1], 0⟩)
        (writeAndCheck fileA ⟨[2], 5⟩ ++ updateAndFinish ++
          (writeAndCheck fileA ⟨[3, 4], 5⟩ ++ updateAndFinish)) s ∧
      Run State.step (fun s e => e = .finish → s.Flushing fileA → Fresh fileA s)
        (oneFile fileA ⟨[1], 0⟩) (writeAndCheck fileA ⟨[2], 5⟩ ++ updateAndFinish ++
          (writeAndCheck fileA ⟨[3, 4], 5⟩ ++ updateAndFinish)) s := by
  have hrun : Run State.step (Apart fileA) (oneFile fileA ⟨[1], 0⟩)
      (writeAndCheck fileA ⟨[2], 5⟩ ++ updateAndFinish ++
        (writeAndCheck fileA ⟨[3, 4], 5⟩ ++ updateAndFinish)) _ :=
    .cons (apart_write rfl _) rfl <| .cons trivial rfl <| .cons trivial rfl <|
      .cons trivial rfl <| .cons trivial rfl <| .cons trivial rfl <| .cons trivial rfl <|
      .cons trivial rfl <| .cons (apart_write rfl _) rfl <| .cons trivial rfl <|
      .cons trivial rfl <| .cons trivial rfl <| .cons trivial rfl <| .cons trivial rfl <|
      .cons trivial rfl <| .cons trivial rfl <| .nil _
  have hprev : Recorded none ((oneFile fileA ⟨[1], 0⟩).row fileA) := rfl
  have htold : Told ⟨[2], 5⟩ ⟨[3, 4], 5⟩ := fun h => absurd h (by decide)
  exact ⟨_, hrun, (fresh_iff rfl rfl hprev hrun).2 (.cons_cons htold (.singleton _))⟩

/-- The file is recorded, and then written with as many bytes in the same second: the next flush
takes the record to be up to date. -/
theorem rewrite_within_second :
    ∃ s, exec State.step (oneFile fileA ⟨[1], 0⟩)
        (writeAndCheck fileA ⟨[1], 0⟩ ++ updateAndFinish ++
          writeAndCheck fileA ⟨[2], 500000000⟩) = some s ∧
      (s.step .finish).isSome ∧ s.Flushing fileA ∧ ¬ Fresh fileA s := by
  obtain ⟨s, hs, hfin, hflush, hv, hr⟩ : ∃ s, exec State.step (oneFile fileA ⟨[1], 0⟩)
        (writeAndCheck fileA ⟨[1], 0⟩ ++ updateAndFinish ++
          writeAndCheck fileA ⟨[2], 500000000⟩) = some s ∧
      (s.step .finish).isSome ∧ s.flush = some ⟨[fileA], [], none⟩ ∧
      s.version fileA = some ⟨[2], 500000000⟩ ∧
      (s.row fileA).map Db.FileRow.merkleRoot = some (merkleRootOf [1]) :=
    ⟨_, rfl, rfl, rfl, rfl, rfl⟩
  refine ⟨s, hs, hfin, ⟨_, hflush, List.mem_singleton_self _⟩, ?_⟩
  rintro ⟨v, row, hv', hrow, -, hroot⟩
  obtain rfl := Option.some.inj (hv.symm.trans hv')
  rw [hrow, Option.map_some, hroot] at hr
  exact absurd (Option.some.inj hr) (by decide +kernel)

end FileSync.Watcher
