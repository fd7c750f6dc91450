import FileSync.Watcher.Model

/-!
# Watcher — the files table and the files under the root

An event names one entry, and a flush brings the row of that path in line with what is there.  What
is to hold, once all events are handled and nothing is pending, is `Agrees`: the table has a row for
each file under the root whose path has no hidden name, and no other rows.

* `Reported s e` says of a change that each file it makes appear or disappear is named by an event,
  and that no path is blocked by it while it has a row or is being processed.  A path is blocked if
  it is a directory or below a file: a flush then leaves the row of the path as it is.
* `Inv` is the invariant of a run of such steps: a path whose row is not in line with what is there
  is announced, by an event, as pending or as one that the running flush has not looked at yet.
* `agrees_of_reported`: then the table and the directory agree when nothing is left to be done.
* `moved_directory_stays_listed`: a directory with a file is moved out of the root.
-/

open Transition

namespace FileSync.Watcher

namespace State

/-- The running flush is at the path. -/
def Processing (s : State) (p : Path) : Prop :=
  ∃ f stage, s.flush = some f ∧ f.job = some (p, stage)

/-- The path will be looked at. -/
def Announced (s : State) (p : Path) : Prop :=
  p ∈ s.pending ∨ (∃ e ∈ s.queue, e.path = p) ∨ ∃ f, s.flush = some f ∧ p ∈ f.todo

/-- **The files table lists exactly the files** whose paths have no hidden name. -/
def Agrees (s : State) : Prop :=
  ∀ key, (s.tables.files.lookup key).isSome ↔ ∃ p, Visible p ∧ s.fs.isFile p ∧ relPath p = key

/-- All events are handled, nothing is pending and no flush runs. -/
structure Quiet (s : State) : Prop where
  queue : s.queue = []
  pending : s.pending = []
  flush : s.flush = none

end State

/-- `processFile` leaves the row of the path as it is: a directory is there, or `os.Stat` fails as
the path is below a file. -/
def Blocked (fs : Fs) (p : Path) : Prop := fs.lookup p = some .dir ∨ fs.stat p = .error .notDir

/-- The path has no row and is not being processed. -/
def Clear (s : State) (p : Path) : Prop := s.row p = none ∧ ¬ s.Processing p

/-- Each file that appears or disappears is itself named by an event, in a directory that is
watched; and a path that becomes blocked has no row and is not being processed. -/
def Reported (s : State) : Event → Prop
  | .change c => ∀ fs, c.apply s.fs = some fs → ∀ p, Visible p →
      (fs.isFile p ≠ s.fs.isFile p → (∃ e ∈ c.notices, e.path = p) ∧ p.dropLast ∈ s.watched) ∧
      (Blocked fs p → ¬ Blocked s.fs p → Clear s p)
  | _ => True

/-! ### Visible paths -/

theorem visible_of_dropLast {p : Path} (hp : p ≠ []) (h : Visible p.dropLast)
    (hlast : ¬ ∃ n ∈ p.getLast?, Hidden n) : Visible p := by
  intro n hn
  rw [← List.dropLast_append_getLast hp, List.mem_append, List.mem_singleton] at hn
  rcases hn with hn | rfl
  · exact h n hn
  · exact fun hidden => hlast ⟨_, List.getLast?_eq_some_getLast hp, hidden⟩

/-- Only paths without hidden names are watched, announced, processed and listed. -/
structure Seen (s : State) : Prop where
  watched : ∀ d ∈ s.watched, Visible d
  queue : ∀ e ∈ s.queue, e.path ≠ [] ∧ Visible e.path.dropLast
  pending : ∀ p ∈ s.pending, Visible p
  todo : ∀ f, s.flush = some f → ∀ p ∈ f.todo, Visible p
  job : ∀ p, s.Processing p → Visible p
  rows : ∀ key, s.tables.files.lookup key ≠ none → ∃ p, Visible p ∧ relPath p = key

theorem Change.path_ne_nil {c : Change} {fs fs' : Fs} (h : c.apply fs = some fs') :
    ∀ e ∈ c.notices, e.path ≠ [] := by
  cases c <;> simp only [Change.apply] at h <;> split at h <;>
    simp_all [Change.notices, Change.Vacant]

variable {s s' : State}

theorem seen_change {c : Change} {fs : Fs} (h : Seen s) (hc : c.apply s.fs = some fs) :
    Seen (s.change c fs) := by
  refine ⟨?_, ?_, h.pending, h.todo, h.job, h.rows⟩
  · intro d hd
    exact h.watched d (List.mem_of_mem_filter hd)
  · intro e he
    rcases List.mem_append.1 he with he | he
    · exact h.queue e he
    · obtain ⟨hmem, hwatched⟩ := List.mem_filter.1 he
      exact ⟨Change.path_ne_nil hc e hmem, h.watched _ (by simpa using hwatched)⟩

theorem seen_handle {event : Notice} {queue : List Notice} (h : Seen s)
    (hq : s.queue = event :: queue) : Seen ({ s with queue := queue }.handleEvent event) := by
  have hqueue : ∀ e ∈ queue, e.path ≠ [] ∧ Visible e.path.dropLast := fun e he =>
    h.queue e (hq ▸ List.mem_cons_of_mem _ he)
  obtain ⟨hne, hparent⟩ := h.queue event (hq ▸ List.mem_cons_self)
  rw [State.handleEvent]
  split
  · exact ⟨h.watched, hqueue, h.pending, h.todo, h.job, h.rows⟩
  · next hhidden =>
    have hvis := visible_of_dropLast hne hparent hhidden
    split
    · refine ⟨?_, hqueue, h.pending, h.todo, h.job, h.rows⟩
      intro d hd
      rcases List.mem_cons.1 hd with rfl | hd
      · exact hvis
      · exact h.watched d hd
    · refine ⟨h.watched, hqueue, ?_, h.todo, h.job, h.rows⟩
      intro p hp
      dsimp only at hp
      split at hp
      · exact h.pending p hp
      · rcases List.mem_cons.1 hp with rfl | hp
        · exact hvis
        · exact h.pending p hp

theorem seen_flush (h : Seen s) :
    Seen { s with pending := [], flush := some ⟨s.pending, s.pending, none⟩ } := by
  refine ⟨h.watched, h.queue, by simp, ?_, ?_, h.rows⟩
  · rintro f ⟨⟩
    exact h.pending
  · rintro p ⟨f, stage, ⟨⟩, ⟨⟩⟩

theorem seen_frame {f : Flush} {p : Path} (h : Seen s) (hp : Visible p)
    (htodo : ∀ q ∈ f.todo, Visible q) (hf : State.Frame s s' f p) : Seen s' := by
  obtain ⟨job, hflush, hjob⟩ := hf.flush
  refine ⟨hf.watched ▸ h.watched, hf.queue ▸ h.queue, hf.pending ▸ h.pending, ?_, ?_, ?_⟩
  · intro f' hf'
    rw [hflush] at hf'
    cases hf'
    exact htodo
  · rintro q ⟨f', stage, hf', hq⟩
    rw [hflush] at hf'
    cases hf'
    exact hjob q stage hq ▸ hp
  · intro key hkey
    by_cases heq : key = relPath p
    · exact ⟨p, hp, heq.symm⟩
    · rw [hf.rows key heq] at hkey
      exact h.rows key hkey

/-! ### The invariant -/

/-- What the flush is about to write of the path is in line with what is there, or the path will be
looked at again. -/
def Tracks (s : State) (p : Path) : Stage → Prop
  | .delete => s.fs.lookup p = none ∨ s.Announced p
  | _ => s.fs.isFile p ∨ s.Announced p

structure Inv (s : State) : Prop where
  seen : Seen s
  unlisted : ∀ p, Visible p → ¬ s.Processing p → s.fs.isFile p → s.row p = none → s.Announced p
  stale : ∀ p, Visible p → ¬ s.Processing p → s.fs.lookup p = none → s.row p ≠ none →
    s.Announced p
  job : ∀ f p stage, s.flush = some f → f.job = some (p, stage) → Tracks s p stage
  blocked : ∀ p, Visible p → Blocked s.fs p → Clear s p

theorem not_blocked_of_isFile {fs : Fs} {p : Path} (h : fs.isFile p) : ¬ Blocked fs p := by
  obtain ⟨v, hv⟩ := Fs.isFile_iff.1 h
  rintro (hdir | hstat)
  · rw [hv] at hdir
    cases hdir
  · rw [Fs.stat_of_some hv] at hstat
    cases hstat

theorem tracks_mono {p : Path} {stage : Stage} (hfs : s'.fs = s.fs)
    (hann : s.Announced p → s'.Announced p) (h : Tracks s p stage) : Tracks s' p stage := by
  cases stage with
  | delete => exact h.imp (fun h => hfs ▸ h) hann
  | check _ => exact h.imp (fun h => hfs ▸ h) hann
  | chunk _ => exact h.imp (fun h => hfs ▸ h) hann
  | commit _ _ => exact h.imp (fun h => hfs ▸ h) hann

theorem not_processing_of_quiet (hquiet : s.Quiet) (p : Path) : ¬ s.Processing p := by
  rintro ⟨f, stage, hf, -⟩
  rw [hquiet.flush] at hf
  cases hf

/-- With nothing left to be done there is no path whose row is not in line. -/
theorem agrees_of_inv (h : Inv s) (hquiet : s.Quiet) : s.Agrees := by
  have hproc := not_processing_of_quiet hquiet
  have hann : ∀ p, ¬ s.Announced p := by
    rintro p (hp | ⟨e, he, -⟩ | ⟨f, hf, -⟩)
    · rw [hquiet.pending] at hp
      cases hp
    · rw [hquiet.queue] at he
      cases he
    · rw [hquiet.flush] at hf
      cases hf
  intro key
  constructor
  · intro hrow
    have hne : s.tables.files.lookup key ≠ none := Option.isSome_iff_ne_none.1 hrow
    obtain ⟨p, hvis, rfl⟩ := h.seen.rows key hne
    refine ⟨p, hvis, ?_, rfl⟩
    cases hnode : s.fs.lookup p with
    | none => exact absurd (h.stale p hvis (hproc p) hnode hne) (hann p)
    | some n =>
      cases n with
      | dir => exact absurd (h.blocked p hvis (.inl hnode)).1 hne
      | file v => exact Fs.isFile_iff.2 ⟨v, hnode⟩
  · rintro ⟨p, hvis, hfile, rfl⟩
    rw [Option.isSome_iff_ne_none]
    exact fun hnone => hann p (h.unlisted p hvis (hproc p) hfile hnone)

/-- At the start there are no such paths. -/
theorem inv_of_agrees (hagrees : s.Agrees) (hquiet : s.Quiet)
    (hwatched : ∀ d ∈ s.watched, Visible d) : Inv s := by
  have hproc := not_processing_of_quiet hquiet
  have hfile : ∀ p, s.row p ≠ none → Visible p ∧ s.fs.isFile p := by
    intro p hp
    obtain ⟨q, hvis, hq, heq⟩ := (hagrees (relPath p)).1 (Option.isSome_iff_ne_none.2 hp)
    exact relPath_injective heq ▸ ⟨hvis, hq⟩
  refine ⟨⟨hwatched, ?_, ?_, ?_, ?_, ?_⟩, ?_, ?_, ?_, ?_⟩
  · simp [hquiet.queue]
  · simp [hquiet.pending]
  · simp [hquiet.flush]
  · exact fun p hp => absurd hp (hproc p)
  · intro key hkey
    obtain ⟨p, hvis, -, rfl⟩ := (hagrees key).1 (Option.isSome_iff_ne_none.2 hkey)
    exact ⟨p, hvis, rfl⟩
  · intro p hvis _ hp hrow
    exact absurd hrow (Option.isSome_iff_ne_none.1 ((hagrees _).2 ⟨p, hvis, hp, rfl⟩))
  · intro p _ _ hnode hrow
    obtain ⟨v, hv⟩ := Fs.isFile_iff.1 (hfile p hrow).2
    rw [hnode] at hv
    cases hv
  · exact fun f p stage hf hjob => absurd ⟨f, stage, hf, hjob⟩ (hproc p)
  · intro p _ hp
    refine ⟨?_, hproc p⟩
    by_contra hrow
    exact not_blocked_of_isFile (hfile p hrow).2 hp

/-! ### Each step -/

theorem inv_change {c : Change} {fs : Fs} (h : Inv s) (hrep : Reported s (.change c))
    (hc : c.apply s.fs = some fs) : Inv (s.change c fs) := by
  have hold : ∀ p, s.Announced p → (s.change c fs).Announced p := by
    rintro p (hp | ⟨e, he, hp⟩ | hp)
    · exact .inl hp
    · exact .inr (.inl ⟨e, List.mem_append_left _ he, hp⟩)
    · exact .inr (.inr hp)
  -- A file that appears or disappears is named by an event that is queued now.
  have hnew : ∀ p, Visible p → fs.isFile p ≠ s.fs.isFile p → (s.change c fs).Announced p := by
    intro p hvis hne
    obtain ⟨⟨e, he, rfl⟩, hwatched⟩ := (hrep fs hc p hvis).1 hne
    have hmem : e ∈ c.notices.filter fun e => e.path.dropLast ∈ s.watched :=
      List.mem_filter.2 ⟨he, by simpa using hwatched⟩
    exact .inr (.inl ⟨e, List.mem_append_right _ hmem, rfl⟩)
  have hblocked : ∀ p, Visible p → Blocked fs p → Clear s p := by
    intro p hvis hp
    by_cases hwas : Blocked s.fs p
    · exact h.blocked p hvis hwas
    · exact (hrep fs hc p hvis).2 hp hwas
  refine ⟨seen_change h.seen hc, ?_, ?_, ?_, hblocked⟩
  · intro p hvis hproc hfile hrow
    cases hwas : s.fs.isFile p with
    | true => exact hold p (h.unlisted p hvis hproc hwas hrow)
    | false => exact hnew p hvis (by rw [hwas, show fs.isFile p = true from hfile]; simp)
  · intro p hvis hproc hnode hrow
    cases hwas : s.fs.lookup p with
    | none => exact hold p (h.stale p hvis hproc hwas hrow)
    | some n =>
      cases n with
      | dir => exact absurd (h.blocked p hvis (.inl hwas)).1 hrow
      | file v =>
        refine hnew p hvis ?_
        rw [Fs.isFile_iff.2 ⟨v, hwas⟩, Fs.isFile, show fs.lookup p = none from hnode]
        simp
  · intro f p stage hf hjob
    have hproc : s.Processing p := ⟨f, stage, hf, hjob⟩
    have hvis := h.seen.job p hproc
    have hbecomes : fs.isFile p = s.fs.isFile p ∨ (s.change c fs).Announced p :=
      or_iff_not_imp_left.2 (hnew p hvis)
    have htracks := h.job f p stage hf hjob
    cases stage with
    | delete =>
      refine htracks.elim (fun hnode => ?_) fun hann => .inr (hold p hann)
      refine hbecomes.imp_left fun heq => ?_
      change fs.lookup p = none
      cases hn : fs.lookup p with
      | none => rfl
      | some n =>
        cases n with
        | dir => exact absurd hproc (hblocked p hvis (.inl hn)).2
        | file v =>
          rw [Fs.isFile_iff.2 ⟨v, hn⟩, Fs.isFile, hnode] at heq
          cases heq
    | check _ | chunk _ | commit _ _ =>
      refine htracks.elim (fun hfile => ?_) fun hann => .inr (hold p hann)
      exact hbecomes.imp_left fun heq => heq.trans hfile

theorem mem_pending_handleEvent {p : Path} (event : Notice) (h : p ∈ s.pending) :
    p ∈ (s.handleEvent event).pending := by
  rw [State.handleEvent]
  split
  · exact h
  · split
    · exact h
    · dsimp only
      split
      · exact h
      · exact List.mem_cons_of_mem _ h

/-- The path of an event is pending then, unless the event is that of a new directory. -/
theorem pending_of_event {event : Notice} (hvis : Visible event.path) :
    event.path ∈ (s.handleEvent event).pending ∨ s.fs.lookup event.path = some .dir := by
  rw [State.handleEvent]
  split
  · next hhidden =>
    obtain ⟨n, hn, hidden⟩ := hhidden
    exact absurd hidden (hvis n (List.mem_of_mem_getLast? hn))
  · split
    · next hdir => exact .inr hdir.2
    · left
      dsimp only
      split
      · assumption
      · exact List.mem_cons_self

/-- A path that is no longer announced after its event is a directory. -/
theorem announced_handle {event : Notice} {queue : List Notice} {p : Path}
    (hq : s.queue = event :: queue) (hvis : Visible p) (h : s.Announced p) :
    ({ s with queue := queue }.handleEvent event).Announced p ∨ s.fs.lookup p = some .dir := by
  obtain ⟨-, hqueue, hflush, -⟩ := @State.handleEvent_frame { s with queue := queue } event
  rcases h with hp | ⟨e, he, rfl⟩ | hp
  · exact .inl (.inl (mem_pending_handleEvent event hp))
  · rcases List.mem_cons.1 (hq ▸ he) with rfl | he
    · exact (pending_of_event hvis).imp_left .inl
    · exact .inl (.inr (.inl ⟨e, hqueue.symm ▸ he, rfl⟩))
  · obtain ⟨f, hf, hmem⟩ := hp
    exact .inl (.inr (.inr ⟨f, hflush.trans hf, hmem⟩))

/-- A step that leaves the files, the rows and the job, and takes no path that is not blocked from
those announced. -/
theorem inv_of_announced (h : Inv s) (hseen : Seen s') (hfs : s'.fs = s.fs)
    (htables : s'.tables = s.tables)
    (hjob : ∀ p stage, (∃ f, s'.flush = some f ∧ f.job = some (p, stage)) ↔
      ∃ f, s.flush = some f ∧ f.job = some (p, stage))
    (hann : ∀ p, Visible p → s.Announced p → s'.Announced p ∨ Blocked s.fs p) : Inv s' := by
  have hproc : ∀ p, s'.Processing p ↔ s.Processing p := by
    intro p
    constructor
    · rintro ⟨f, stage, hf, hp⟩
      obtain ⟨f', hf', hp'⟩ := (hjob p stage).1 ⟨f, hf, hp⟩
      exact ⟨f', stage, hf', hp'⟩
    · rintro ⟨f, stage, hf, hp⟩
      obtain ⟨f', hf', hp'⟩ := (hjob p stage).2 ⟨f, hf, hp⟩
      exact ⟨f', stage, hf', hp'⟩
  have hrow : ∀ p, s'.row p = s.row p := fun p => by rw [State.row, State.row, htables]
  refine ⟨hseen, ?_, ?_, ?_, ?_⟩
  · intro p hvis hp hfile hnone
    rw [hfs] at hfile
    rw [hrow] at hnone
    refine (hann p hvis (h.unlisted p hvis (mt (hproc p).2 hp) hfile hnone)).resolve_right ?_
    exact not_blocked_of_isFile hfile
  · intro p hvis hp hnode hne
    rw [hfs] at hnode
    rw [hrow] at hne
    refine (hann p hvis (h.stale p hvis (mt (hproc p).2 hp) hnode hne)).resolve_right ?_
    exact fun hblocked => hne (h.blocked p hvis hblocked).1
  · intro f p stage hf hp
    obtain ⟨f₀, hf₀, hp₀⟩ := (hjob p stage).1 ⟨f, hf, hp⟩
    have hat : s.Processing p := ⟨f₀, stage, hf₀, hp₀⟩
    have hvis := h.seen.job p hat
    refine tracks_mono hfs (fun hp => (hann p hvis hp).resolve_right ?_) (h.job f₀ p stage hf₀ hp₀)
    exact fun hblocked => (h.blocked p hvis hblocked).2 hat
  · intro p hvis hp
    rw [hfs] at hp
    obtain ⟨hnone, hat⟩ := h.blocked p hvis hp
    exact ⟨(hrow p).trans hnone, mt (hproc p).1 hat⟩

theorem inv_handle {event : Notice} {queue : List Notice} (h : Inv s)
    (hq : s.queue = event :: queue) : Inv ({ s with queue := queue }.handleEvent event) := by
  obtain ⟨hfs, -, hflush, htables⟩ := @State.handleEvent_frame { s with queue := queue } event
  refine inv_of_announced h (seen_handle h.seen hq) hfs htables ?_ ?_
  · intro p stage
    rw [hflush]
  · intro p hvis hp
    exact (announced_handle hq hvis hp).imp_right .inl

theorem inv_flush (h : Inv s) (hidle : s.flush = none) :
    Inv { s with pending := [], flush := some ⟨s.pending, s.pending, none⟩ } := by
  refine inv_of_announced h (seen_flush h.seen) rfl rfl ?_ ?_
  · intro p stage
    rw [hidle]
    simp
  · rintro p - (hp | hp | ⟨f, hf, hp⟩)
    · exact .inl (.inr (.inr ⟨_, rfl, hp⟩))
    · exact .inl (.inr (.inl hp))
    · rw [hidle] at hf
      cases hf

theorem inv_finish {paths : List Path} (h : Inv s) (hf : s.flush = some ⟨paths, [], none⟩) :
    Inv { s with flush := none } := by
  refine inv_of_announced h ⟨h.seen.watched, h.seen.queue, h.seen.pending, nofun, ?_, h.seen.rows⟩
    rfl rfl ?_ ?_
  · rintro p ⟨f, stage, ⟨⟩, -⟩
  · intro p stage
    rw [hf]
    simp
  · rintro p - (hp | hp | ⟨f, hf', hp⟩)
    · exact .inl (.inl hp)
    · exact .inl (.inr (.inl hp))
    · rw [hf] at hf'
      cases hf'
      cases hp

section Frame

variable {f₀ f : Flush} {p : Path}

theorem announced_frame {q : Path} (hf : State.Frame s s' f p) (hf₀ : s.flush = some f₀)
    (hsub : q ∈ f₀.todo → q ∈ f.todo) (h : s.Announced q) : s'.Announced q := by
  rcases h with hq | hq | ⟨f₁, hf₁, hq⟩
  · exact .inl (hf.pending ▸ hq)
  · exact .inr (.inl (hf.queue ▸ hq))
  · rw [hf₀] at hf₁
    cases hf₁
    obtain ⟨job, hflush, -⟩ := hf.flush
    exact .inr (.inr ⟨_, hflush, hsub hq⟩)

/-- The flush `f₀` takes up `p` or goes on with it, as `f`. -/
structure Turn (s : State) (f₀ f : Flush) (p : Path) : Prop where
  flush : s.flush = some f₀
  job : ∀ q stage, f₀.job = some (q, stage) → q = p
  visible : Visible p
  sub : f.todo ⊆ f₀.todo
  keep : ∀ q ∈ f₀.todo, q ≠ p → q ∈ f.todo

/-- A step of the flush at `p`: what is left to show is about `p` alone. -/
theorem inv_of_frame (h : Inv s) (ht : Turn s f₀ f p) (hf : State.Frame s s' f p)
    (hfile : ¬ s'.Processing p → s.fs.isFile p → s'.row p ≠ none ∨ s'.Announced p)
    (hgone : ¬ s'.Processing p → s.fs.lookup p = none → s'.row p = none ∨ s'.Announced p)
    (hjob : ∀ f' stage, s'.flush = some f' → f'.job = some (p, stage) → Tracks s' p stage)
    (hblocked : Blocked s.fs p → Clear s' p) : Inv s' := by
  have hat : ∀ q, q ≠ p → ¬ s.Processing q := by
    rintro q hne ⟨f₁, stage, hf₁, hq⟩
    rw [ht.flush] at hf₁
    cases hf₁
    exact hne (ht.job q stage hq)
  have hjobs : ∀ f' q stage, s'.flush = some f' → f'.job = some (q, stage) → q = p := by
    obtain ⟨job, hflush, hat'⟩ := hf.flush
    intro f' q stage hf' hq
    rw [hflush] at hf'
    cases hf'
    exact hat' q stage hq
  have hrow : ∀ q, q ≠ p → s'.row q = s.row q := fun q hne =>
    hf.rows _ (relPath_injective.ne hne)
  have hann : ∀ q, q ≠ p → s.Announced q → s'.Announced q := fun q hne =>
    announced_frame hf ht.flush fun hq => ht.keep q hq hne
  have hseen : Seen s' :=
    seen_frame h.seen ht.visible (fun q hq => h.seen.todo f₀ ht.flush q (ht.sub hq)) hf
  refine ⟨hseen, ?_, ?_, ?_, ?_⟩
  · intro q hq hproc hqfile hnone
    rw [hf.fs] at hqfile
    by_cases heq : q = p
    · subst heq
      exact (hfile hproc hqfile).resolve_left fun hne => hne hnone
    · exact hann q heq (h.unlisted q hq (hat q heq) hqfile (hrow q heq ▸ hnone))
  · intro q hq hproc hnode hne
    rw [hf.fs] at hnode
    by_cases heq : q = p
    · subst heq
      exact (hgone hproc hnode).resolve_left hne
    · exact hann q heq (h.stale q hq (hat q heq) hnode (hrow q heq ▸ hne))
  · intro f' q stage hf' hq
    obtain rfl := hjobs f' q stage hf' hq
    exact hjob f' stage hf' hq
  · intro q hq hqblocked
    rw [hf.fs] at hqblocked
    by_cases heq : q = p
    · exact heq ▸ hblocked (heq ▸ hqblocked)
    · refine ⟨(hrow q heq).trans (h.blocked q hq hqblocked).1, ?_⟩
      rintro ⟨f', stage, hf', hq'⟩
      exact heq (hjobs f' q stage hf' hq')

/-- The flush goes on with the path. -/
theorem inv_at {stage : Stage} (h : Inv s) (ht : Turn s f₀ f p) (hfree : ¬ Blocked s.fs p)
    (htracks : Tracks { s with flush := some { f with job := some (p, stage) } } p stage) :
    Inv { s with flush := some { f with job := some (p, stage) } } := by
  have hproc : State.Processing { s with flush := some { f with job := some (p, stage) } } p :=
    ⟨_, stage, rfl, rfl⟩
  refine inv_of_frame h ht (State.frame_at stage) (absurd hproc) (absurd hproc) ?_
    fun hp => absurd hp hfree
  rintro f' stage' ⟨⟩ ⟨⟩
  exact htracks

/-- The flush is done with the path. -/
theorem inv_end (h : Inv s) (ht : Turn s f₀ f p) (hf : State.Frame s s' f p)
    (hend : s'.flush = some { f with job := none })
    (hfile : s.fs.isFile p → s'.row p ≠ none ∨ s'.Announced p)
    (hgone : s.fs.lookup p = none → s'.row p = none ∨ s'.Announced p)
    (hblocked : Blocked s.fs p → s'.row p = none) : Inv s' := by
  have hjob : ∀ f' stage, s'.flush = some f' → f'.job ≠ some (p, stage) := by
    intro f' stage hf'
    rw [hend] at hf'
    cases hf'
    simp
  refine inv_of_frame h ht hf (fun _ => hfile) (fun _ => hgone) ?_ fun hp => ⟨hblocked hp, ?_⟩
  · exact fun f' stage hf' hp => absurd hp (hjob f' stage hf')
  · rintro ⟨f', stage, hf', hp⟩
    exact hjob f' stage hf' hp

theorem inv_visit {paths todo : List Path} (h : Inv s) (hf₀ : s.flush = some ⟨paths, todo, none⟩)
    (hp : p ∈ todo) : Inv (s.visit p ⟨paths, todo, none⟩) := by
  have hvis : Visible p := h.seen.todo _ hf₀ p hp
  have ht : Turn s ⟨paths, todo, none⟩ ⟨paths, todo.filter (· ≠ p), none⟩ p := by
    refine ⟨hf₀, nofun, hvis, List.filter_subset_self _, ?_⟩
    intro q hq hne
    exact List.mem_filter.2 ⟨hq, by simpa using hne⟩
  have hframe := @State.frame_visit s p ⟨paths, todo, none⟩ rfl
  cases hnode : s.fs.lookup p with
  | none =>
    have hnotFile : ¬ s.fs.isFile p := by simp [Fs.isFile, hnode]
    obtain ⟨e, he, rfl | ⟨rfl, -⟩⟩ := Fs.stat_of_none hnode
    · have hfree : ¬ Blocked s.fs p := by
        rintro (hdir | hstat)
        · rw [hnode] at hdir
          cases hdir
        · rw [he] at hstat
          cases hstat
      rw [State.visit, he]
      exact inv_at h ht hfree (.inl hnode)
    · have hrow := (h.blocked p hvis (.inr he)).1
      have hvisit : s.visit p ⟨paths, todo, none⟩ =
          s.fail p ⟨paths, todo.filter (· ≠ p), none⟩ (.wrap "stat file" (.errno .notDir)) := by
        rw [State.visit, he]
      rw [hvisit] at hframe ⊢
      exact inv_end h ht hframe rfl (fun hfile => absurd hfile hnotFile) (fun _ => .inl hrow)
        fun _ => hrow
  | some n =>
    cases n with
    | dir =>
      have hrow := (h.blocked p hvis (.inl hnode)).1
      have hvisit : s.visit p ⟨paths, todo, none⟩ =
          { s with flush := some ⟨paths, todo.filter (· ≠ p), none⟩ } := by
        rw [State.visit, Fs.stat_of_some hnode]
      rw [hvisit] at hframe ⊢
      refine inv_end h ht hframe rfl (fun hfile => ?_) (fun _ => .inl hrow) fun _ => hrow
      exact absurd (Or.inl hnode) (not_blocked_of_isFile hfile)
    | file v =>
      have hfile := Fs.isFile_iff.2 ⟨v, hnode⟩
      rw [State.visit, Fs.stat_of_some hnode]
      exact inv_at h ht (not_blocked_of_isFile hfile) (.inl hfile)

theorem inv_work {stage : Stage} (foreignKeys : Bool) (h : Inv s) (hf₀ : s.flush = some f)
    (hjob : f.job = some (p, stage)) : Inv (s.work foreignKeys f p stage) := by
  have hproc : s.Processing p := ⟨f, stage, hf₀, hjob⟩
  have hvis := h.seen.job p hproc
  have hfree : ¬ Blocked s.fs p := fun hp => (h.blocked p hvis hp).2 hproc
  have ht : Turn s f f p := by
    refine ⟨hf₀, ?_, hvis, List.Subset.refl _, fun q hq _ => hq⟩
    intro q stage' hq
    rw [hjob] at hq
    cases hq
    rfl
  have htracks := h.job f p stage hf₀ hjob
  have hframe := @State.frame_work s p f foreignKeys stage
  have hann := @announced_frame s _ f f p p hframe hf₀ id
  -- While a row is to be written, a path without a file is announced.
  have hgone : s.fs.isFile p ∨ s.Announced p → s.fs.lookup p = none → s.Announced p := by
    rintro (hfile | hp) hnode
    · simp [Fs.isFile, hnode] at hfile
    · exact hp
  cases stage with
  | check info =>
    by_cases hsame : ∃ row, s.tables.files.lookup (relPath p) = some row ∧
      row.size = info.size ∧ row.modTime = Db.unix info.modTime
    · rw [State.work_check_same foreignKeys hsame] at hframe hann ⊢
      obtain ⟨row, hrow, -⟩ := hsame
      refine inv_end h ht hframe rfl (fun _ => .inl ?_) (fun hnode => .inr ?_)
        fun hp => absurd hp hfree
      · exact fun hnone => Option.some_ne_none row (hrow.symm.trans hnone)
      · exact hann (hgone htracks hnode)
    · rw [State.work_check_changed foreignKeys hsame] at hann ⊢
      exact inv_at h ht hfree (htracks.imp_right hann)
  | chunk info =>
    cases hfile : s.fs.isFile p with
    | false =>
      obtain ⟨e, he⟩ := @State.work_chunk_fails s p f foreignKeys info hfile
      rw [he] at hframe hann ⊢
      refine inv_end h ht hframe rfl (fun htrue => ?_) (fun hnode => .inr ?_)
        fun hp => absurd hp hfree
      · rw [hfile] at htrue
        cases htrue
      · exact hann (hgone htracks hnode)
    | true =>
      obtain ⟨v, hv⟩ := Fs.isFile_iff.1 hfile
      rw [State.work_chunk foreignKeys info hv]
      exact inv_at h ht hfree (.inl hfile)
  | commit info chunks =>
    rw [State.work_commit] at hframe hann ⊢
    refine inv_end h ht hframe rfl (fun _ => .inl ?_) (fun hnode => .inr ?_)
      fun hp => absurd hp hfree
    · obtain ⟨id, hrow⟩ := Db.Tables.lookup_update_self s.tables (record p info chunks)
        (chunks.map Cas.Chunk.hash) (chunks.map fun c => (c.size.toNat : ℤ))
      exact fun hnone => Option.some_ne_none _ (hrow.symm.trans hnone)
    · exact hann (hgone htracks hnode)
  | delete =>
    rw [State.work_delete] at hframe hann ⊢
    have hrow : (s.tables.deleteFile foreignKeys (relPath p)).files.lookup (relPath p) = none :=
      Db.Tables.lookup_deleteFile_self _ _ _
    refine inv_end h ht hframe rfl (fun hfile => .inr ?_) (fun _ => .inl hrow) fun _ => hrow
    rcases htracks with hnode | hp
    · simp [Fs.isFile, hnode] at hfile
    · exact hann hp

end Frame

/-! ### Whole runs -/

theorem inv_step {e : Event} (h : Inv s) (hrep : Reported s e) (hs : s.step e = some s') :
    Inv s' := by
  cases State.move_of_step hs with
  | change hc => exact inv_change h hrep hc
  | handle hq => exact inv_handle h hq
  | idle => exact h
  | flush hidle => exact inv_flush h hidle
  | visit hf hp => exact inv_visit h hf hp
  | work foreignKeys hf hjob => exact inv_work foreignKeys h hf hjob
  | finish hf => exact inv_finish h hf

/-- **The table agrees with the directory again.**  It does so whenever nothing is left to be done,
in every run in which the files that appear and disappear are named by events and no path with a row
becomes blocked, however the events, the flushes and the changes are interleaved. -/
theorem agrees_of_reported {es : List Event} (hagrees : s.Agrees) (hquiet : s.Quiet)
    (hwatched : ∀ d ∈ s.watched, Visible d) (hrun : Run State.step Reported s es s')
    (hquiet' : s'.Quiet) : s'.Agrees := by
  have hinv : Inv s := inv_of_agrees hagrees hquiet hwatched
  exact agrees_of_inv (hrun.invariant (fun _ _ _ => inv_step) hinv) hquiet'

/-- A file is made in a watched directory, and no path below it has a row. -/
theorem reported_create {p : Path} {v : Version} (hwatched : p.dropLast ∈ s.watched)
    (hclear : ∀ q, p <+: q → Clear s q) : Reported s (.change (.create p v)) := by
  intro fs hc q _
  obtain ⟨-, ⟨⟩⟩ := Option.ite_none_right_eq_some.1 hc
  have hlookup : ∀ r, r ≠ p → (s.fs.insert p (.file v)).lookup r = s.fs.lookup r :=
    fun r hne => AList.lookup_insert_ne hne
  constructor
  · intro hne
    by_cases heq : q = p
    · subst heq
      exact ⟨⟨_, List.mem_singleton_self _, rfl⟩, hwatched⟩
    · rw [Fs.isFile, Fs.isFile, hlookup q heq] at hne
      exact absurd rfl hne
  · intro hblocked hwas
    by_cases hbelow : p <+: q
    · exact hclear q hbelow
    -- The file stands at no path above `q`, so that `q` was blocked before.
    have heq : q ≠ p := fun heq => hbelow (heq ▸ List.prefix_refl q)
    refine absurd ?_ hwas
    rw [Blocked, Fs.stat_eq_notDir, hlookup q heq] at hblocked
    rw [Blocked, Fs.stat_eq_notDir]
    refine hblocked.imp_right (And.imp_right fun habove => ?_)
    obtain ⟨a, ha, hfile⟩ := habove
    refine ⟨a, ha, ?_⟩
    have hne : a ≠ p := fun hap => hbelow (hap ▸ (List.mem_inits a q).1 ha)
    rwa [Fs.isFile, hlookup a hne] at hfile

/-- A root without entries. -/
def emptyRoot : State := ⟨∅, [[]], [], [], none, .empty, []⟩

/-- The file `f`. -/
def fileF : Path := [⟨[102], by decide⟩]

theorem agrees_of_reported_first_file :
    ∃ s, Run State.step Reported emptyRoot [.change (.create fileF ⟨[1], 0⟩), .handle, .flush,
        .visit fileF, .work true, .work true, .work true, .finish] s ∧ s.Quiet ∧ s.Agrees := by
  have hclear : ∀ q, fileF <+: q → Clear emptyRoot q := fun q _ =>
    ⟨rfl, fun ⟨f, _, hf, _⟩ => nomatch hf⟩
  have hagrees : emptyRoot.Agrees := by
    refine fun key => iff_of_false (by simp [emptyRoot, Db.Tables.empty]) ?_
    rintro ⟨p, -, ⟨⟩, -⟩
  have hrun : Run State.step Reported emptyRoot [.change (.create fileF ⟨[1], 0⟩), .handle, .flush,
      .visit fileF, .work true, .work true, .work true, .finish] _ :=
    .cons (reported_create (by decide) hclear) rfl (.cons trivial rfl (.cons trivial rfl
      (.cons trivial rfl (.cons trivial rfl (.cons trivial rfl (.cons trivial rfl
        (.cons trivial rfl (.nil _))))))))
  have hquiet : emptyRoot.Quiet := ⟨rfl, rfl, rfl⟩
  exact ⟨_, hrun, ⟨rfl, rfl, rfl⟩,
    agrees_of_reported hagrees hquiet (by decide) hrun ⟨rfl, rfl, rfl⟩⟩

/-- The directory `d`. -/
def dirD : Path := [⟨[100], by decide⟩]

/-- The file `d/f`. -/
def fileDF : Path := dirD ++ fileF

/-- A root with the directory `d` and the file `d/f`, which is recorded. -/
def populated : State where
  fs := AList.insert fileDF (.file ⟨[1], 0⟩) (AList.singleton dirD .dir)
  watched := [[], dirD]
  queue := []
  pending := []
  flush := none
  tables := emptyRoot.updated fileDF (Version.info ⟨[1], 0⟩) (Cas.chunksOf [1])
  errors := []

theorem lookup_populated (p : Path) :
    populated.fs.lookup p =
      if p = fileDF then some (.file ⟨[1], 0⟩) else if p = dirD then some .dir else none := by
  split
  · next h => rw [h, populated, AList.lookup_insert]
  · next h =>
    rw [populated, AList.lookup_insert_ne h]
    split
    · next hd => rw [hd]; rfl
    · next hd =>
      refine AList.lookup_eq_none.2 fun hmem => hd ?_
      simpa [AList.mem_keys, AList.keys_singleton] using AList.mem_keys.1 hmem

theorem populated_agrees : populated.Agrees := by
  intro key
  by_cases hkey : key = relPath fileDF
  · subst hkey
    refine iff_of_true ?_ ⟨fileDF, by decide, by decide, rfl⟩
    obtain ⟨id, hrow⟩ := Db.Tables.lookup_update_self .empty _ _ _
    exact Option.isSome_iff_exists.2 ⟨_, hrow⟩
  · refine iff_of_false ?_ ?_
    · rw [show populated.tables.files.lookup key = none from Db.Tables.lookup_update_ne _ _ _ hkey]
      simp
    · rintro ⟨p, -, hfile, rfl⟩
      obtain ⟨v, hv⟩ := Fs.isFile_iff.1 hfile
      rw [lookup_populated, if_neg fun hp => hkey (congrArg relPath hp)] at hv
      split at hv
      · cases hv
      · cases hv

/-- The directory is moved out of the root: its event is handled as that of a file `d`, of which
there is no row, and the row of `d/f` stays. -/
theorem moved_directory_stays_listed :
    populated.Agrees ∧ populated.Quiet ∧
      (∀ d, d ∈ populated.watched ↔ Visible d ∧ populated.fs.IsDir d) ∧
      ∃ s, exec State.step populated [.change (.moveOut dirD), .handle, .flush, .visit dirD,
          .work true, .finish] = some s ∧ s.Quiet ∧ s.errors = [] ∧ ¬ s.Agrees := by
  refine ⟨populated_agrees, ⟨rfl, rfl, rfl⟩, ?_, ?_⟩
  · intro d
    constructor
    · intro hd
      rcases List.mem_pair.1 hd with rfl | rfl
      · exact ⟨by decide, .inl rfl⟩
      · exact ⟨by decide, .inr rfl⟩
    · rintro ⟨-, rfl | hd⟩
      · exact List.mem_cons_self
      · rw [lookup_populated] at hd
        split at hd
        · cases hd
        · split at hd
          · next h => exact h ▸ List.mem_cons_of_mem _ List.mem_cons_self
          · cases hd
  · obtain ⟨s, hs, hquiet, herrors, hrow, hfs⟩ : ∃ s, exec State.step populated
        [.change (.moveOut dirD), .handle, .flush, .visit dirD, .work true, .finish] = some s ∧
        s.Quiet ∧ s.errors = [] ∧ (s.row fileDF).isSome ∧ s.fs = ∅ :=
      ⟨_, rfl, ⟨rfl, rfl, rfl⟩, rfl, rfl, rfl⟩
    refine ⟨s, hs, hquiet, herrors, fun hagrees => ?_⟩
    obtain ⟨p, -, hfile, -⟩ := (hagrees (relPath fileDF)).1 hrow
    rw [hfs] at hfile
    cases hfile

end FileSync.Watcher
