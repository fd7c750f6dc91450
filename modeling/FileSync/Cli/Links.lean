import FileSync.Os.Links
import FileSync.Merkle.Build

/-!
# Cli — commands where files have links

The calls of a command, answered by a file system with hard and symbolic links.  `BuildFromFS` and
`filepath.Walk` look at the entries of a directory with `lstat`, so that a symbolic link is no
directory to them and has a mode of its own; but `os.Open`, with which they read its content,
follows it (`internal/merkle/build.go`, `cmd/p2p-file-sync/main.go`).  The directory that it is
given `BuildFromFS` looks at with `stat`, and `filepath.Walk` with `lstat`.

* `seen` is the tree that `BuildFromFS` reads.  A link that leads to no file makes the reading fail.
* `reach_seen_iff`: what stands in it at a path is what the path's last name is seen as.
-/

open Filepath

namespace FileSync.Cli

open Proto (Request Exchange)
open Merkle (hidden Visible)
open Os.Linked (Fs linkMode)

/-! ### What is seen -/

mutual

/-- An entry at a path, as `BuildFromFS` sees it: without the names that start with a dot, which it
skips. -/
def seen (fs : Fs) (path : List Bytes) : Os.Linked.Entry → Except Errno Os.Entry
  | .file ino => .ok (.file (fs.inodes ino).mode (fs.inodes ino).content)
  | .link _ => do return .file linkMode (← fs.read path)
  | .dir m es => do return .dir m (← seenEntries fs path es)

def seenEntries (fs : Fs) (path : List Bytes) :
    List (Bytes × Os.Linked.Entry) → Except Errno (List (Bytes × Os.Entry))
  | [] => .ok []
  | (name, e) :: es =>
    if hidden name then seenEntries fs path es
    else do
      let e' ← seen fs (path ++ [name]) e
      let es' ← seenEntries fs path es
      return (name, e') :: es'

end

/-! ### The calls -/

/-- A file system with links, the process's umask and the peer's state. -/
structure LinkedWorld (ν : Type) where
  fs : Fs
  umask : UInt32
  net : ν

/-- An absolute path in the form that `filepath.Clean` gives it: its names are those that a lookup
goes by. -/
structure IsClean (path : Bytes) : Prop where
  abs : isAbs path
  clean : clean path = path

/-- What a change makes of the file system. -/
def applyLinked (fs : Fs) (umask : UInt32) : Change → Except Errno Fs
  | .mkdirAll path mode => fs.mkdirAll (resolve path) (perm umask mode)
  | .openTrunc path mode => fs.createTrunc (resolve path) (perm umask mode)
  | .write path data => fs.append (resolve path) data
  | .rename src dst => fs.rename (resolve src) (resolve dst)
  | .remove path => fs.remove (resolve path)
  | .chmod path mode => fs.chmod (resolve path) mode

/-- The answers to the calls, with the replies of `peer`. -/
def handleLinked {ν : Type} (peer : Request → ν → Exchange × ν) :
    Prog.Handler Op Op.Resp (LinkedWorld ν)
  | .stat path, w => (w.fs.stat (resolve path), w)
  | .openRead path, w => ((w.fs.stat (resolve path)).map fun _ => (), w)
  | .readAll path, w => (w.fs.read (resolve path), w)
  | .readTree path, w => (do seen w.fs (resolve path) (← w.fs.lookup (resolve path)), w)
  | .walkTree path, w => (w.fs.lstat (resolve path), w)
  | .change c, w =>
    match applyLinked w.fs w.umask c with
    | .ok fs => (.ok (), { w with fs := fs })
    | .error e => (.error e, w)
  | .exchange req, w => ((peer req w.net).1, { w with net := (peer req w.net).2 })

section Rules

variable {ν α : Type} {peer : Request → ν → Exchange × ν} {w : LinkedWorld ν} {path : Bytes}

theorem run_stat {k : Except Errno Os.Entry → Cmd α} :
    (Sys.stat path >>= k).run (handleLinked peer) w =
      (k (w.fs.stat (resolve path))).run (handleLinked peer) w := rfl

theorem run_openRead {k : Except Errno Unit → Cmd α} :
    (Sys.openRead path >>= k).run (handleLinked peer) w =
      (k ((w.fs.stat (resolve path)).map fun _ => ())).run (handleLinked peer) w := rfl

theorem run_readAll {k : Except Errno Bytes → Cmd α} :
    (Sys.readAll path >>= k).run (handleLinked peer) w =
      (k (w.fs.read (resolve path))).run (handleLinked peer) w := rfl

theorem run_readTree {k : Except Errno Os.Entry → Cmd α} :
    (Sys.readTree path >>= k).run (handleLinked peer) w =
      (k (do seen w.fs (resolve path) (← w.fs.lookup (resolve path)))).run (handleLinked peer) w :=
  rfl

theorem run_walkTree {k : Except Errno Os.Entry → Cmd α} :
    (Sys.walkTree path >>= k).run (handleLinked peer) w =
      (k (w.fs.lstat (resolve path))).run (handleLinked peer) w := rfl

theorem run_exchange {req : Request} {k : Exchange → Cmd α} :
    (Sys.exchange req >>= k).run (handleLinked peer) w =
      (k (peer req w.net).1).run (handleLinked peer) { w with net := (peer req w.net).2 } := rfl

/-- A path that leads to a file can be opened and read. -/
theorem answers_of_read {c : Bytes} (h : w.fs.content (resolve path) = some c) :
    handleLinked peer (.openRead path) w = (.ok (), w) ∧
      handleLinked peer (.readAll path) w = (.ok c, w) := by
  have hread := Fs.content_eq_some.1 h
  obtain ⟨ino, hl, -⟩ := Fs.read_eq_ok.1 hread
  obtain ⟨x, hx⟩ := Fs.stat_of_lookup hl trivial
  constructor
  · simp only [handleLinked, hx]
    rfl
  · simp only [handleLinked, hread]

/-- Any other cannot be opened, or it can be opened and not read. -/
theorem answers_of_not_read (h : w.fs.content (resolve path) = none) :
    (∃ e, handleLinked peer (.openRead path) w = (.error e, w)) ∨
      handleLinked peer (.openRead path) w = (.ok (), w) ∧
        ∃ e, handleLinked peer (.readAll path) w = (.error e, w) := by
  obtain ⟨e, hr⟩ := Fs.content_eq_none.1 h
  cases hst : w.fs.stat (resolve path) with
  | error e' =>
    refine .inl ⟨e', ?_⟩
    simp only [handleLinked, hst]
    rfl
  | ok x =>
    refine .inr ⟨?_, e, ?_⟩
    · simp only [handleLinked, hst]
      rfl
    · simp only [handleLinked, hr]

/-- A change that succeeds. -/
theorem run_change (c : Change) {fs : Fs} (h : applyLinked w.fs w.umask c = .ok fs)
    {k : Except Errno Unit → Cmd α} :
    (Sys.change c >>= k).run (handleLinked peer) w =
      (k (.ok ())).run (handleLinked peer) { w with fs := fs } := by
  have hstep : handleLinked peer (.change c) w = (.ok (), { w with fs := fs }) := by
    simp only [handleLinked, h]
  change (k (handleLinked peer (.change c) w).1).run (handleLinked peer)
    (handleLinked peer (.change c) w).2 = _
  rw [hstep]

/-! Where something stands, the names stay as they are and only files change. -/

/-- The world with other files. -/
def LinkedWorld.withFiles (w : LinkedWorld ν) (files : Os.Linked.Files) : LinkedWorld ν :=
  { w with fs := { w.fs with inodes := files } }

variable {files : Os.Linked.Files} {k : Except Errno Unit → Cmd α}

theorem run_mkdirAll {m : UInt32} {es : List (Bytes × Os.Linked.Entry)}
    (h : w.fs.lookup (resolve path) = .ok (.dir m es)) (mode : UInt32) :
    (Sys.mkdirAll path mode >>= k).run (handleLinked peer) (w.withFiles files) =
      (k (.ok ())).run (handleLinked peer) (w.withFiles files) :=
  run_change (w := w.withFiles files) (.mkdirAll path mode)
    (Fs.mkdirAll_of_lookup (show (w.withFiles files).fs.lookup _ = _ from h) _)

variable {ino : ℕ} (h : w.fs.lookup (resolve path) = .ok (.file ino))
include h

theorem run_openTrunc (mode : UInt32) :
    (Sys.openTrunc path mode >>= k).run (handleLinked peer) (w.withFiles files) =
      (k (.ok ())).run (handleLinked peer)
        (w.withFiles (Function.update files ino { files ino with content := [] })) :=
  run_change (w := w.withFiles files) (.openTrunc path mode)
    (Fs.createTrunc_of_lookup (show (w.withFiles files).fs.lookup _ = _ from h) _)

theorem run_write (data : Bytes) :
    (Sys.write path data >>= k).run (handleLinked peer) (w.withFiles files) =
      (k (.ok ())).run (handleLinked peer) (w.withFiles (Function.update files ino
        { files ino with content := (files ino).content ++ data })) :=
  run_change (w := w.withFiles files) (.write path data)
    (Fs.append_of_lookup (show (w.withFiles files).fs.lookup _ = _ from h) _)

theorem run_chmod (mode : UInt32) :
    (Sys.chmod path mode >>= k).run (handleLinked peer) (w.withFiles files) =
      (k (.ok ())).run (handleLinked peer) (w.withFiles (Function.update files ino
        ⟨mode &&& Os.modeBits, (files ino).content, Os.Linked.regular_and mode⟩)) :=
  run_change (w := w.withFiles files) (.chmod path mode)
    (Fs.chmod_of_lookup (show (w.withFiles files).fs.lookup _ = _ from h) _)

end Rules

/-! ### Paths in the tree that is seen -/

section Seen

variable {fs : Fs} {path : List Bytes}

theorem seen_dir {m : UInt32} {es : List (Bytes × Os.Linked.Entry)} {e : Os.Entry}
    (h : seen fs path (.dir m es) = .ok e) :
    ∃ es', seenEntries fs path es = .ok es' ∧ e = .dir m es' := by
  rw [seen] at h
  obtain ⟨es', hes, he⟩ := Except.bind_eq_ok.1 h
  cases he
  exact ⟨es', hes, rfl⟩

theorem seen_file {ino : ℕ} {e : Os.Entry} (h : seen fs path (.file ino) = .ok e) :
    e = .file (fs.inodes ino).mode (fs.inodes ino).content := by
  rw [seen] at h
  exact (Except.ok.inj h).symm

theorem seen_link {text : Bytes} {e : Os.Entry} (h : seen fs path (.link text) = .ok e) :
    ∃ c, fs.read path = .ok c ∧ e = .file linkMode c := by
  rw [seen] at h
  obtain ⟨c, hc, he⟩ := Except.bind_eq_ok.1 h
  cases he
  exact ⟨c, hc, rfl⟩

/-- What is seen as a file is a file, or a link that leads to one. -/
theorem seen_eq_file {e : Os.Linked.Entry} {mode : UInt32} {content : Bytes}
    (h : seen fs path e = .ok (.file mode content)) :
    (∃ ino, e = .file ino ∧ mode = (fs.inodes ino).mode ∧ content = (fs.inodes ino).content) ∨
      (∃ text, e = .link text) ∧ mode = linkMode ∧ fs.read path = .ok content := by
  cases e with
  | file ino =>
    cases seen_file h
    exact .inl ⟨ino, rfl, rfl, rfl⟩
  | link text =>
    obtain ⟨c, hread, he⟩ := seen_link h
    cases he
    exact .inr ⟨⟨text, rfl⟩, rfl, hread⟩
  | dir m es =>
    obtain ⟨es', -, he⟩ := seen_dir h
    cases he

/-- What is seen as a directory is one. -/
theorem seen_eq_dir {e : Os.Linked.Entry} {m : UInt32} {es' : List (Bytes × Os.Entry)}
    (h : seen fs path e = .ok (.dir m es')) : ∃ es, e = .dir m es := by
  cases e with
  | file ino =>
    cases seen_file h
  | link text =>
    obtain ⟨c, -, he⟩ := seen_link h
    cases he
  | dir m es =>
    obtain ⟨es'', -, he⟩ := seen_dir h
    cases he
    exact ⟨es, rfl⟩

theorem seenEntries_cons {name : Bytes} {e : Os.Linked.Entry}
    {es : List (Bytes × Os.Linked.Entry)} {es' : List (Bytes × Os.Entry)}
    (h : seenEntries fs path ((name, e) :: es) = .ok es') :
    (hidden name = true ∧ seenEntries fs path es = .ok es') ∨
      (hidden name = false ∧ ∃ e' es'', seen fs (path ++ [name]) e = .ok e' ∧
        seenEntries fs path es = .ok es'' ∧ es' = (name, e') :: es'') := by
  rw [seenEntries] at h
  cases hname : hidden name with
  | true =>
    rw [if_pos hname] at h
    exact .inl ⟨rfl, h⟩
  | false =>
    rw [if_neg (by simp [hname])] at h
    obtain ⟨e', he, h⟩ := Except.bind_eq_ok.1 h
    obtain ⟨es'', hes, h⟩ := Except.bind_eq_ok.1 h
    cases h
    exact .inr ⟨rfl, e', es'', he, hes, rfl⟩

theorem lookup_seenEntries {es : List (Bytes × Os.Linked.Entry)} {es' : List (Bytes × Os.Entry)}
    (h : seenEntries fs path es = .ok es') {name : Bytes} {e' : Os.Entry} :
    es'.lookup name = some e' ↔ hidden name = false ∧
      ∃ e, es.lookup name = some e ∧ seen fs (path ++ [name]) e = .ok e' := by
  induction es generalizing es' with
  | nil =>
    rw [seenEntries] at h
    cases h
    simp
  | cons x es ih =>
    obtain ⟨n, e⟩ := x
    rcases seenEntries_cons h with ⟨hn, hes⟩ | ⟨hn, x', es'', hx, hes, rfl⟩
    · rw [ih hes, List.lookup_cons]
      by_cases hname : name = n
      · subst hname
        simp [hn]
      · rw [beq_eq_false_iff_ne.2 hname]
    · rw [List.lookup_cons, List.lookup_cons]
      by_cases hname : name = n
      · subst hname
        simp [hn, hx]
      · rw [beq_eq_false_iff_ne.2 hname]
        exact ih hes

/-- Where the entries are seen, so is each of them. -/
theorem exists_seen {es : List (Bytes × Os.Linked.Entry)} {es' : List (Bytes × Os.Entry)}
    (h : seenEntries fs path es = .ok es') {name : Bytes} (hname : hidden name = false)
    {e : Os.Linked.Entry} (he : es.lookup name = some e) :
    ∃ e', seen fs (path ++ [name]) e = .ok e' := by
  induction es generalizing es' with
  | nil => cases he
  | cons x es ih =>
    obtain ⟨n, y⟩ := x
    rw [List.lookup_cons] at he
    by_cases hn : name = n
    · subst hn
      rw [beq_self_eq_true] at he
      obtain rfl := Option.some.inj he
      rcases seenEntries_cons h with ⟨hh, -⟩ | ⟨-, y', -, hy, -⟩
      · simp [hname] at hh
      · exact ⟨y', hy⟩
    · rw [beq_eq_false_iff_ne.2 hn] at he
      rcases seenEntries_cons h with ⟨-, hes⟩ | ⟨-, _, _, -, hes, -⟩
      · exact ih hes he
      · exact ih hes he

/-- **What stands in the tree that is seen**, at a path. -/
theorem reach_seen_iff {e : Os.Linked.Entry} {e' : Os.Entry} (h : seen fs path e = .ok e')
    {q : List Bytes} {x' : Os.Entry} :
    Os.reach (some e') q = some x' ↔ Visible q ∧
      ∃ x, Os.Linked.reach (some e) q = some x ∧ seen fs (path ++ q) x = .ok x' := by
  induction q generalizing path e e' with
  | nil => simp [Visible, Os.Linked.reach, h]
  | cons c q ih =>
    cases e with
    | file ino =>
      cases seen_file h
      simp [Os.reach, Os.Linked.reach]
    | link text =>
      obtain ⟨content, -, rfl⟩ := seen_link h
      simp [Os.reach, Os.Linked.reach]
    | dir m es =>
      obtain ⟨es', hes, rfl⟩ := seen_dir h
      rw [Os.reach, Os.Linked.reach, Visible, List.forall_mem_cons]
      constructor
      · intro hr
        cases hl : es'.lookup c with
        | none => simp [hl] at hr
        | some y' =>
          obtain ⟨hc, y, hy, hseen⟩ := (lookup_seenEntries hes).1 hl
          rw [hl] at hr
          obtain ⟨hq, x, hx, hx'⟩ := (ih hseen).1 hr
          rw [List.append_assoc] at hx'
          exact ⟨⟨hc, hq⟩, x, by rw [hy, hx], hx'⟩
      · rintro ⟨⟨hc, hq⟩, x, hx, hx'⟩
        cases hl : es.lookup c with
        | none =>
          rw [hl] at hx
          cases q <;> cases hx
        | some y =>
          obtain ⟨y', hy'⟩ := exists_seen hes hc hl
          rw [hl] at hx
          rw [(lookup_seenEntries hes).2 ⟨hc, y, hl, hy'⟩]
          refine (ih hy').2 ⟨hq, x, hx, ?_⟩
          rwa [List.append_assoc]

theorem mem_seenEntries {es : List (Bytes × Os.Linked.Entry)} {es' : List (Bytes × Os.Entry)}
    (h : seenEntries fs path es = .ok es') :
    (es'.map Prod.fst).Sublist (es.map Prod.fst) ∧
      ∀ x' ∈ es', ∃ x ∈ es, x'.1 = x.1 ∧ seen fs (path ++ [x.1]) x.2 = .ok x'.2 := by
  induction es generalizing es' with
  | nil =>
    rw [seenEntries] at h
    cases h
    simp
  | cons x es ih =>
    rcases seenEntries_cons h with ⟨-, hes⟩ | ⟨-, y, es'', hx, hes, rfl⟩
    · obtain ⟨hsub, hmem⟩ := ih hes
      exact ⟨hsub.cons _, fun x' hx' => (hmem x' hx').imp fun _ ⟨hy, h⟩ =>
        ⟨List.mem_cons_of_mem x hy, h⟩⟩
    · obtain ⟨hsub, hmem⟩ := ih hes
      refine ⟨hsub.cons_cons _, List.forall_mem_cons.2 ⟨⟨x, List.mem_cons_self, rfl, hx⟩, ?_⟩⟩
      exact fun x' hx' => (hmem x' hx').imp fun _ ⟨hy, h⟩ => ⟨List.mem_cons_of_mem x hy, h⟩

/-- Names that are distinct are seen so. -/
theorem wf_seen {e : Os.Linked.Entry} (he : e.WF) {e' : Os.Entry} (h : seen fs path e = .ok e') :
    e'.WF := by
  induction he generalizing path e' with
  | file ino =>
    cases seen_file h
    exact .file _ _
  | link text =>
    obtain ⟨c, -, rfl⟩ := seen_link h
    exact .file _ _
  | dir m hnames hplain _ ih =>
    obtain ⟨es', hes, rfl⟩ := seen_dir h
    obtain ⟨hsub, hmem⟩ := mem_seenEntries hes
    refine .dir m (hnames.sublist hsub) ?_ ?_
    · intro x' hx'
      obtain ⟨x, hx, hname, -⟩ := hmem x' hx'
      rw [hname]
      exact hplain x hx
    · intro x' hx'
      obtain ⟨x, hx, -, hseen⟩ := hmem x' hx'
      exact ih x hx hseen

end Seen

section Build

variable {ν : Type} {peer : Request → ν → Exchange × ν} {w : LinkedWorld ν} {dir : Bytes}

/-- What `BuildFromFS` returns. -/
theorem buildFromFS_eq_ok {t : Merkle.Tree}
    (h : ((Merkle.buildFromFS dir).run (handleLinked peer) w).1 = .ok t) :
    ∃ m es es', w.fs.lookup (resolve dir) = .ok (.dir m es) ∧
      seen w.fs (resolve dir) (.dir m es) = .ok (.dir m es') ∧
      t = ⟨some (Merkle.buildNode (base dir) (.dir m es'))⟩ := by
  rw [Merkle.buildFromFS, run_readTree] at h
  cases hr : (do seen w.fs (resolve dir) (← w.fs.lookup (resolve dir))) with
  | error err =>
    rw [hr] at h
    cases h
  | ok e =>
    obtain ⟨x, hl, hs⟩ := Except.bind_eq_ok.1 hr
    rw [hr] at h
    cases e with
    | file mode c => cases h
    | dir m es' =>
      obtain ⟨es, rfl⟩ := seen_eq_dir hs
      cases h
      exact ⟨m, es, es', hl, hs, rfl⟩

end Build

end FileSync.Cli
