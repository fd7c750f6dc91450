import Mathlib.Logic.Function.Basic
import Mathlib.Data.List.Basic
import FileSync.Support.Io

/-!
# Os — Tree

A file system: directories and regular files below one root, without symbolic links, and the calls
of package `os` that read and change it.  A path is the list of names from the root; no call is
interrupted, and no call fails for want of space or permission.

`view fs` forgets the tree: it says what stands at each path.  Each call that succeeds is described
by the view before and after it (`createTrunc_ok`, `append_ok`, `mkdirAll_ok`, `rename_ok`,
`remove_ok`), and everything above reasons about views; `content fs` keeps of the view only what the
files hold (`content_mkdirAll`, `content_createTrunc`, `content_append`, `content_chmod`).
-/

namespace Os

inductive Entry
  | file (mode : UInt32) (content : Bytes)
  | dir (mode : UInt32) (entries : List (Bytes × Entry))

/-- What stands at a path, without what is below it. -/
inductive Kind
  | file (mode : UInt32) (content : Bytes)
  | dir (mode : UInt32)
deriving DecidableEq

def Entry.kind : Entry → Kind
  | .file m c => .file m c
  | .dir m _ => .dir m

/-- A place in a tree, which may be vacant; the file system is the place `/`. -/
abbrev Fs := Option Entry

/-- The entries with `c` made vacant, or occupied by `e`. -/
def put (es : List (Bytes × Entry)) (c : Bytes) : Fs → List (Bytes × Entry)
  | none => es.filter (·.1 ≠ c)
  | some e => es.filter (·.1 ≠ c) ++ [(c, e)]

/-- The place at a path. -/
def reach : Fs → List Bytes → Fs
  | fs, [] => fs
  | some (.dir _ es), c :: p => reach (es.lookup c) p
  | none, _ :: _ => none
  | some (.file ..), _ :: _ => none

/-- The tree with the place at a path changed, if its parent is a directory. -/
def modify (f : Fs → Fs) : Fs → List Bytes → Fs
  | fs, [] => f fs
  | some (.dir m es), c :: p => some (.dir m (put es c (modify f (es.lookup c) p)))
  | none, _ :: _ => none
  | some (.file m c), _ :: _ => some (.file m c)

/-- What stands at each path. -/
def view (fs : Fs) (p : List Bytes) : Option Kind := (reach fs p).map Entry.kind

/-! ### Places -/

theorem lookup_filter_ne {es : List (Bytes × Entry)} {c d : Bytes} :
    (es.filter (·.1 ≠ c)).lookup d = if d = c then none else es.lookup d := by
  induction es with
  | nil => simp
  | cons x es ih =>
    obtain ⟨n, e⟩ := x
    by_cases hn : n = c
    · subst hn
      rw [List.filter_cons_of_neg (by simp), ih]
      split
      · rfl
      · next h => rw [List.lookup_cons, beq_eq_false_iff_ne.2 h]
    · rw [List.filter_cons_of_pos (by simpa using hn), List.lookup_cons, List.lookup_cons]
      by_cases hd : d = n
      · subst hd
        simp [hn]
      · simp only [beq_eq_false_iff_ne.2 hd, ih]

@[simp] theorem lookup_put {es : List (Bytes × Entry)} {c d : Bytes} {o : Fs} :
    (put es c o).lookup d = if d = c then o else es.lookup d := by
  cases o with
  | none => exact lookup_filter_ne
  | some e =>
    rw [put, List.lookup_append, lookup_filter_ne]
    by_cases h : d = c
    · simp [h]
    · rw [if_neg h, if_neg h, List.lookup_cons, beq_eq_false_iff_ne.2 h]
      simp

@[simp] theorem reach_nil (fs : Fs) : reach fs [] = fs := by
  rcases fs with _ | ⟨⟩ <;> rfl

@[simp] theorem reach_none (p : List Bytes) : reach none p = none := by
  cases p <;> rfl

theorem reach_append (fs : Fs) (p q : List Bytes) : reach fs (p ++ q) = reach (reach fs p) q := by
  induction p generalizing fs with
  | nil => simp
  | cons c p ih =>
    rcases fs with _ | ⟨_, _⟩ | ⟨_, es⟩
    · simp
    · simp [reach]
    · exact ih _

/-- The parent of what is not the root. -/
def InDir (fs : Fs) (p : List Bytes) : Prop :=
  p = [] ∨ ∃ m es, reach fs p.dropLast = some (.dir m es)

theorem inDir_cons {m : UInt32} {es : List (Bytes × Entry)} {c d : Bytes} {p : List Bytes} :
    InDir (some (.dir m es)) (c :: d :: p) ↔ InDir (es.lookup c) (d :: p) := by
  simp [InDir, reach]

/-- What is there is in a directory. -/
theorem inDir_of_reach {fs : Fs} {p : List Bytes} {e : Entry} (h : reach fs p = some e) :
    InDir fs p := by
  rcases List.eq_nil_or_concat p with rfl | ⟨p, c, rfl⟩
  · exact Or.inl rfl
  · right
    rw [List.concat_eq_append, reach_append] at h
    rw [List.concat_eq_append, List.dropLast_concat]
    rcases hp : reach fs p with _ | ⟨_, _⟩ | ⟨m, es⟩
    · simp [hp] at h
    · simp [hp, reach] at h
    · exact ⟨m, es, rfl⟩

theorem reach_modify {f : Fs → Fs} {fs : Fs} {p : List Bytes} (h : InDir fs p) :
    reach (modify f fs p) p = f (reach fs p) := by
  induction p generalizing fs with
  | nil => simp [modify]
  | cons c p ih =>
    obtain ⟨m, es, hdir⟩ := h.resolve_left (by simp)
    rcases fs with _ | ⟨_, _⟩ | ⟨m', es'⟩
    · simp at hdir
    · cases p <;> simp [reach] at hdir
    · simp only [modify, reach, lookup_put, if_true]
      cases p with
      | nil => simp [modify]
      | cons d p => exact ih (inDir_cons.1 (Or.inr ⟨m, es, hdir⟩))

/-- Elsewhere nothing changes. -/
theorem view_modify_elsewhere {f : Fs → Fs} {fs : Fs} {p q : List Bytes} (h : ¬ p <+: q) :
    view (modify f fs p) q = view fs q := by
  induction p generalizing fs q with
  | nil => exact (h List.nil_prefix).elim
  | cons c p ih =>
    rcases fs with _ | ⟨_, _⟩ | ⟨m, es⟩
    · rfl
    · rfl
    · cases q with
      | nil => rfl
      | cons d q =>
        simp only [modify, view, reach, lookup_put]
        by_cases hd : d = c
        · subst hd
          rw [if_pos rfl]
          exact ih fun hpq => h (List.cons_prefix_cons.2 ⟨rfl, hpq⟩)
        · rw [if_neg hd]

/-- A place with nothing below it. -/
def Leaf : Fs → Prop
  | none => True
  | some (.file ..) => True
  | some (.dir _ es) => es = []

theorem Leaf.reach {o : Fs} (h : Leaf o) {p : List Bytes} (hp : p ≠ []) : Os.reach o p = none := by
  cases p with
  | nil => exact (hp rfl).elim
  | cons c p =>
    rcases o with _ | ⟨_, _⟩ | ⟨_, es⟩
    · rfl
    · rfl
    · obtain rfl : es = [] := h
      simp [Os.reach]

/-- A change of a place without descendants to another such place. -/
theorem view_modify_leaf {f : Fs → Fs} {fs : Fs} {p : List Bytes} (hin : InDir fs p)
    (hleaf : Leaf (reach fs p)) (hleaf' : Leaf (f (reach fs p))) :
    view (modify f fs p) = Function.update (view fs) p ((f (reach fs p)).map Entry.kind) := by
  funext q
  by_cases hpq : p <+: q
  · obtain ⟨r, rfl⟩ := hpq
    rw [view, reach_append, reach_modify hin]
    by_cases hr : r = []
    · simp [hr]
    · rw [hleaf'.reach hr, Function.update_of_ne (by simpa using hr), view, reach_append,
        hleaf.reach hr]
  · rw [view_modify_elsewhere hpq,
      Function.update_of_ne fun h : q = p => hpq (h ▸ List.prefix_refl p)]

/-! ### Calls -/

/-- `stat`: a file in the way is `ENOTDIR`, a missing entry `ENOENT`. -/
def stat : Fs → List Bytes → Except Errno Entry
  | none, _ => .error .notExist
  | some e, [] => .ok e
  | some (.file ..), _ :: _ => .error .notDir
  | some (.dir _ es), c :: p => stat (es.lookup c) p

/-- Directories from the first vacant place on. -/
def mkdirs (mode : UInt32) : Fs → List Bytes → Fs
  | none, [] => some (.dir mode [])
  | none, c :: p => some (.dir mode (put [] c (mkdirs mode none p)))
  | some (.dir m es), c :: p => some (.dir m (put es c (mkdirs mode (es.lookup c) p)))
  | some e, _ => some e

/-- `os.MkdirAll`. -/
def mkdirAll (fs : Fs) (p : List Bytes) (mode : UInt32) : Except Errno Fs :=
  match stat fs p with
  | .ok (.dir ..) => .ok fs
  | .ok (.file ..) => .error .notDir
  | .error .notExist => .ok (mkdirs mode fs p)
  | .error e => .error e

/-- `open` with `O_WRONLY`, `O_CREATE` and `O_TRUNC`. -/
def createTrunc (fs : Fs) (p : List Bytes) (mode : UInt32) : Except Errno Fs :=
  match stat fs p with
  | .ok (.dir ..) => .error .isDir
  | .ok (.file m _) => .ok (modify (fun _ => some (.file m [])) fs p)
  | .error .notExist =>
    match stat fs p.dropLast with
    | .ok (.dir ..) => .ok (modify (fun _ => some (.file mode [])) fs p)
    | .ok (.file ..) => .error .notDir
    | .error e => .error e
  | .error e => .error e

/-- `write` at the end of an open file. -/
def append (fs : Fs) (p : List Bytes) (data : Bytes) : Except Errno Fs :=
  match stat fs p with
  | .ok (.file m c) => .ok (modify (fun _ => some (.file m (c ++ data))) fs p)
  | .ok (.dir ..) => .error .isDir
  | .error e => .error e

/-- `read` to the end of an open file. -/
def read (fs : Fs) (p : List Bytes) : Except Errno Bytes :=
  match stat fs p with
  | .ok (.file _ c) => .ok c
  | .ok (.dir ..) => .error .isDir
  | .error e => .error e

/-- `os.Remove`: a file or an empty directory. -/
def remove (fs : Fs) (p : List Bytes) : Except Errno Fs :=
  match stat fs p with
  | .ok (.file ..) => .ok (modify (fun _ => none) fs p)
  | .ok (.dir _ []) => .ok (modify (fun _ => none) fs p)
  | .ok (.dir ..) => .error .notEmpty
  | .error e => .error e

/-- `os.Rename` of a file. -/
def rename (fs : Fs) (src dst : List Bytes) : Except Errno Fs :=
  match stat fs src with
  | .ok (.file m c) =>
    match stat fs dst with
    | .ok (.dir ..) => .error .exist
    | .ok (.file ..) =>
      .ok (modify (fun _ => some (.file m c)) (modify (fun _ => none) fs src) dst)
    | .error .notExist =>
      match stat fs dst.dropLast with
      | .ok (.dir ..) =>
        .ok (modify (fun _ => some (.file m c)) (modify (fun _ => none) fs src) dst)
      | .ok (.file ..) => .error .notDir
      | .error e => .error e
    | .error e => .error e
  | .ok (.dir ..) => .error .isDir
  | .error e => .error e

/-- The bits of an `os.FileMode` that `chmod` sets: the permissions and `ModeSetuid`, `ModeSetgid`
and `ModeSticky`. -/
def modeBits : UInt32 := 0xd001ff

/-- `os.Chmod`. -/
def chmod (fs : Fs) (p : List Bytes) (mode : UInt32) : Except Errno Fs :=
  match stat fs p with
  | .ok (.file _ c) => .ok (modify (fun _ => some (.file mode c)) fs p)
  | .ok (.dir _ es) => .ok (modify (fun _ => some (.dir mode es)) fs p)
  | .error e => .error e

/-! ### What the calls do to the view -/

theorem stat_ok {fs : Fs} {p : List Bytes} {e : Entry} :
    stat fs p = .ok e ↔ reach fs p = some e := by
  induction p generalizing fs with
  | nil => cases fs <;> simp [stat]
  | cons c p ih =>
    rcases fs with _ | ⟨_, _⟩ | ⟨_, es⟩
    · simp [stat]
    · simp [stat, reach]
    · exact ih

theorem reach_of_stat_error {fs : Fs} {p : List Bytes} {e : Errno} (h : stat fs p = .error e) :
    reach fs p = none := by
  cases hr : reach fs p with
  | none => rfl
  | some x =>
    rw [stat_ok.2 hr] at h
    cases h

theorem inDir_of_stat {fs : Fs} {p : List Bytes} {m : UInt32} {es : List (Bytes × Entry)}
    (h : stat fs p.dropLast = .ok (.dir m es)) : InDir fs p :=
  Or.inr ⟨m, es, stat_ok.1 h⟩

theorem createTrunc_ok {fs fs' : Fs} {p : List Bytes} {mode : UInt32}
    (h : createTrunc fs p mode = .ok fs') :
    ∃ m, view fs' = Function.update (view fs) p (some (.file m [])) ∧
      (view fs p = none ∨ ∃ c, view fs p = some (.file m c)) := by
  unfold createTrunc at h
  split at h
  · cases h
  · next m c hs =>
      obtain rfl := Except.ok.inj h
      have hr := stat_ok.1 hs
      exact ⟨m, view_modify_leaf (inDir_of_reach hr) (by rw [hr]; trivial) trivial,
        Or.inr ⟨c, by simp [view, hr, Entry.kind]⟩⟩
  · next hs =>
      have hr := reach_of_stat_error hs
      split at h
      · next hd =>
          obtain rfl := Except.ok.inj h
          exact ⟨mode, view_modify_leaf (inDir_of_stat hd) (by rw [hr]; trivial) trivial,
            Or.inl (by simp [view, hr])⟩
      · cases h
      · cases h
  · cases h

theorem append_ok {fs fs' : Fs} {p : List Bytes} {data : Bytes} (h : append fs p data = .ok fs') :
    ∃ m c, view fs p = some (.file m c) ∧
      view fs' = Function.update (view fs) p (some (.file m (c ++ data))) := by
  unfold append at h
  split at h
  · next m c hs =>
      obtain rfl := Except.ok.inj h
      have hr := stat_ok.1 hs
      exact ⟨m, c, by simp [view, hr, Entry.kind],
        view_modify_leaf (inDir_of_reach hr) (by rw [hr]; trivial) trivial⟩
  · cases h
  · cases h

theorem remove_ok {fs fs' : Fs} {p : List Bytes} (h : remove fs p = .ok fs') :
    view fs' = Function.update (view fs) p none := by
  unfold remove at h
  split at h
  · next hs =>
      obtain rfl := Except.ok.inj h
      have hr := stat_ok.1 hs
      exact view_modify_leaf (inDir_of_reach hr) (by rw [hr]; trivial) trivial
  · next hs =>
      obtain rfl := Except.ok.inj h
      have hr := stat_ok.1 hs
      exact view_modify_leaf (inDir_of_reach hr) (by rw [hr]; rfl) trivial
  · cases h
  · cases h

/-- The kind with another mode. -/
def Kind.withMode (mode : UInt32) : Kind → Kind
  | .file _ c => .file mode c
  | .dir _ => .dir mode

theorem chmod_ok {fs fs' : Fs} {p : List Bytes} {mode : UInt32} (h : chmod fs p mode = .ok fs') :
    ∃ k, view fs p = some k ∧
      view fs' = Function.update (view fs) p (some (k.withMode mode)) := by
  unfold chmod at h
  split at h
  · next m c hs =>
      obtain rfl := Except.ok.inj h
      have hr := stat_ok.1 hs
      exact ⟨.file m c, by simp [view, hr, Entry.kind],
        view_modify_leaf (inDir_of_reach hr) (by rw [hr]; trivial) trivial⟩
  · next m es hs =>
      obtain rfl := Except.ok.inj h
      have hr := stat_ok.1 hs
      refine ⟨.dir m, by simp [view, hr, Entry.kind], funext fun q => ?_⟩
      by_cases hpq : p <+: q
      · -- Below a directory whose mode changes nothing else does.
        obtain ⟨r, rfl⟩ := hpq
        rw [view, reach_append, reach_modify (inDir_of_reach hr)]
        cases r with
        | nil =>
          rw [List.append_nil, Function.update_self]
          rfl
        | cons c r =>
          rw [Function.update_of_ne (by simp), view, reach_append, hr]
          rfl
      · rw [view_modify_elsewhere hpq,
          Function.update_of_ne fun h : q = p => hpq (h ▸ List.prefix_refl p)]
  · cases h

theorem leaf_of_view {fs : Fs} {p : List Bytes}
    (h : view fs p = none ∨ ∃ m c, view fs p = some (.file m c)) : Leaf (reach fs p) := by
  unfold view at h
  rcases hr : reach fs p with _ | ⟨_, _⟩ | ⟨_, _⟩
  · trivial
  · trivial
  · simp [hr, Entry.kind] at h

theorem inDir_of_view {fs : Fs} {p : List Bytes} {m : UInt32}
    (h : view fs p.dropLast = some (.dir m)) : InDir fs p := by
  unfold view at h
  rcases hr : reach fs p.dropLast with _ | ⟨_, _⟩ | ⟨m', es⟩
  · simp [hr] at h
  · simp [hr, Entry.kind] at h
  · exact Or.inr ⟨m', es, hr⟩

theorem InDir.view {fs : Fs} {p : List Bytes} (h : InDir fs p) :
    p = [] ∨ ∃ m, Os.view fs p.dropLast = some (.dir m) := by
  rcases h with h | ⟨m, es, h⟩
  · exact Or.inl h
  · exact Or.inr ⟨m, by simp [Os.view, h, Entry.kind]⟩

/-- A file moved to where a file or nothing is. -/
theorem view_move {fs : Fs} {src dst : List Bytes} {m : UInt32} {c : Bytes}
    (hsrc : reach fs src = some (.file m c)) (hin : InDir fs dst)
    (hdst : view fs dst = none ∨ ∃ m c, view fs dst = some (.file m c)) :
    view (modify (fun _ => some (.file m c)) (modify (fun _ => none) fs src) dst) =
      Function.update (Function.update (view fs) src none) dst (some (.file m c)) := by
  have hview : view (modify (fun _ => none) fs src) = Function.update (view fs) src none :=
    view_modify_leaf (inDir_of_reach hsrc) (by rw [hsrc]; trivial) trivial
  rw [← hview]
  refine view_modify_leaf ?_ (leaf_of_view ?_) trivial
  · rcases hin.view with rfl | ⟨m', hm'⟩
    · exact Or.inl rfl
    · refine inDir_of_view (m := m') ?_
      rw [hview, Function.update_of_ne, hm']
      rintro rfl
      simp [view, hsrc, Entry.kind] at hm'
  · rw [hview]
    by_cases h : dst = src
    · simp [h]
    · rwa [Function.update_of_ne h]

theorem rename_ok {fs fs' : Fs} {src dst : List Bytes} (h : rename fs src dst = .ok fs') :
    ∃ m c, view fs src = some (.file m c) ∧
      view fs' = Function.update (Function.update (view fs) src none) dst (some (.file m c)) := by
  unfold rename at h
  split at h
  · next m c hs =>
      have hsrc := stat_ok.1 hs
      refine ⟨m, c, by simp [view, hsrc, Entry.kind], ?_⟩
      split at h
      · cases h
      · next m' c' hd =>
          obtain rfl := Except.ok.inj h
          have hdst := stat_ok.1 hd
          exact view_move hsrc (inDir_of_reach hdst)
            (Or.inr ⟨m', c', by simp [view, hdst, Entry.kind]⟩)
      · next hd =>
          split at h
          · next hp =>
              obtain rfl := Except.ok.inj h
              exact view_move hsrc (inDir_of_stat hp)
                (Or.inl (by simp [view, reach_of_stat_error hd]))
          · cases h
          · cases h
      · cases h
  · cases h
  · cases h

/-- No file stands on the way to `p` or at `p`. -/
def NoFile (fs : Fs) (p : List Bytes) : Prop := ∀ q, q <+: p → ∀ m c, view fs q ≠ some (.file m c)

theorem NoFile.tail {m : UInt32} {es : List (Bytes × Entry)} {c : Bytes} {p : List Bytes}
    (h : NoFile (some (.dir m es)) (c :: p)) : NoFile (es.lookup c) p :=
  fun q hq m' k => h (c :: q) (List.cons_prefix_cons.2 ⟨rfl, hq⟩) m' k

theorem noFile_none (p : List Bytes) : NoFile none p := fun q _ m c => by simp [view]

theorem view_mkdirs {mode : UInt32} {fs : Fs} {p : List Bytes} (h : NoFile fs p) (q : List Bytes) :
    view (mkdirs mode fs p) q =
      if q <+: p ∧ view fs q = none then some (.dir mode) else view fs q := by
  induction p generalizing fs q with
  | nil =>
    rcases fs with _ | ⟨m, c⟩ | ⟨_, es⟩
    · cases q with
      | nil => simp [mkdirs, view, Entry.kind]
      | cons d q => simp [mkdirs, view, reach]
    · exact (h [] List.nil_prefix m c rfl).elim
    · cases q with
      | nil => simp [mkdirs, view]
      | cons d q => simp [mkdirs, view]
  | cons c p ih =>
    -- Below an entry that is not on the way nothing changes; below `c` the induction applies.
    rcases fs with _ | ⟨m, k⟩ | ⟨m, es⟩
    · cases q with
      | nil => simp [mkdirs, view, Entry.kind]
      | cons d q =>
        have hstep := ih (noFile_none p) q
        by_cases hd : d = c
        · subst hd
          simpa [mkdirs, view, reach, List.cons_prefix_cons] using hstep
        · simp [mkdirs, view, reach, List.cons_prefix_cons, hd]
    · exact (h [] List.nil_prefix m k rfl).elim
    · cases q with
      | nil => simp [mkdirs, view, Entry.kind]
      | cons d q =>
        by_cases hd : d = c
        · subst hd
          simpa [mkdirs, view, reach, List.cons_prefix_cons] using ih h.tail q
        · simp [mkdirs, view, reach, List.cons_prefix_cons, hd]

theorem noFile_cons {m : UInt32} {es : List (Bytes × Entry)} {c : Bytes} {p : List Bytes} :
    NoFile (some (.dir m es)) (c :: p) ↔ NoFile (es.lookup c) p := by
  refine ⟨NoFile.tail, fun h q hq m' k => ?_⟩
  cases q with
  | nil => simp [view, Entry.kind]
  | cons d q =>
    obtain ⟨rfl, hq'⟩ := List.cons_prefix_cons.1 hq
    exact h q hq' m' k

/-- Where nothing is, `stat` fails: with `ENOTDIR` if a file is in the way, with `ENOENT` if not. -/
theorem stat_of_vacant {fs : Fs} {p : List Bytes} (h : view fs p = none) :
    (stat fs p = .error .notExist ∧ NoFile fs p) ∨
      (stat fs p = .error .notDir ∧ ¬ NoFile fs p) := by
  induction p generalizing fs with
  | nil =>
    cases fs with
    | none => exact Or.inl ⟨rfl, noFile_none _⟩
    | some e => simp [view] at h
  | cons c p ih =>
    rcases fs with _ | ⟨m, k⟩ | ⟨m, es⟩
    · exact Or.inl ⟨rfl, noFile_none _⟩
    · exact Or.inr ⟨rfl, fun hn => hn [] List.nil_prefix m k rfl⟩
    · rw [noFile_cons]
      exact ih h

theorem stat_of_view_file {fs : Fs} {p : List Bytes} {m : UInt32} {c : Bytes}
    (h : view fs p = some (.file m c)) : stat fs p = .ok (.file m c) := by
  obtain ⟨e, he, hk⟩ := Option.map_eq_some_iff.1 h
  rw [stat_ok, he]
  cases e with
  | file m' c' =>
    obtain ⟨rfl, rfl⟩ := Kind.file.inj hk
    rfl
  | dir m' es => cases hk

theorem stat_of_view_dir {fs : Fs} {p : List Bytes} {m : UInt32} (h : view fs p = some (.dir m)) :
    ∃ es, stat fs p = .ok (.dir m es) := by
  obtain ⟨e, he, hk⟩ := Option.map_eq_some_iff.1 h
  cases e with
  | file m' c' => cases hk
  | dir m' es =>
    obtain rfl := Kind.dir.inj hk
    exact ⟨es, stat_ok.2 he⟩

/-- Above what is there, there are directories. -/
theorem view_dir_above {fs : Fs} {p q : List Bytes} (hq : q <+: p) (hne : q ≠ p)
    (h : view fs p ≠ none) : ∃ m, view fs q = some (.dir m) := by
  obtain ⟨r, rfl⟩ := hq
  have hr : r ≠ [] := by simpa using hne
  rcases hrq : reach fs q with _ | ⟨_, _⟩ | ⟨m, _⟩
  · simp [view, reach_append, hrq] at h
  · cases r with
    | nil => exact (hr rfl).elim
    | cons c r => simp [view, reach_append, hrq, reach] at h
  · exact ⟨m, by simp [view, hrq, Entry.kind]⟩

theorem mkdirAll_ok {fs fs' : Fs} {p : List Bytes} {mode : UInt32}
    (h : mkdirAll fs p mode = .ok fs') :
    NoFile fs p ∧ ∀ q, view fs' q =
      if q <+: p ∧ view fs q = none then some (.dir mode) else view fs q := by
  cases hv : view fs p with
  | none =>
    rcases stat_of_vacant hv with ⟨hs, hn⟩ | ⟨hs, -⟩
    · simp only [mkdirAll, hs] at h
      obtain rfl := Except.ok.inj h
      exact ⟨hn, view_mkdirs hn⟩
    · simp [mkdirAll, hs] at h
  | some k =>
    have habove {q : List Bytes} (hq : q <+: p) (hne : q ≠ p) : ∃ m, view fs q = some (.dir m) :=
      view_dir_above hq hne (by simp [hv])
    cases k with
    | file m c => simp [mkdirAll, stat_of_view_file hv] at h
    | dir m =>
      obtain ⟨es, hs⟩ := stat_of_view_dir hv
      simp only [mkdirAll, hs] at h
      obtain rfl := Except.ok.inj h
      have hdir {q : List Bytes} (hq : q <+: p) : ∃ m, view fs q = some (.dir m) := by
        by_cases hne : q = p
        · exact ⟨m, hne ▸ hv⟩
        · exact habove hq hne
      refine ⟨fun q hq m' c => ?_, fun q => ?_⟩
      · obtain ⟨m'', hq'⟩ := hdir hq
        simp [hq']
      · rw [if_neg]
        rintro ⟨hq, hnone⟩
        obtain ⟨m'', hq'⟩ := hdir hq
        rw [hnone] at hq'
        cases hq'

/-! ### When the calls succeed -/

/-- The way to an entry of a directory is free. -/
theorem noFile_of_dir {fs : Fs} {p : List Bytes} {m : UInt32}
    (hdir : view fs p.dropLast = some (.dir m)) (h : ∀ m c, view fs p ≠ some (.file m c)) :
    NoFile fs p := by
  intro q hq m' c hqv
  rcases List.eq_nil_or_concat p with rfl | ⟨p, d, rfl⟩
  · obtain rfl := List.prefix_nil.1 hq
    exact h m' c hqv
  · rw [List.concat_eq_append] at *
    rw [List.dropLast_concat] at hdir
    rcases List.prefix_concat_iff.1 hq with rfl | hq
    · exact h m' c hqv
    · by_cases hne : q = p
      · rw [hne, hdir] at hqv
        cases hqv
      · have hp : view fs p ≠ none := by simp [hdir]
        obtain ⟨m'', hq''⟩ := view_dir_above hq hne hp
        rw [hqv] at hq''
        cases hq''

theorem mkdirAll_succeeds {fs : Fs} {p : List Bytes} (h : NoFile fs p) (mode : UInt32) :
    ∃ fs', mkdirAll fs p mode = .ok fs' := by
  unfold mkdirAll
  cases hv : view fs p with
  | none =>
    rcases stat_of_vacant hv with ⟨hs, -⟩ | ⟨-, hn⟩
    · rw [hs]
      exact ⟨_, rfl⟩
    · exact (hn h).elim
  | some k =>
    cases k with
    | file m c => exact (h p (List.prefix_refl p) m c hv).elim
    | dir m =>
      obtain ⟨es, hs⟩ := stat_of_view_dir hv
      rw [hs]
      exact ⟨_, rfl⟩

theorem mkdirAll_of_dir {fs : Fs} {p : List Bytes} {m : UInt32} (h : view fs p = some (.dir m))
    (mode : UInt32) : mkdirAll fs p mode = .ok fs := by
  obtain ⟨es, hs⟩ := stat_of_view_dir h
  rw [mkdirAll, hs]

theorem createTrunc_succeeds {fs : Fs} {p : List Bytes} {m : UInt32}
    (hdir : view fs p.dropLast = some (.dir m)) (h : ∀ m, view fs p ≠ some (.dir m))
    (mode : UInt32) : ∃ fs', createTrunc fs p mode = .ok fs' := by
  unfold createTrunc
  cases hv : view fs p with
  | none =>
    obtain ⟨es, hs⟩ := stat_of_view_dir hdir
    rcases stat_of_vacant hv with ⟨hp, -⟩ | ⟨-, hn⟩
    · rw [hp, hs]
      exact ⟨_, rfl⟩
    · exact (hn (noFile_of_dir hdir (by simp [hv]))).elim
  | some k =>
    cases k with
    | file m' c =>
      rw [stat_of_view_file hv]
      exact ⟨_, rfl⟩
    | dir m' => exact (h m' hv).elim

theorem append_succeeds {fs : Fs} {p : List Bytes} {m : UInt32} {c : Bytes}
    (h : view fs p = some (.file m c)) (data : Bytes) : ∃ fs', append fs p data = .ok fs' := by
  rw [append, stat_of_view_file h]
  exact ⟨_, rfl⟩

theorem rename_succeeds {fs : Fs} {src dst : List Bytes} {m m' : UInt32} {c : Bytes}
    (hsrc : view fs src = some (.file m c)) (hdir : view fs dst.dropLast = some (.dir m'))
    (hdst : ∀ m, view fs dst ≠ some (.dir m)) : ∃ fs', rename fs src dst = .ok fs' := by
  unfold rename
  rw [stat_of_view_file hsrc]
  cases hv : view fs dst with
  | none =>
    obtain ⟨es, hs⟩ := stat_of_view_dir hdir
    rcases stat_of_vacant hv with ⟨hp, -⟩ | ⟨-, hn⟩
    · simp only [hp, hs]
      exact ⟨_, rfl⟩
    · exact (hn (noFile_of_dir hdir (by simp [hv]))).elim
  | some k =>
    cases k with
    | file m'' c' =>
      simp only [stat_of_view_file hv]
      exact ⟨_, rfl⟩
    | dir m'' => exact (hdst m'' hv).elim

theorem read_ok {fs : Fs} {p : List Bytes} {c : Bytes} :
    read fs p = .ok c ↔ ∃ m, view fs p = some (.file m c) := by
  constructor
  · intro h
    unfold read at h
    split at h
    · next m c' hs =>
        obtain rfl := Except.ok.inj h
        exact ⟨m, by simp [view, stat_ok.1 hs, Entry.kind]⟩
    · cases h
    · cases h
  · rintro ⟨m, h⟩
    rw [read, stat_of_view_file h]

/-! ### What the files hold -/

/-- The content of the file at a path. -/
def content (fs : Fs) (p : List Bytes) : Option Bytes :=
  match view fs p with
  | some (.file _ c) => some c
  | _ => none

theorem content_eq_some {fs : Fs} {p : List Bytes} {c : Bytes} :
    content fs p = some c ↔ ∃ m, view fs p = some (.file m c) := by
  unfold content
  rcases view fs p with _ | ⟨_, _⟩ | _ <;> simp

theorem content_eq_some_iff_reach {fs : Fs} {p : List Bytes} {c : Bytes} :
    content fs p = some c ↔ ∃ m, reach fs p = some (.file m c) := by
  simp only [content_eq_some, ← stat_ok]
  constructor
  · rintro ⟨m, h⟩
    exact ⟨m, stat_of_view_file h⟩
  · rintro ⟨m, h⟩
    exact ⟨m, by rw [view, stat_ok.1 h]; rfl⟩

/-- A file that is there can be opened, and its directory is there. -/
theorem open_of_content {fs : Fs} {p : List Bytes} (h : content fs p ≠ none) (hp : p ≠ [])
    (mode mode' : UInt32) :
    mkdirAll fs p.dropLast mode = .ok fs ∧ ∃ fs', createTrunc fs p mode' = .ok fs' := by
  obtain ⟨c, hc⟩ := Option.ne_none_iff_exists'.1 h
  obtain ⟨m, hm⟩ := content_eq_some.1 hc
  have hne : p.dropLast ≠ p := fun h' => by
    have := congrArg List.length h'
    have := List.length_pos_of_ne_nil hp
    rw [List.length_dropLast] at *
    omega
  have hsome : view fs p ≠ none := by simp [hm]
  obtain ⟨m', hdir⟩ := view_dir_above (List.dropLast_prefix p) hne hsome
  exact ⟨mkdirAll_of_dir hdir mode, createTrunc_succeeds hdir (by simp [hm]) mode'⟩

theorem content_of_view {fs fs' : Fs} {p : List Bytes} (h : view fs' p = view fs p) :
    content fs' p = content fs p := by
  rw [content, content, h]

theorem content_update {fs fs' : Fs} {p : List Bytes} {k : Option Kind}
    (h : view fs' = Function.update (view fs) p k) (q : List Bytes) (hq : q ≠ p) :
    content fs' q = content fs q :=
  content_of_view (by rw [h, Function.update_of_ne hq])

theorem content_mkdirAll {fs fs' : Fs} {p : List Bytes} {mode : UInt32}
    (h : mkdirAll fs p mode = .ok fs') (q : List Bytes) : content fs' q = content fs q := by
  rw [content, content, (mkdirAll_ok h).2 q]
  split_ifs with hq
  · rw [hq.2]
  · rfl

theorem content_createTrunc {fs fs' : Fs} {p : List Bytes} {mode : UInt32}
    (h : createTrunc fs p mode = .ok fs') :
    content fs' p = some [] ∧ ∀ q, q ≠ p → content fs' q = content fs q := by
  obtain ⟨m, hview, -⟩ := createTrunc_ok h
  exact ⟨content_eq_some.2 ⟨m, by rw [hview, Function.update_self]⟩, content_update hview⟩

theorem content_append {fs fs' : Fs} {p : List Bytes} {data : Bytes}
    (h : append fs p data = .ok fs') :
    ∃ c, content fs p = some c ∧ content fs' p = some (c ++ data) ∧
      ∀ q, q ≠ p → content fs' q = content fs q := by
  obtain ⟨m, c, hfile, hview⟩ := append_ok h
  exact ⟨c, content_eq_some.2 ⟨m, hfile⟩,
    content_eq_some.2 ⟨m, by rw [hview, Function.update_self]⟩, content_update hview⟩

theorem content_remove {fs fs' : Fs} {p : List Bytes} (h : remove fs p = .ok fs')
    (q : List Bytes) (hq : q ≠ p) : content fs' q = content fs q :=
  content_update (remove_ok h) q hq

theorem content_chmod {fs fs' : Fs} {p : List Bytes} {mode : UInt32}
    (h : chmod fs p mode = .ok fs') (q : List Bytes) : content fs' q = content fs q := by
  obtain ⟨k, hk, hview⟩ := chmod_ok h
  by_cases hq : q = p
  · rw [hq, content, content, hview, hk, Function.update_self]
    cases k <;> rfl
  · exact content_update hview q hq

end Os
