import FileSync.Os.Tree
import FileSync.Os.Path

/-!
# Os — links

A file system in which a file has any number of names.  A name stands for a regular file, given by
the number of its inode, for a directory, or for a symbolic link, given by its text.  Two names of
one file are hard links.  The calls are those of `Os.Tree`; `remove` and `rename` act on a link
itself, all others on what it leads to.

* `place` is where a path leads: the names from the root of what stands at its end, without links.
* `place_append`: below a directory, names that are not links lead where they stand.
-/

namespace Os.Linked

open Filepath

/-- A regular file.  Its mode has no bits of another type. -/
@[ext]
structure Inode where
  mode : UInt32
  content : Bytes
  regular : mode &&& modeBits = mode
deriving DecidableEq

theorem regular_and (m : UInt32) : m &&& modeBits &&& modeBits = m &&& modeBits := by
  rw [UInt32.and_assoc, UInt32.and_self]

/-- A file with the permissions of `m`. -/
def Inode.ofMode (m : UInt32) (content : Bytes) : Inode := ⟨m &&& modeBits, content, regular_and m⟩

/-- What a name stands for. -/
inductive Entry
  | file (ino : ℕ)
  | link (text : Bytes)
  | dir (mode : UInt32) (entries : List (Bytes × Entry))

/-- The regular files, by their numbers. -/
abbrev Files := ℕ → Inode

/-- The mode of a symbolic link: `fs.ModeSymlink` and all permissions. -/
def linkMode : UInt32 := 0x080001ff

mutual

/-- An entry as `lstat` shows it, and all that is below it: a link is a file that holds its text. -/
def listed (files : Files) : Entry → Os.Entry
  | .file ino => .file (files ino).mode (files ino).content
  | .link text => .file linkMode text
  | .dir m es => .dir m (listedEntries files es)

def listedEntries (files : Files) : List (Bytes × Entry) → List (Bytes × Os.Entry)
  | [] => []
  | (name, e) :: es => (name, listed files e) :: listedEntries files es

end

/-- The names, the files, and a number from which on none is in use. -/
structure Fs where
  root : Option Entry
  inodes : Files
  next : ℕ

/-! ### Names -/

/-- What stands at the end of names. -/
def reach : Option Entry → List Bytes → Option Entry
  | e, [] => e
  | some (.dir _ es), c :: p => reach (es.lookup c) p
  | _, _ :: _ => none

/-- The entries with `c` made vacant, or occupied by `e`. -/
def put (es : List (Bytes × Entry)) (c : Bytes) (e : Option Entry) : List (Bytes × Entry) :=
  es.filter (·.1 ≠ c) ++ e.toList.map (c, ·)

/-- The tree with `e` at the end of names whose parent is a directory. -/
def modify (e : Option Entry) : Option Entry → List Bytes → Option Entry
  | _, [] => e
  | some (.dir m es), c :: p => some (.dir m (put es c (modify e (es.lookup c) p)))
  | x, _ :: _ => x

/-- The way from the directory at `here` through the elements of a path; at a link `jump` goes on,
from the root or from the directory of the link. -/
def walk (jump : List Bytes → List Bytes → Except Errno (List Bytes)) (root : Option Entry) :
    List Bytes → List Bytes → Except Errno (List Bytes)
  | here, [] => .ok here
  | here, c :: p =>
    match reach root here with
    | none => .error .notExist
    | some (.dir ..) =>
      match reach root (descend here c) with
      | some (.link text) => jump (if isAbs text then [] else here) (split text ++ p)
      | _ => walk jump root (descend here c) p
    | some _ => .error .notDir

/-- The way along at most `n` links. -/
def follow (root : Option Entry) : ℕ → List Bytes → List Bytes → Except Errno (List Bytes)
  | 0 => walk (fun _ _ => .error .loop) root
  | n + 1 => walk (follow root n) root

/-- The links that the system follows for one path. -/
def maxLinks : ℕ := 40

namespace Fs

variable (fs : Fs)

/-- Where a path leads, which may be vacant. -/
def place (p : List Bytes) : Except Errno (List Bytes) := follow fs.root maxLinks [] p

/-- Where the last name of a path stands, which may be a link. -/
def placeOfName (p : List Bytes) : Except Errno (List Bytes) :=
  match p.getLast? with
  | none => .ok []
  | some c => do
      let here ← fs.place p.dropLast
      match reach fs.root here with
      | none => .error .notExist
      | some (.dir ..) => .ok (here ++ [c])
      | some _ => .error .notDir

/-- What a path leads to. -/
def lookup (p : List Bytes) : Except Errno Entry := do
  match reach fs.root (← fs.place p) with
  | none => .error .notExist
  | some e => .ok e

/-- What the last name of a path stands for. -/
def lookupName (p : List Bytes) : Except Errno Entry := do
  match reach fs.root (← fs.placeOfName p) with
  | none => .error .notExist
  | some e => .ok e

/-! ### Calls -/

/-- `os.Lstat`, with what is below a directory. -/
def lstat (p : List Bytes) : Except Errno Os.Entry := (fs.lookupName p).map (listed fs.inodes)

/-- `os.Stat`, without what is below a directory. -/
def stat (p : List Bytes) : Except Errno Os.Entry := do
  match ← fs.lookup p with
  | .file ino => .ok (.file (fs.inodes ino).mode (fs.inodes ino).content)
  | .dir m _ => .ok (.dir m [])
  | .link _ => .error .loop

/-- `read` to the end of an open file. -/
def read (p : List Bytes) : Except Errno Bytes := do
  match ← fs.lookup p with
  | .file ino => .ok (fs.inodes ino).content
  | .dir .. => .error .isDir
  | .link _ => .error .loop

/-- The content that a path leads to. -/
def content (p : List Bytes) : Option Bytes := (fs.read p).toOption

/-- The file system with another file under a number. -/
def withInode (ino : ℕ) (f : Inode) : Fs :=
  { fs with inodes := Function.update fs.inodes ino f }

/-- `open` with `O_WRONLY`, `O_CREATE` and `O_TRUNC`; what a link leads to is created too. -/
def createTrunc (p : List Bytes) (mode : UInt32) : Except Errno Fs := do
  let q ← fs.place p
  match reach fs.root q with
  | some (.file ino) => .ok (fs.withInode ino { fs.inodes ino with content := [] })
  | some (.dir ..) => .error .isDir
  | some (.link _) => .error .loop
  | none =>
    .ok { root := modify (some (.file fs.next)) fs.root q
          inodes := Function.update fs.inodes fs.next ⟨mode &&& modeBits, [], regular_and mode⟩
          next := fs.next + 1 }

/-- `write` at the end of an open file. -/
def append (p : List Bytes) (data : Bytes) : Except Errno Fs := do
  match ← fs.lookup p with
  | .file ino =>
    let f := fs.inodes ino
    .ok (fs.withInode ino { f with content := f.content ++ data })
  | .dir .. => .error .isDir
  | .link _ => .error .loop

/-- `os.Chmod`. -/
def chmod (p : List Bytes) (mode : UInt32) : Except Errno Fs := do
  let q ← fs.place p
  match reach fs.root q with
  | some (.file ino) =>
    .ok (fs.withInode ino ⟨mode &&& modeBits, (fs.inodes ino).content, regular_and mode⟩)
  | some (.dir _ es) =>
    .ok { fs with root := modify (some (.dir (mode &&& modeBits) es)) fs.root q }
  | some (.link _) => .error .loop
  | none => .error .notExist

/-- `os.Mkdir`. -/
def mkdir (p : List Bytes) (mode : UInt32) : Except Errno Fs := do
  let q ← fs.placeOfName p
  match reach fs.root q with
  | some _ => .error .exist
  | none => .ok { fs with root := modify (some (.dir mode [])) fs.root q }

/-- `os.MkdirAll` of a path, given from its end: of the parent first, if the path leads nowhere. -/
def mkdirAllRev (mode : UInt32) : List Bytes → Except Errno Fs
  | [] =>
    match fs.lookup [] with
    | .ok (.dir ..) => .ok fs
    | .ok _ => .error .notDir
    | .error e => .error e
  | c :: p =>
    match fs.lookup (c :: p).reverse with
    | .ok (.dir ..) => .ok fs
    | .ok _ => .error .notDir
    | .error _ => do (← mkdirAllRev mode p).mkdir (c :: p).reverse mode

def mkdirAll (p : List Bytes) (mode : UInt32) : Except Errno Fs := fs.mkdirAllRev mode p.reverse

/-- `os.Remove`: a file, a link or an empty directory. -/
def remove (p : List Bytes) : Except Errno Fs := do
  let q ← fs.placeOfName p
  match reach fs.root q with
  | none => .error .notExist
  | some (.dir _ (_ :: _)) => .error .notEmpty
  | some _ => .ok { fs with root := modify none fs.root q }

/-- `os.Rename` of a file or a link; between two names of one file it does nothing. -/
def rename (src dst : List Bytes) : Except Errno Fs := do
  let p ← fs.placeOfName src
  let q ← fs.placeOfName dst
  match reach fs.root p, reach fs.root q with
  | none, _ => .error .notExist
  | some (.dir ..), _ => .error .isDir
  | some _, some (.dir ..) => .error .exist
  | some e, e' =>
    match e, e' with
    | .file ino, some (.file ino') =>
      if ino = ino' then .ok fs
      else .ok { fs with root := modify (some e) (modify none fs.root p) q }
    | _, _ => .ok { fs with root := modify (some e) (modify none fs.root p) q }

end Fs

/-! ### Where paths lead -/

theorem reach_append (e : Option Entry) (p q : List Bytes) :
    reach e (p ++ q) = reach (reach e p) q := by
  induction p generalizing e with
  | nil => cases e <;> rfl
  | cons c p ih =>
    rcases e with _ | ⟨_⟩ | ⟨_⟩ | ⟨_, es⟩
    · cases q <;> rfl
    · cases q <;> rfl
    · cases q <;> rfl
    · exact ih _

/-- The entry is not a link. -/
def Entry.Proper : Entry → Prop
  | .link _ => False
  | _ => True

/-- From a directory, names that end at no link lead where they stand. -/
theorem walk_of_reach (jump : List Bytes → List Bytes → Except Errno (List Bytes))
    {root : Option Entry} {q : List Bytes} (hq : ∀ c ∈ q, Plain c) {here : List Bytes} {e : Entry}
    (h : reach root (here ++ q) = some e) (he : e.Proper) :
    walk jump root here q = .ok (here ++ q) := by
  induction q generalizing here with
  | nil => rw [walk, List.append_nil]
  | cons c q ih =>
    rw [List.forall_mem_cons] at hq
    have hstep : here ++ c :: q = here ++ [c] ++ q := by simp
    rw [hstep] at h ⊢
    have hrest := ih hq.2 h
    rw [reach_append] at h
    rw [walk, descend_plain hq.1]
    rcases hhere : reach root here with _ | ⟨i⟩ | ⟨t⟩ | ⟨m, es⟩
    · rw [reach_append, hhere] at h
      cases q <;> cases h
    · rw [reach_append, hhere] at h
      cases q <;> cases h
    · rw [reach_append, hhere] at h
      cases q <;> cases h
    · dsimp only
      rcases hnext : reach root (here ++ [c]) with _ | ⟨i⟩ | ⟨t⟩ | ⟨m', es'⟩
      · exact hrest
      · exact hrest
      · rw [hnext] at h
        cases q with
        | nil => cases h; exact he.elim
        | cons d q => cases h
      · exact hrest

theorem walk_append {jump : List Bytes → List Bytes → Except Errno (List Bytes)}
    {root : Option Entry} {d q : List Bytes} {r : Except Errno (List Bytes)}
    (hjump : ∀ here p, jump here p = .ok d → jump here (p ++ q) = r)
    (hd : walk jump root d q = r) {p here : List Bytes}
    (h : walk jump root here p = .ok d) : walk jump root here (p ++ q) = r := by
  induction p generalizing here with
  | nil =>
    obtain rfl := Except.ok.inj h
    exact hd
  | cons c p ih =>
    rw [List.cons_append]
    rw [walk] at h ⊢
    generalize reach root here = x, reach root (descend here c) = y at h ⊢
    rcases x with _ | ⟨i⟩ | ⟨t⟩ | ⟨m, es⟩
    · cases h
    · cases h
    · cases h
    · dsimp only at h ⊢
      rcases y with _ | ⟨i⟩ | ⟨t⟩ | ⟨m', es'⟩
      · exact ih h
      · exact ih h
      · dsimp only at h ⊢
        rw [← List.append_assoc]
        exact hjump _ _ h
      · exact ih h

/-- A path leads on from where it leads, if no link is met on the way. -/
theorem follow_append {root : Option Entry} {d q : List Bytes} {r : Except Errno (List Bytes)}
    (hd : ∀ jump, walk jump root d q = r) (n : ℕ) {here p : List Bytes}
    (h : follow root n here p = .ok d) : follow root n here (p ++ q) = r := by
  induction n generalizing here p with
  | zero => exact walk_append (fun _ _ hloop => by cases hloop) (hd _) h
  | succ n ih => exact walk_append (fun _ _ hnext => ih hnext) (hd _) h

namespace Fs

variable {fs : Fs} {p : List Bytes}

theorem lookup_eq_ok {e : Entry} :
    fs.lookup p = .ok e ↔ ∃ d, fs.place p = .ok d ∧ reach fs.root d = some e := by
  rw [lookup]
  cases hp : fs.place p with
  | error x =>
    constructor
    · intro h
      cases h
    · rintro ⟨d, h, -⟩
      cases h
  | ok d =>
    simp only [bind, Except.bind, Except.ok.injEq, exists_eq_left']
    cases reach fs.root d with
    | none => simp
    | some x => simp

/-- **Below a directory, names that end at no link lead where they stand.** -/
theorem lookup_append {m : UInt32} {es : List (Bytes × Entry)}
    (h : fs.lookup p = .ok (.dir m es)) {q : List Bytes} (hq : ∀ c ∈ q, Plain c) {e : Entry}
    (hr : reach (some (.dir m es)) q = some e) (he : e.Proper) : fs.lookup (p ++ q) = .ok e := by
  obtain ⟨d, hd, hdir⟩ := lookup_eq_ok.1 h
  have hplace : reach fs.root (d ++ q) = some e := by rw [reach_append, hdir, hr]
  exact lookup_eq_ok.2 ⟨d ++ q,
    follow_append (fun jump => walk_of_reach jump hq hplace he) maxLinks hd, hplace⟩

/-! ### Calls where something stands -/

theorem stat_of_lookup {e : Entry} (h : fs.lookup p = .ok e) (he : e.Proper) :
    ∃ x, fs.stat p = .ok x := by
  rw [stat, h]
  cases e with
  | file ino => exact ⟨_, rfl⟩
  | link text => exact he.elim
  | dir m es => exact ⟨_, rfl⟩

theorem read_eq_ok {c : Bytes} :
    fs.read p = .ok c ↔ ∃ ino, fs.lookup p = .ok (.file ino) ∧ (fs.inodes ino).content = c := by
  rcases hp : fs.lookup p with x | ⟨ino⟩ | ⟨t⟩ | ⟨m, es⟩ <;>
    simp [read, hp, bind, Except.bind]

theorem content_eq_some {c : Bytes} : fs.content p = some c ↔ fs.read p = .ok c := by
  rw [content]
  cases fs.read p <;> simp [Except.toOption]

theorem content_eq_none : fs.content p = none ↔ ∃ e, fs.read p = .error e := by
  rw [content]
  cases fs.read p <;> simp [Except.toOption]

theorem mkdirAll_of_lookup {m : UInt32} {es : List (Bytes × Entry)}
    (h : fs.lookup p = .ok (.dir m es)) (mode : UInt32) : fs.mkdirAll p mode = .ok fs := by
  rw [mkdirAll]
  cases hp : p.reverse with
  | nil =>
    obtain rfl := List.reverse_eq_nil_iff.1 hp
    rw [mkdirAllRev, h]
  | cons c q =>
    rw [mkdirAllRev, ← hp, List.reverse_reverse, h]

variable {ino : ℕ}

theorem createTrunc_of_lookup (h : fs.lookup p = .ok (.file ino)) (mode : UInt32) :
    fs.createTrunc p mode = .ok (fs.withInode ino { fs.inodes ino with content := [] }) := by
  obtain ⟨d, hd, hr⟩ := lookup_eq_ok.1 h
  simp only [createTrunc, hd, bind, Except.bind, hr]

theorem append_of_lookup (h : fs.lookup p = .ok (.file ino)) (data : Bytes) :
    fs.append p data = .ok (fs.withInode ino
      { fs.inodes ino with content := (fs.inodes ino).content ++ data }) := by
  rw [append, h]
  rfl

theorem chmod_of_lookup (h : fs.lookup p = .ok (.file ino)) (mode : UInt32) :
    fs.chmod p mode = .ok (fs.withInode ino
      ⟨mode &&& modeBits, (fs.inodes ino).content, regular_and mode⟩) := by
  obtain ⟨d, hd, hr⟩ := lookup_eq_ok.1 h
  simp only [chmod, hd, bind, Except.bind, hr]

end Fs

/-- Distinct plain names in every directory. -/
inductive Entry.WF : Entry → Prop
  | file (ino : ℕ) : WF (.file ino)
  | link (text : Bytes) : WF (.link text)
  | dir (m : UInt32) {es : List (Bytes × Entry)} (hnames : (es.map Prod.fst).Nodup)
      (hplain : ∀ x ∈ es, Plain x.1) (hbelow : ∀ x ∈ es, WF x.2) : WF (.dir m es)

/-- What stands below names that are distinct and plain. -/
theorem wf_reach {e : Entry} (h : e.WF) {q : List Bytes} {x : Entry}
    (hx : reach (some e) q = some x) : x.WF ∧ ∀ c ∈ q, Plain c := by
  induction q generalizing e with
  | nil =>
    obtain rfl := Option.some.inj hx
    exact ⟨h, by simp⟩
  | cons c q ih =>
    cases h with
    | file ino => cases hx
    | link text => cases hx
    | @dir m es hnames hplain hbelow =>
      rw [reach] at hx
      cases hl : es.lookup c with
      | none =>
        rw [hl] at hx
        cases q <;> cases hx
      | some y =>
        obtain ⟨before, after, rfl, -⟩ := List.lookup_eq_some_iff.1 hl
        rw [hl] at hx
        have hmem : (c, y) ∈ before ++ (c, y) :: after := by simp
        obtain ⟨hwf, hrest⟩ := ih (hbelow _ hmem) hx
        exact ⟨hwf, List.forall_mem_cons.2 ⟨hplain _ hmem, hrest⟩⟩

/-- The same of a file system. -/
def Fs.WF (fs : Fs) : Prop := ∀ e, fs.root = some e → e.WF

mutual

def Entry.wf : Entry → Bool
  | .file _ => true
  | .link _ => true
  | .dir _ es => decide (es.map Prod.fst).Nodup && wfEntries es

def wfEntries : List (Bytes × Entry) → Bool
  | [] => true
  | (name, e) :: es => decide (Plain name) && e.wf && wfEntries es

end

mutual

theorem Entry.wf_iff : (e : Entry) → (e.wf = true ↔ e.WF)
  | .file ino => iff_of_true rfl (.file ino)
  | .link text => iff_of_true rfl (.link text)
  | .dir m es => by
    rw [Entry.wf, Bool.and_eq_true, decide_eq_true_iff, wfEntries_iff es]
    refine ⟨fun h => .dir m h.1 h.2.1 h.2.2, fun h => ?_⟩
    cases h with
    | dir _ hnames hplain hbelow => exact ⟨hnames, hplain, hbelow⟩

theorem wfEntries_iff : (es : List (Bytes × Entry)) →
    (wfEntries es = true ↔ (∀ x ∈ es, Plain x.1) ∧ ∀ x ∈ es, x.2.WF)
  | [] => by simp [wfEntries]
  | (name, e) :: es => by
    rw [wfEntries, Bool.and_eq_true, Bool.and_eq_true, decide_eq_true_iff, e.wf_iff,
      wfEntries_iff es, List.forall_mem_cons, List.forall_mem_cons]
    exact and_and_and_comm

end

instance (e : Entry) : Decidable e.WF := decidable_of_iff _ e.wf_iff

instance (fs : Fs) : Decidable fs.WF :=
  decidable_of_iff (fs.root.all Entry.wf = true) <| by
    cases h : fs.root <;> simp [Fs.WF, h, Entry.wf_iff]

theorem Fs.wf_of_reach {fs : Fs} (h : fs.WF) {d : List Bytes} {e : Entry}
    (hd : reach fs.root d = some e) : e.WF ∧ ∀ c ∈ d, Plain c := by
  cases hroot : fs.root with
  | none =>
    rw [hroot] at hd
    cases d <;> cases hd
  | some x =>
    rw [hroot] at hd
    exact wf_reach (h x hroot) hd

theorem Fs.wf_lookup {fs : Fs} (h : fs.WF) {p : List Bytes} {e : Entry}
    (he : fs.lookup p = .ok e) : e.WF := by
  obtain ⟨d, -, hd⟩ := Fs.lookup_eq_ok.1 he
  exact (wf_of_reach h hd).1

/-- What has something below it is a directory. -/
theorem reach_parent {e : Option Entry} {q : List Bytes} {c : Bytes} {x : Entry}
    (h : reach e (q ++ [c]) = some x) : ∃ m es, reach e q = some (.dir m es) := by
  rw [reach_append] at h
  rcases hq : reach e q with _ | ⟨i⟩ | ⟨t⟩ | ⟨m, es⟩
  · rw [hq] at h
    cases h
  · rw [hq] at h
    cases h
  · rw [hq] at h
    cases h
  · exact ⟨m, es, rfl⟩

end Os.Linked
