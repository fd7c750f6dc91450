import FileSync.Merkle.Tree
import FileSync.Cas.Chunker

/-!
# Merkle — a tree from the file system

`BuildFromFS` makes a node of every file and directory below a path, except those whose name starts
with a dot (`internal/merkle/build.go`).  The path itself is not tested.

* `mentions_iff`: the chunk hashes of the tree are those of the files at paths below the root on
  which no name starts with a dot.
-/

open Sha256 Filepath

namespace FileSync.Merkle

/-- The name starts with a dot. -/
def hidden (name : Bytes) : Bool := name.head? == some 46

/-- The bit of `fs.ModeDir`. -/
def modeDir : UInt32 := 0x80000000

/-- `buildFileNode`: the hash is computed before the size is replaced. -/
def buildFileNode (name : Bytes) (mode : UInt32) (content : Bytes) : Node :=
  { newFileNode name mode ((Cas.chunksOf content).map (·.hash)) with
    size := UInt64.ofNat content.length }

mutual

/-- `buildNode`. -/
def buildNode (name : Bytes) : Os.Entry → Node
  | .file mode content => buildFileNode name mode content
  | .dir mode es => newDirNode name (mode ||| modeDir) (buildEntries es)

/-- The loop of `buildDirNode`.  The children are sorted by `NewDirNode`, so that the order in which
`ReadDir` lists them does not matter. -/
def buildEntries : List (Bytes × Os.Entry) → List Node
  | [] => []
  | (name, e) :: es => if hidden name then buildEntries es else buildNode name e :: buildEntries es

end

/-- `BuildFromFS`. -/
def buildFromFS (rootPath : Bytes) : Cmd (Except Err Tree) := do
  match ← Sys.readTree rootPath with
  | .error e => return .error (.wrap "stat root path" (.errno e))
  | .ok (.file ..) => return .error (.textOf "root path must be a directory" rootPath)
  | .ok (.dir mode es) => return .ok ⟨some (buildNode (base rootPath) (.dir mode es))⟩

/-! ### The hashes of a tree -/

theorem length_hash_buildNode (name : Bytes) (m : UInt32) (es : List (Bytes × Os.Entry)) :
    (buildNode name (.dir m es)).hash.length = 32 := by
  rw [buildNode, hash_newDirNode, Digest.length_bytes]

/-- No name starts with a dot. -/
def Visible (q : List Bytes) : Prop := ∀ name ∈ q, hidden name = false

/-- A file with content `c` is at the entry or at a visible path below it. -/
def Shows (e : Os.Entry) (c : Bytes) : Prop :=
  ∃ q m, Visible q ∧ Os.reach (some e) q = some (.file m c)

theorem shows_file {m : UInt32} {c c' : Bytes} : Shows (.file m c) c' ↔ c' = c := by
  constructor
  · rintro ⟨_ | ⟨_, _⟩, m', -, h⟩
    · exact (Os.Entry.file.inj (Option.some.inj h)).2.symm
    · cases h
  · rintro rfl
    exact ⟨[], m, by simp [Visible], rfl⟩

theorem shows_dir {m : UInt32} {es : List (Bytes × Os.Entry)} (hnames : (es.map Prod.fst).Nodup)
    {c : Bytes} : Shows (.dir m es) c ↔ ∃ x ∈ es, hidden x.1 = false ∧ Shows x.2 c := by
  constructor
  · rintro ⟨_ | ⟨name, q⟩, m', hq, h⟩
    · cases h
    · cases he : es.lookup name with
      | none => simp [Os.reach, he] at h
      | some e =>
        refine ⟨(name, e), (Os.lookup_eq_some hnames).1 he, hq name List.mem_cons_self, q, m',
          fun n hn => hq n (List.mem_cons_of_mem name hn), ?_⟩
        rwa [Os.reach, he] at h
  · rintro ⟨⟨name, e⟩, hmem, hname, q, m', hq, h⟩
    refine ⟨name :: q, m', ?_, ?_⟩
    · rintro n (_ | ⟨_, hn⟩)
      · exact hname
      · exact hq n hn
    · rwa [Os.reach, (Os.lookup_eq_some hnames).2 hmem]

/-- The loop of `buildDirNode`, as a filter and a map. -/
theorem buildEntries_eq (es : List (Bytes × Os.Entry)) :
    buildEntries es = (es.filter fun x => !hidden x.1).map fun x => buildNode x.1 x.2 := by
  induction es with
  | nil => rfl
  | cons x es ih =>
    rw [buildEntries, List.filter_cons]
    cases hidden x.1 <;> simp [ih]

theorem mem_buildEntries {es : List (Bytes × Os.Entry)} {n : Node} :
    n ∈ buildEntries es ↔ ∃ x ∈ es, hidden x.1 = false ∧ n = buildNode x.1 x.2 := by
  simp only [buildEntries_eq, List.mem_map, List.mem_filter, Bool.not_eq_true', and_assoc,
    eq_comm (a := n)]

theorem name_buildNode (name : Bytes) (e : Os.Entry) : (buildNode name e).name = name := by
  cases e <;> rw [buildNode] <;> rfl

theorem names_buildEntries (es : List (Bytes × Os.Entry)) :
    (buildEntries es).map (·.name) = (es.map Prod.fst).filter fun name => !hidden name := by
  rw [buildEntries_eq, List.map_map, List.filter_map]
  simp only [Function.comp_def, name_buildNode]

theorem nodup_buildEntries {es : List (Bytes × Os.Entry)} (h : (es.map Prod.fst).Nodup) :
    ((buildEntries es).map (·.name)).Nodup := by
  rw [names_buildEntries]
  exact h.filter _

/-- The children of a directory have distinct names. -/
theorem nodup_children_buildNode {es : List (Bytes × Os.Entry)} (h : (es.map Prod.fst).Nodup)
    (name : Bytes) (m : UInt32) :
    ((buildNode name (.dir m es)).children.map (·.name)).Nodup := by
  rw [buildNode, children_newDirNode, ((Node.perm_sortByName _).map _).nodup_iff]
  exact nodup_buildEntries h

theorem mem_children_buildNode {name : Bytes} {m : UInt32} {es : List (Bytes × Os.Entry)}
    {c : Node} : c ∈ (buildNode name (.dir m es)).children ↔
      ∃ x ∈ es, hidden x.1 = false ∧ c = buildNode x.1 x.2 := by
  rw [buildNode, children_newDirNode, (Node.perm_sortByName _).mem_iff, mem_buildEntries]

/-- The chunks of a node and of what is below it. -/
def Node.Mentions (n : Node) (hash : Bytes) : Prop := ∃ m ∈ n.nodes, hash ∈ m.chunks

theorem Node.mentions_iff {n : Node} {hash : Bytes} :
    n.Mentions hash ↔ hash ∈ n.chunks ∨ ∃ c ∈ n.children, c.Mentions hash := by
  constructor
  · rintro ⟨m, hm, hash_mem⟩
    rcases Node.mem_nodes.1 hm with rfl | ⟨c, hc, hm⟩
    · exact Or.inl hash_mem
    · exact Or.inr ⟨c, hc, m, hm, hash_mem⟩
  · rintro (h | ⟨c, hc, m, hm, hash_mem⟩)
    · exact ⟨n, Node.mem_nodes_self n, h⟩
    · exact ⟨m, Node.mem_nodes_child hc hm, hash_mem⟩

/-- The chunk hashes below a node that was built are those of the files that the entry shows. -/
theorem mentions_buildNode {e : Os.Entry} (h : e.WF) (name hash : Bytes) :
    (buildNode name e).Mentions hash ↔
      ∃ c, Shows e c ∧ hash ∈ (Cas.chunksOf c).map (·.hash) := by
  induction h generalizing name with
  | file m c =>
    rw [Node.mentions_iff, buildNode]
    simp [buildFileNode, shows_file]
  | @dir m es hnames _ _ ih =>
    have hchunks : (buildNode name (.dir m es)).chunks = [] := by
      rw [buildNode, chunks_newDirNode]
    rw [Node.mentions_iff, hchunks]
    simp only [List.not_mem_nil, false_or, mem_children_buildNode, shows_dir hnames]
    constructor
    · rintro ⟨_, ⟨x, hx, hvis, rfl⟩, hm⟩
      obtain ⟨c, hc, hmem⟩ := (ih x hx x.1).1 hm
      exact ⟨c, ⟨x, hx, hvis, hc⟩, hmem⟩
    · rintro ⟨c, ⟨x, hx, hvis, hc⟩, hmem⟩
      exact ⟨_, ⟨x, hx, hvis, rfl⟩, (ih x hx x.1).2 ⟨c, hc, hmem⟩⟩

/-- `hash` is a chunk of a node of the tree. -/
def Tree.Mentions (t : Tree) (hash : Bytes) : Prop := ∃ root ∈ t.root, root.Mentions hash

section Run

variable {ν : Type} {answer : Proto.Request → ν → Proto.Exchange × ν} {w : World ν}

/-- `BuildFromFS` reads, and succeeds on a directory. -/
theorem wp_buildFromFS {I : World ν → Prop} {dir : Bytes} {Q : Except Err Tree → World ν → Prop}
    (hI : I w) (hdir : ∀ m es, Os.reach w.fs (resolve dir) = some (.dir m es) →
      Q (.ok ⟨some (buildNode (base dir) (.dir m es))⟩) w)
    (herr : (∀ m es, Os.reach w.fs (resolve dir) ≠ some (.dir m es)) → ∀ e, Q (.error e) w) :
    Prog.wp (handle answer) I (buildFromFS dir) Q w := by
  refine wp_readTree.2 ⟨hI, ?_⟩
  rcases hst : Os.stat w.fs (resolve dir) with e | ⟨m, c⟩ | ⟨m, es⟩
  · exact herr (fun m es h => nomatch hst.symm.trans (Os.stat_ok.2 h)) _
  · exact herr (fun m es h => nomatch hst.symm.trans (Os.stat_ok.2 h)) _
  · exact hdir m es (Os.stat_ok.1 hst)

theorem run_buildFromFS {dir : Bytes} {t : Tree}
    (h : ((buildFromFS dir).run (handle answer) w).1 = .ok t) :
    ∃ m es, Os.reach w.fs (resolve dir) = some (.dir m es) ∧
      t = ⟨some (buildNode (base dir) (.dir m es))⟩ := by
  have hspec := Prog.wp_run (h := handle answer) (wp_buildFromFS (I := fun _ => True) (w := w)
    (Q := fun r _ => ∀ t, r = .ok t → ∃ m es, Os.reach w.fs (resolve dir) = some (.dir m es) ∧
      t = ⟨some (buildNode (base dir) (.dir m es))⟩) trivial
    (fun m es hr t ht => ⟨m, es, hr, (Except.ok.inj ht).symm⟩) (fun _ e t ht => nomatch ht))
  exact hspec t h

variable (answer) in
theorem exists_buildFromFS {dir : Bytes} {m : UInt32}
    (h : Os.view w.fs (resolve dir) = some (.dir m)) :
    ∃ t, ((buildFromFS dir).run (handle answer) w).1 = .ok t := by
  obtain ⟨es, hes⟩ := Os.stat_of_view_dir h
  exact Prog.wp_run (h := handle answer) (wp_buildFromFS (I := fun _ => True) (w := w)
    (Q := fun r _ => ∃ t, r = .ok t) trivial (fun m es _ => ⟨_, rfl⟩)
    (fun hno => (hno m es (Os.stat_ok.1 hes)).elim))

end Run

end FileSync.Merkle
