import FileSync.Proto.Manifest
import FileSync.Merkle.Build
import FileSync.Cli.Reconstruct

/-!
# Cli — the manifest of a directory

`convertTreeToManifest` makes the manifest that a peer is sent of a Merkle tree
(`cmd/p2p-file-sync/main.go`).

* `Advertised root` says that `root` is the manifest of a tree that `BuildFromFS` returned.  Such a
  manifest is orderly and names nothing that starts with a dot (`Advertised.orderly`,
  `Advertised.visible`).
* `at_of_mem_visits` and `exists_visit`: the reconstruction of an orderly manifest visits each of
  its nodes below the root, at the path that its names lead to.
-/

open Filepath

namespace FileSync.Cli

open Proto (ManifestNode)
open Merkle (Node Visible buildNode buildFromFS name_buildNode)

mutual

/-- `convertTreeToManifest` of a node that is not nil. -/
def convertTreeToManifest : Node → ManifestNode
  | { name, type, hash, mode, size, children := cs, chunks } =>
    { name, isDir := type = .dir, hash, mode, size, children := convertChildren cs,
      chunks := if type = .file then chunks else [] }

def convertChildren : List Node → List ManifestNode
  | [] => []
  | c :: cs => convertTreeToManifest c :: convertChildren cs

end

@[simp] theorem name_convertTreeToManifest (n : Node) :
    (convertTreeToManifest n).name = n.name := by
  cases n
  rw [convertTreeToManifest]

@[simp] theorem isDir_convertTreeToManifest (n : Node) :
    (convertTreeToManifest n).isDir = (n.type = .dir : Bool) := by
  cases n
  rw [convertTreeToManifest]

theorem convertChildren_eq (cs : List Node) :
    convertChildren cs = cs.map convertTreeToManifest := by
  induction cs with
  | nil => rfl
  | cons c cs ih => rw [convertChildren, ih, List.map_cons]

theorem children_convertTreeToManifest (n : Node) :
    (convertTreeToManifest n).children = n.children.map convertTreeToManifest := by
  cases n
  rw [convertTreeToManifest, convertChildren_eq]

/-! ### Manifests of directories -/

/-- The children of the manifest of a directory. -/
theorem mem_children_buildNode {name : Bytes} {m : UInt32} {es : List (Bytes × Os.Entry)}
    {c : ManifestNode} :
    c ∈ (convertTreeToManifest (buildNode name (.dir m es))).children ↔
      ∃ x ∈ es, Merkle.hidden x.1 = false ∧ c = convertTreeToManifest (buildNode x.1 x.2) := by
  rw [children_convertTreeToManifest, List.mem_map]
  simp only [Merkle.mem_children_buildNode]
  constructor
  · rintro ⟨_, ⟨x, hx, hh, rfl⟩, rfl⟩
    exact ⟨x, hx, hh, rfl⟩
  · rintro ⟨x, hx, hh, rfl⟩
    exact ⟨_, ⟨x, hx, hh, rfl⟩, rfl⟩

theorem children_buildNode_file (name : Bytes) (m : UInt32) (c : Bytes) :
    (convertTreeToManifest (buildNode name (.file m c))).children = [] := by
  rw [children_convertTreeToManifest, buildNode]
  rfl

theorem orderly_buildNode {e : Os.Entry} (h : e.WF) (name : Bytes) :
    (convertTreeToManifest (buildNode name e)).Orderly := by
  induction h generalizing name with
  | file m c =>
    have hnone := children_buildNode_file name m c
    exact .node (fun h => (h hnone).elim) (by simp [hnone]) (by simp [hnone]) (by simp [hnone])
  | @dir m es hnames hplain _ ih =>
    refine .node (fun _ => ?_) ?_ ?_ ?_
    · rw [isDir_convertTreeToManifest, buildNode, Merkle.type_newDirNode]
      rfl
    · rw [children_convertTreeToManifest, List.map_map]
      simp only [Function.comp_def, name_convertTreeToManifest]
      exact Merkle.nodup_children_buildNode hnames name m
    · intro c hc
      obtain ⟨x, hx, -, rfl⟩ := mem_children_buildNode.1 hc
      rw [name_convertTreeToManifest, name_buildNode]
      exact hplain x hx
    · intro c hc
      obtain ⟨x, hx, -, rfl⟩ := mem_children_buildNode.1 hc
      exact ih x hx x.1

theorem sorted_buildNode {e : Os.Entry} (h : e.WF) (name : Bytes) :
    (convertTreeToManifest (buildNode name e)).Sorted := by
  induction h generalizing name with
  | file m c =>
    have hnone := children_buildNode_file name m c
    exact .node (by simp [hnone]) (by simp [hnone])
  | @dir m es hnames _ _ ih =>
    refine .node ?_ fun c hc => ?_
    · have hdistinct := Merkle.nodup_children_buildNode hnames name m
      rw [buildNode, Merkle.children_newDirNode] at hdistinct
      rw [children_convertTreeToManifest, buildNode, Merkle.children_newDirNode,
        List.pairwise_map]
      simp only [name_convertTreeToManifest]
      exact Node.strict_sortByName hdistinct
    · obtain ⟨x, hx, -, rfl⟩ := mem_children_buildNode.1 hc
      exact ih x hx x.1

/-- **The nodes of the manifest of an entry** are those of the entries at visible paths. -/
theorem at_buildNode_iff {e : Os.Entry} (h : e.WF) {name : Bytes} {q : List Bytes}
    {n : ManifestNode} :
    (convertTreeToManifest (buildNode name e)).At q n ↔ Visible q ∧
      ∃ x, Os.reach (some e) q = some x ∧
        n = convertTreeToManifest (buildNode (q.getLastD name) x) := by
  induction h generalizing name q with
  | file m c =>
    cases q with
    | nil => simp [Proto.ManifestNode.at_nil, Visible]
    | cons d q =>
      rw [Proto.ManifestNode.at_cons, children_convertTreeToManifest, buildNode]
      simp [Merkle.buildFileNode, Merkle.newFileNode, Node.computeFileHash, Os.reach]
  | @dir m es hnames hplain _ ih =>
    cases q with
    | nil => simp [Proto.ManifestNode.at_nil, Visible]
    | cons d q =>
      rw [Proto.ManifestNode.at_cons, Visible, List.forall_mem_cons, List.getLastD_cons,
        Os.reach]
      constructor
      · rintro ⟨c, hc, hname, hq⟩
        obtain ⟨y, hy, hh, rfl⟩ := mem_children_buildNode.1 hc
        rw [name_convertTreeToManifest, name_buildNode] at hname
        subst hname
        obtain ⟨hvis, x, hx, rfl⟩ := (ih y hy).1 hq
        exact ⟨⟨hh, hvis⟩, x, by rw [(Os.lookup_eq_some hnames).2 hy, hx], rfl⟩
      · rintro ⟨⟨hd, hvis⟩, x, hx, rfl⟩
        cases hl : es.lookup d with
        | none => simp [hl] at hx
        | some y =>
          rw [hl] at hx
          have hy := (Os.lookup_eq_some hnames).1 hl
          refine ⟨_, mem_children_buildNode.2 ⟨(d, y), hy, hd, rfl⟩, ?_, ?_⟩
          · rw [name_convertTreeToManifest, name_buildNode]
          · exact (ih (d, y) hy).2 ⟨hvis, x, hx, rfl⟩

theorem visible_buildNode {e : Os.Entry} (h : e.WF) {name : Bytes} {q : List Bytes}
    {n : ManifestNode} (hn : (convertTreeToManifest (buildNode name e)).At q n) : Visible q :=
  ((at_buildNode_iff h).1 hn).1

/-- The manifest of a tree that `BuildFromFS` returned, in some file system. -/
def Advertised (root : ManifestNode) : Prop :=
  ∃ (w : World Unit) (dir : Bytes) (t : Merkle.Tree) (n : Node), w.fs.WF ∧
    ((buildFromFS dir).run (handle fun _ s => (.error (.opening, .eof), s)) w).1 = .ok t ∧
    t.root = some n ∧ root = convertTreeToManifest n

theorem advertised_of_reach (fs : Os.Fs) (dir : Bytes) (hwf : fs.WF) {m : UInt32}
    {es : List (Bytes × Os.Entry)} (hr : Os.reach fs (resolve dir) = some (.dir m es)) :
    Advertised (convertTreeToManifest (buildNode (base dir) (.dir m es))) := by
  have hview : Os.view fs (resolve dir) = some (.dir m) := by
    rw [Os.view, hr]
    rfl
  obtain ⟨t, ht⟩ := Merkle.exists_buildFromFS (w := ⟨fs, 0, ()⟩)
    (fun _ s => (.error (.opening, .eof), s)) hview
  obtain ⟨m', es', hr', rfl⟩ := Merkle.run_buildFromFS ht
  obtain ⟨rfl, rfl⟩ := Os.Entry.dir.inj (Option.some.inj (hr'.symm.trans hr))
  exact ⟨_, dir, _, _, hwf, ht, rfl, rfl⟩

theorem Advertised.eq_build {root : ManifestNode} (h : Advertised root) :
    ∃ name m es, (Os.Entry.dir m es).WF ∧
      root = convertTreeToManifest (buildNode name (.dir m es)) := by
  obtain ⟨w, dir, t, n, hwf, hrun, hroot, rfl⟩ := h
  obtain ⟨m, es, hreach, rfl⟩ := Merkle.run_buildFromFS hrun
  exact ⟨base dir, m, es, Os.wf_reach hwf _ _ hreach, by rw [Option.some.inj hroot]⟩

theorem Advertised.orderly {root : ManifestNode} (h : Advertised root) : root.Orderly := by
  obtain ⟨name, m, es, hwf, rfl⟩ := h.eq_build
  exact orderly_buildNode hwf name

theorem Advertised.isDir {root : ManifestNode} (h : Advertised root) : root.isDir = true := by
  obtain ⟨name, m, es, hwf, rfl⟩ := h.eq_build
  rw [isDir_convertTreeToManifest, buildNode, Merkle.type_newDirNode]
  rfl

theorem Advertised.visible {root : ManifestNode} (h : Advertised root) {q : List Bytes}
    {n : ManifestNode} (hn : root.At q n) : Visible q := by
  obtain ⟨name, m, es, hwf, rfl⟩ := h.eq_build
  exact visible_buildNode hwf hn

/-! ### The visits of an orderly manifest -/

theorem visitsOf_eq (relPath : Bytes) (cs : List ManifestNode) :
    visitsOf relPath cs = cs.flatMap (visitsFrom relPath) := by
  induction cs with
  | nil => rfl
  | cons c cs ih => rw [visitsOf, ih, List.flatMap_cons]

theorem mem_visitsOf {relPath : Bytes} {cs : List ManifestNode} {v : Visit} :
    v ∈ visitsOf relPath cs ↔ ∃ c ∈ cs, v ∈ visitsFrom relPath c := by
  rw [visitsOf_eq, List.mem_flatMap]

theorem mem_visitsFrom {relPath : Bytes} {n : ManifestNode} {v : Visit} :
    v ∈ visitsFrom relPath n ↔ v = ⟨relPath, n⟩ ∨
      n.isDir = true ∧ ∃ c ∈ n.children, v ∈ visitsFrom (join [relPath, n.name]) c := by
  obtain ⟨name, _ | _, hash, mode, size, cs, chunks⟩ := n
  · simp [visitsFrom]
  · simp [visitsFrom, mem_visitsOf]

section Visits

variable {baseDir : Bytes}

theorem target_relative (hb : isAbs baseDir) {q : List Bytes} (hq : ∀ c ∈ q, Plain c)
    {n : ManifestNode} (hn : Plain n.name) :
    Visit.target baseDir ⟨relative q, n⟩ = resolve baseDir ++ (q ++ [n.name]) := by
  have hall : ∀ c ∈ resolve baseDir ++ (q ++ [n.name]), Plain c :=
    List.forall_mem_append.2 ⟨fun _ => plain_of_mem_resolve,
      List.forall_mem_append.2 ⟨hq, List.forall_mem_singleton.2 hn⟩⟩
  rw [Visit.target, Visit.path, join_of_isAbs hb]
  simp only [List.flatMap_cons, List.flatMap_nil, List.append_nil, List.foldl_append,
    foldl_descend_relative_names hq, foldl_split_plain hn, List.append_assoc]
  exact resolve_ofNames hall

/-- A visit below a node is of a node that stands there, at the path of its names. -/
theorem at_of_mem_visitsFrom (hb : isAbs baseDir) {n : ManifestNode} (h : n.Orderly)
    (hname : Plain n.name) {q : List Bytes} (hq : ∀ c ∈ q, Plain c) {v : Visit}
    (hv : v ∈ visitsFrom (relative q) n) :
    ∃ s, n.At s v.node ∧ v.target baseDir = resolve baseDir ++ (q ++ n.name :: s) := by
  induction h generalizing q with
  | @node n _ _ hplain _ ih =>
    rcases mem_visitsFrom.1 hv with rfl | ⟨-, c, hc, hv⟩
    · exact ⟨[], .here n, target_relative hb hq hname⟩
    · rw [join_relative hq hname] at hv
      have hq' : ∀ d ∈ q ++ [n.name], Plain d :=
        List.forall_mem_append.2 ⟨hq, List.forall_mem_singleton.2 hname⟩
      obtain ⟨s, hs, htarget⟩ := ih c hc (hplain c hc) hq' hv
      exact ⟨c.name :: s, .child hc hs, by simpa using htarget⟩

/-- Every node below a node is visited. -/
theorem exists_visit_of_at (hb : isAbs baseDir) {n m : ManifestNode} {s : List Bytes}
    (hm : n.At s m) (h : n.Orderly) (hname : Plain n.name) {q : List Bytes}
    (hq : ∀ c ∈ q, Plain c) :
    ∃ v ∈ visitsFrom (relative q) n, v.node = m ∧
      v.target baseDir = resolve baseDir ++ (q ++ n.name :: s) := by
  induction hm generalizing q with
  | here n =>
    exact ⟨⟨relative q, n⟩, mem_visitsFrom.2 (Or.inl rfl), rfl, target_relative hb hq hname⟩
  | @child n c m s hc _ ih =>
    obtain ⟨v, hv, hnode, htarget⟩ := ih (h.hbelow c hc) (h.hplain c hc)
      (List.forall_mem_append.2 ⟨hq, List.forall_mem_singleton.2 hname⟩)
    refine ⟨v, mem_visitsFrom.2 (Or.inr ⟨h.hdir (List.ne_nil_of_mem hc), c, hc, ?_⟩), hnode,
      by simpa using htarget⟩
    rwa [join_relative hq hname]

/-- **The visits of an orderly manifest** are of the nodes below its root. -/
theorem at_of_mem_visits (hb : isAbs baseDir) {root : ManifestNode} (h : root.Orderly) {v : Visit}
    (hv : v ∈ visits (some root)) :
    ∃ s, s ≠ [] ∧ root.At s v.node ∧ v.target baseDir = resolve baseDir ++ s := by
  obtain ⟨c, hc, hv⟩ := mem_visitsOf.1 hv
  obtain ⟨s, hs, htarget⟩ := at_of_mem_visitsFrom hb (h.hbelow c hc) (h.hplain c hc) (q := [])
    (by simp) hv
  exact ⟨c.name :: s, by simp, .child hc hs, htarget⟩

theorem exists_visit (hb : isAbs baseDir) {root n : ManifestNode} (h : root.Orderly)
    {s : List Bytes} (hs : s ≠ []) (hn : root.At s n) :
    ∃ v ∈ visits (some root), v.node = n ∧ v.target baseDir = resolve baseDir ++ s := by
  cases hn with
  | here => exact (hs rfl).elim
  | child hc hn =>
    obtain ⟨v, hv, hnode, htarget⟩ := exists_visit_of_at hb hn (h.hbelow _ hc) (h.hplain _ hc)
      (q := []) (by simp)
    exact ⟨v, mem_visitsOf.2 ⟨_, hc, hv⟩, hnode, htarget⟩

/-- What is visited below nodes in the order of their names comes in the order of the paths. -/
theorem pairwise_visitsOf (hb : isAbs baseDir) {cs : List ManifestNode}
    (horderly : ∀ c ∈ cs, c.Orderly) (hplain : ∀ c ∈ cs, Plain c.name)
    (hsorted : cs.Pairwise fun c d => c.name < d.name) {q : List Bytes} (hq : ∀ c ∈ q, Plain c)
    (hbelow : ∀ c ∈ cs, (visitsFrom (relative q) c).Pairwise
      fun v v' => v.target baseDir < v'.target baseDir) :
    (visitsOf (relative q) cs).Pairwise fun v v' => v.target baseDir < v'.target baseDir := by
  rw [visitsOf_eq, List.pairwise_flatMap]
  refine ⟨hbelow, hsorted.imp_of_mem fun {c d} hc hd hlt v hv v' hv' => ?_⟩
  obtain ⟨s, -, hs⟩ := at_of_mem_visitsFrom hb (horderly c hc) (hplain c hc) hq hv
  obtain ⟨s', -, hs'⟩ := at_of_mem_visitsFrom hb (horderly d hd) (hplain d hd) hq hv'
  rw [hs, hs']
  exact List.append_left_lt (List.append_left_lt (List.cons_lt_cons_iff.2 (.inl hlt)))

/-- A node is visited before what is below it. -/
theorem pairwise_visitsFrom (hb : isAbs baseDir) {n : ManifestNode} (hn : n.Orderly)
    (h : n.Sorted) (hname : Plain n.name) {q : List Bytes} (hq : ∀ c ∈ q, Plain c) :
    (visitsFrom (relative q) n).Pairwise fun v v' => v.target baseDir < v'.target baseDir := by
  induction h generalizing q with
  | @node n hsorted _ ih =>
    obtain ⟨name, isDir, hash, mode, size, cs, chunks⟩ := n
    rw [visitsFrom]
    cases isDir with
    | false => exact List.pairwise_singleton _ _
    | true =>
      have hq' : ∀ c ∈ q ++ [name], Plain c :=
        List.forall_mem_append.2 ⟨hq, List.forall_mem_singleton.2 hname⟩
      rw [if_pos rfl, join_relative hq hname, List.pairwise_cons]
      refine ⟨fun v hv => ?_, pairwise_visitsOf hb hn.hbelow hn.hplain hsorted hq' fun c hc =>
        ih c hc (hn.hbelow c hc) (hn.hplain c hc) hq'⟩
      obtain ⟨c, hc, hv⟩ := mem_visitsOf.1 hv
      obtain ⟨s, -, hs⟩ := at_of_mem_visitsFrom hb (hn.hbelow c hc) (hn.hplain c hc) hq' hv
      rw [hs, target_relative hb hq hname]
      refine List.append_left_lt ?_
      have hlt : q ++ [name] ++ [] < q ++ [name] ++ c.name :: s :=
        List.append_left_lt (List.nil_lt_cons _ _)
      rwa [List.append_nil] at hlt

/-- **The visits come in the order of their paths.** -/
theorem pairwise_visits (hb : isAbs baseDir) {root : ManifestNode} (hroot : root.Orderly)
    (h : root.Sorted) :
    (visits (some root)).Pairwise fun v v' => v.target baseDir < v'.target baseDir := by
  cases h with
  | node hsorted hbelow =>
    exact pairwise_visitsOf hb hroot.hbelow hroot.hplain hsorted (q := []) (by simp)
      fun c hc => pairwise_visitsFrom hb (hroot.hbelow c hc) (hbelow c hc) (hroot.hplain c hc)
        (by simp)

end Visits

end FileSync.Cli
