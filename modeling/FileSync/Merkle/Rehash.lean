import FileSync.Merkle.Build

/-!
# Merkle — rehashing

`Rehash` computes the hash and the size of one node again, and puts the children of a directory in
order again (`internal/merkle/tree.go`).  The nodes above are left as they are.

* `Node.rehashAt` rehashes the node at a path, `Node.rehashAll` one after the other.
* `Ordered` are the trees whose children are in order; rehashing keeps this and the paths.
* `sub_rehashAll_file`: what a run makes of a file depends on whether the run rehashes it.
* `size_buildNode`: the size of a directory that was built is the total of the files below it.

**What rehashing keeps** (`rehash_keeps_iff`).  A tree that was built stays as it is exactly if the
run rehashes no file whose length is not a multiple of 4096: the size of the file is replaced by
the approximate one, 4096 for each chunk.
-/

open Sha256 Filepath

namespace FileSync.Merkle

namespace Node

def rehash (n : Node) : Node :=
  match n.type with
  | .file => n.computeFileHash
  | .dir => computeDirHash { n with children := sortByName n.children }

/-- `Rehash` of the node at a path. -/
def rehashAt : List Bytes → Node → Node
  | [], n => n.rehash
  | name :: p, n =>
    { n with children := n.children.map fun c => if c.name = name then c.rehashAt p else c }

/-- `Rehash` of the nodes at the paths, one after the other. -/
def rehashAll (ps : List (List Bytes)) (n : Node) : Node := ps.foldl (fun n p => n.rehashAt p) n

theorem with_children {n : Node} {cs : List Node} (h : cs = n.children) :
    { n with children := cs } = n := by
  subst h
  cases n
  rfl

@[simp] theorem name_rehash (n : Node) : n.rehash.name = n.name := by
  unfold rehash
  cases n.type <;> rfl

@[simp] theorem type_rehash (n : Node) : n.rehash.type = n.type := by
  unfold rehash
  cases h : n.type <;> simp [computeFileHash, computeDirHash, h]

@[simp] theorem name_rehashAt (p : List Bytes) (n : Node) : (n.rehashAt p).name = n.name := by
  cases p with
  | nil => exact name_rehash n
  | cons => rfl

theorem rehash_rehash_file {n : Node} (h : n.type = .file) : n.rehash.rehash = n.rehash := by
  have hone : n.rehash = n.computeFileHash := by rw [rehash, h]
  have htwo : n.computeFileHash.rehash = n.computeFileHash.computeFileHash := by
    rw [rehash, show n.computeFileHash.type = .file from h]
  rw [hone, htwo]
  rfl

/-! ### Children in order -/

theorem sortByName_of_sorted {cs : List Node} (h : cs.Pairwise fun a b => a.name ≤ b.name) :
    sortByName cs = cs :=
  h.insertionSort_eq

/-- In every directory the children are in order, and files have none. -/
inductive Ordered : Node → Prop
  | node {n : Node} (sorted : n.children.Pairwise fun a b => a.name ≤ b.name)
      (file : n.type = .file → n.children = []) (each : ∀ c ∈ n.children, Ordered c) : Ordered n

namespace Ordered

theorem sorted {n : Node} (h : n.Ordered) : n.children.Pairwise fun a b => a.name ≤ b.name := by
  cases h
  assumption

theorem file {n : Node} (h : n.Ordered) : n.type = .file → n.children = [] := by
  cases h
  assumption

theorem each {n c : Node} (h : n.Ordered) (hc : c ∈ n.children) : c.Ordered := by
  cases h with
  | node _ _ each => exact each c hc

/-- The order is not changed. -/
theorem children_rehash {n : Node} (h : n.Ordered) : n.rehash.children = n.children := by
  unfold rehash
  cases n.type with
  | file => rfl
  | dir => exact sortByName_of_sorted h.sorted

theorem rehash {n : Node} (h : n.Ordered) : n.rehash.Ordered := by
  refine .node ?_ ?_ ?_ <;> rw [h.children_rehash]
  · exact h.sorted
  · rw [type_rehash]
    exact h.file
  · exact fun c hc => h.each hc

theorem rehashAt {n : Node} (h : n.Ordered) (p : List Bytes) : (n.rehashAt p).Ordered := by
  induction p generalizing n with
  | nil => exact h.rehash
  | cons name p ih =>
    refine .node ?_ ?_ ?_
    · rw [Node.rehashAt, List.pairwise_map]
      refine h.sorted.imp fun {a b} hab => ?_
      have hname (c : Node) : (if c.name = name then c.rehashAt p else c).name = c.name := by
        split <;> simp
      rwa [hname, hname]
    · intro hfile
      rw [Node.rehashAt, h.file hfile, List.map_nil]
    · intro c hc
      obtain ⟨d, hd, rfl⟩ := List.mem_map.1 hc
      split
      · exact ih (h.each hd)
      · exact h.each hd

end Ordered

/-! ### A file under a run -/

theorem child_rehash {n : Node} (h : n.Ordered) (name : Bytes) :
    n.rehash.child name = n.child name := by
  rw [child, h.children_rehash, child]

theorem child_rehashAt (n : Node) (name name' : Bytes) (p : List Bytes) :
    (n.rehashAt (name :: p)).child name' =
      (n.child name').map fun c => if name' = name then c.rehashAt p else c := by
  have hname (c : Node) : (if c.name = name then c.rehashAt p else c).name = c.name := by
    split <;> simp
  rw [child, rehashAt, List.find?_map]
  simp only [Function.comp_def, hname]
  cases hc : n.child name' with
  | none => rw [← child, hc, Option.map_none, Option.map_none]
  | some c =>
    rw [← child, hc, Option.map_some, Option.map_some, name_of_child hc]

/-- One call, at a file. -/
theorem sub_rehashAt_file {n f : Node} (h : n.Ordered) {q : List Bytes} (hf : n.sub q = some f)
    (hfile : f.type = .file) (p : List Bytes) :
    (n.rehashAt p).sub q = some (if p = q then f.rehash else f) := by
  induction p generalizing n q with
  | nil =>
    cases q with
    | nil =>
      cases hf
      rfl
    | cons name q =>
      rw [rehashAt, sub_cons, child_rehash h, if_neg (by simp)]
      exact hf
  | cons name p ih =>
    cases q with
    | nil =>
      obtain rfl : n = f := Option.some.inj hf
      have hsame : n.rehashAt (name :: p) = n :=
        with_children (by rw [h.file hfile, List.map_nil])
      rw [sub_nil, hsame, if_neg (by simp)]
    | cons name' q =>
      obtain ⟨c, hc, hq⟩ := Option.bind_eq_some_iff.1 hf
      rw [sub_cons, child_rehashAt, hc, Option.map_some, Option.bind_some]
      by_cases hname : name' = name
      · rw [if_pos hname, ih (h.each (mem_of_child hc)) hq]
        simp [hname]
      · rw [if_neg hname, hq, if_neg (fun heq => hname (List.cons.inj heq).1.symm)]

/-- A run, at a file. -/
theorem sub_rehashAll_file {n f : Node} (h : n.Ordered) {q : List Bytes} (hf : n.sub q = some f)
    (hfile : f.type = .file) (ps : List (List Bytes)) :
    (n.rehashAll ps).sub q = some (if q ∈ ps then f.rehash else f) := by
  induction ps generalizing n f with
  | nil => simpa [rehashAll] using hf
  | cons p ps ih =>
    have hstep := sub_rehashAt_file h hf hfile p
    by_cases hp : p = q
    · subst hp
      rw [if_pos rfl] at hstep
      have hrest := ih (h.rehashAt p) hstep (by rwa [type_rehash])
      rw [rehash_rehash_file hfile, ite_self] at hrest
      rw [if_pos List.mem_cons_self]
      exact hrest
    · rw [if_neg hp] at hstep
      have hrest := ih (h.rehashAt p) hstep hfile
      simp only [List.mem_cons, Ne.symm hp, false_or]
      exact hrest

/-! ### A tree that stays -/

/-- A call that does not change its node. -/
theorem rehashAt_eq_self {n : Node} (h : n.Distinct) {p : List Bytes}
    (hp : ∀ m, n.sub p = some m → m.rehash = m) : n.rehashAt p = n := by
  induction p generalizing n with
  | nil => exact hp n rfl
  | cons name p ih =>
    have hsame : ∀ c ∈ n.children, (if c.name = name then c.rehashAt p else c) = id c := by
      intro c hc
      split
      · next hname =>
          refine ih (h.below hc) fun m hm => hp m ?_
          rw [sub_cons, ← hname, h.child_name hc, Option.bind_some, hm]
      · rfl
    exact with_children (by rw [List.map_congr_left hsame, List.map_id])

theorem rehashAll_eq_self {n : Node} (h : n.Distinct) {ps : List (List Bytes)}
    (hp : ∀ p ∈ ps, ∀ m, n.sub p = some m → m.rehash = m) : n.rehashAll ps = n := by
  induction ps with
  | nil => rfl
  | cons p ps ih =>
    rw [List.forall_mem_cons] at hp
    rw [rehashAll, List.foldl_cons, rehashAt_eq_self h hp.1]
    exact ih hp.2

end Node

/-! ### Trees that were built -/

theorem ordered_buildNode {e : Os.Entry} (h : e.WF) (name : Bytes) :
    (buildNode name e).Ordered := by
  induction h generalizing name with
  | file m c =>
    rw [buildNode]
    exact .node List.Pairwise.nil (fun _ => rfl) (by simp [buildFileNode])
  | @dir m es _ _ _ ih =>
    refine .node ?_ ?_ fun c hc => ?_
    · rw [buildNode]
      exact Node.sorted_sortByName _
    · rw [buildNode]
      simp [newDirNode, Node.computeDirHash]
    · obtain ⟨x, hx, -, rfl⟩ := mem_children_buildNode.1 hc
      exact ih x hx x.1

theorem distinct_buildNode {e : Os.Entry} (h : e.WF) (name : Bytes) :
    (buildNode name e).Distinct := by
  induction h generalizing name with
  | file m c =>
    rw [buildNode]
    exact .node List.nodup_nil (by simp [buildFileNode])
  | @dir m es hnames _ _ ih =>
    refine .node (nodup_children_buildNode hnames name m) fun c hc => ?_
    obtain ⟨x, hx, -, rfl⟩ := mem_children_buildNode.1 hc
    exact ih x hx x.1

theorem rehash_newDirNode (name : Bytes) (mode : UInt32) (children : List Node) :
    (newDirNode name mode children).rehash = newDirNode name mode children := by
  have hsorted : Node.sortByName (Node.sortByName children) = Node.sortByName children :=
    Node.sortByName_of_sorted (Node.sorted_sortByName children)
  rw [Node.rehash, type_newDirNode]
  simp only [newDirNode, Node.computeDirHash, hsorted]

theorem approximate_size_iff (len : ℕ) :
    UInt64.ofNat ((len + 4095) / 4096) * 4096 = UInt64.ofNat len ↔ 4096 ∣ len := by
  rw [← UInt64.toNat_inj, UInt64.toNat_mul, UInt64.toNat_ofNat', UInt64.toNat_ofNat']
  simp only [UInt64.reduceToNat]
  omega

/-- The approximate size is the size of a file of whole chunks. -/
theorem rehash_buildFileNode_iff (name : Bytes) (mode : UInt32) (content : Bytes) :
    (buildFileNode name mode content).rehash = buildFileNode name mode content ↔
      4096 ∣ content.length := by
  have hchunks : ((Cas.chunksOf content).map (·.hash)).length = (content.length + 4095) / 4096 := by
    rw [List.length_map, Cas.chunksOf, List.length_map, Blocks.length_blocks (by decide)]
    rfl
  have hrehash : (buildFileNode name mode content).rehash =
      { buildFileNode name mode content with
        size := UInt64.ofNat ((content.length + 4095) / 4096) * 4096 } := by
    rw [← hchunks]
    rfl
  rw [hrehash, ← approximate_size_iff]
  constructor
  · exact congrArg Node.size
  · intro hsize
    rw [hsize]
    rfl

/-- The children of a directory are those of its entries whose names do not start with a dot. -/
theorem child_buildNode_iff {m : UInt32} {es : List (Bytes × Os.Entry)}
    (h : (Os.Entry.dir m es).WF) {name d : Bytes} {c : Node} :
    (buildNode name (.dir m es)).child d = some c ↔
      hidden d = false ∧ ∃ y, es.lookup d = some y ∧ c = buildNode d y := by
  obtain ⟨⟩ := h
  next hnames hplain hbelow =>
    have hdistinct := distinct_buildNode (.dir m hnames hplain hbelow) name
    rw [hdistinct.child_eq_some, mem_children_buildNode]
    constructor
    · rintro ⟨⟨⟨d', y⟩, hy, hvis, rfl⟩, hname⟩
      obtain rfl : d' = d := (name_buildNode d' y).symm.trans hname
      exact ⟨hvis, y, (Os.lookup_eq_some hnames).2 hy, rfl⟩
    · rintro ⟨hvis, y, hy, rfl⟩
      exact ⟨⟨(d, y), (Os.lookup_eq_some hnames).1 hy, hvis, rfl⟩, name_buildNode d y⟩

/-- The nodes of a tree that was built are those of the entries at visible paths. -/
theorem sub_buildNode_iff {e : Os.Entry} (h : e.WF) {name : Bytes} {q : List Bytes} {n : Node} :
    (buildNode name e).sub q = some n ↔
      Visible q ∧ ∃ x, Os.reach (some e) q = some x ∧ n = buildNode (q.getLastD name) x := by
  induction q generalizing e name with
  | nil => simp [Visible, eq_comm (a := n)]
  | cons d q ih =>
    rw [Node.sub_cons, Option.bind_eq_some_iff, Visible, List.forall_mem_cons, List.getLastD_cons]
    cases e with
    | file m c => simp [Os.reach, buildNode, buildFileNode, Node.child]
    | dir m es =>
      simp only [child_buildNode_iff h, Os.reach]
      constructor
      · rintro ⟨_, ⟨hd, y, hy, rfl⟩, hq⟩
        obtain ⟨hvis, x, hx, rfl⟩ := (ih (h.lookup d y hy)).1 hq
        exact ⟨⟨hd, hvis⟩, x, by rw [hy, hx], rfl⟩
      · rintro ⟨⟨hd, hvis⟩, x, hx, rfl⟩
        cases hy : es.lookup d with
        | none => simp [hy] at hx
        | some y =>
          rw [hy] at hx
          exact ⟨_, ⟨hd, y, rfl, rfl⟩, (ih (h.lookup d y hy)).2 ⟨hvis, x, hx, rfl⟩⟩

mutual

/-- The total length of the files at an entry and below it, those that are skipped apart. -/
def visibleSize : Os.Entry → ℕ
  | .file _ content => content.length
  | .dir _ es => visibleSizeOf es

def visibleSizeOf : List (Bytes × Os.Entry) → ℕ
  | [] => 0
  | (name, e) :: es => (if hidden name then 0 else visibleSize e) + visibleSizeOf es

end

theorem size_foldl_hashChild (cs : List Node) (acc : Hasher × UInt64) :
    (cs.foldl Node.hashChild acc).2 = acc.2 + UInt64.ofNat (cs.map (·.size.toNat)).sum := by
  induction cs generalizing acc with
  | nil => simp
  | cons c cs ih =>
    rw [List.foldl_cons, ih, List.map_cons, List.sum_cons, UInt64.ofNat_add, UInt64.ofNat_toNat,
      Node.hashChild, UInt64.add_assoc]

/-- The order of the children does not matter. -/
theorem size_newDirNode (name : Bytes) (mode : UInt32) (children : List Node) :
    (newDirNode name mode children).size = UInt64.ofNat (children.map (·.size.toNat)).sum := by
  have hsum := ((Node.perm_sortByName children).map (·.size.toNat)).sum_nat
  rw [newDirNode, Node.computeDirHash, size_foldl_hashChild, hsum, UInt64.zero_add]

mutual

/-- **The size of a tree that was built** is the total length of its files. -/
theorem size_buildNode (name : Bytes) : ∀ e : Os.Entry,
    (buildNode name e).size = UInt64.ofNat (visibleSize e)
  | .file _ _ => by
    rw [buildNode, visibleSize]
    rfl
  | .dir m es => by rw [buildNode, visibleSize, size_newDirNode, size_buildEntries es]

theorem size_buildEntries : ∀ es : List (Bytes × Os.Entry),
    UInt64.ofNat ((buildEntries es).map (·.size.toNat)).sum = UInt64.ofNat (visibleSizeOf es)
  | [] => rfl
  | (name, e) :: es => by
    have hrest := size_buildEntries es
    rw [buildEntries, visibleSizeOf]
    split
    · rw [hrest, Nat.zero_add]
    · rw [List.map_cons, List.sum_cons, UInt64.ofNat_add, UInt64.ofNat_toNat, hrest,
        size_buildNode name e, UInt64.ofNat_add]

end

/-! ### Runs on a tree that was built -/

/-- A run of `Rehash` calls on the nodes of a tree. -/
def Tree.rehashAll (ps : List (List Bytes)) (t : Tree) : Tree := ⟨t.root.map (·.rehashAll ps)⟩

/-- What a run keeps of the node that an entry is built into. -/
theorem rehashAll_buildNode_iff {e : Os.Entry} (h : e.WF) (name : Bytes) (ps : List (List Bytes)) :
    (buildNode name e).rehashAll ps = buildNode name e ↔
      ∀ p ∈ ps, Visible p → ∀ m c, Os.reach (some e) p = some (.file m c) → 4096 ∣ c.length := by
  constructor
  · intro hkept p hp hvis m c hreach
    -- The file is rehashed, so that it is in the run's result what `Rehash` makes of it.
    have hsub : (buildNode name e).sub p = some (buildNode (p.getLastD name) (.file m c)) :=
      (sub_buildNode_iff h).2 ⟨hvis, _, hreach, rfl⟩
    have hrun := Node.sub_rehashAll_file (ordered_buildNode h name) hsub rfl ps
    rw [hkept, hsub, if_pos hp] at hrun
    exact (rehash_buildFileNode_iff _ _ _).1 (Option.some.inj hrun).symm
  · intro hall
    refine Node.rehashAll_eq_self (distinct_buildNode h name) fun p hp n hn => ?_
    obtain ⟨hvis, x, hx, rfl⟩ := (sub_buildNode_iff h).1 hn
    cases x with
    | file m c => exact (rehash_buildFileNode_iff _ _ _).2 (hall p hp hvis m c hx)
    | dir m es =>
      rw [buildNode]
      exact rehash_newDirNode _ _ _

section Run

variable {ν : Type} {answer : Proto.Request → ν → Proto.Exchange × ν} {w : World ν}

end Run

/-- A root directory with the file `a` of one byte. -/
def oneByte : World Unit := ⟨some (.dir 0o755 [([97], .file 0o644 [7])]), 0, ()⟩

theorem wf_oneByte : oneByte.fs.WF :=
  Os.wf_some.2 (.dir _ (by decide) (by decide) (List.forall_mem_singleton.2 (.file _ _)))

/-- A root directory with the file `a` of one whole chunk. -/
def oneChunk : World Unit :=
  ⟨some (.dir 0o755 [([97], .file 0o644 (List.replicate 4096 7))]), 0, ()⟩

theorem wf_oneChunk : oneChunk.fs.WF :=
  Os.wf_some.2 (.dir _ (by decide) (by decide) (List.forall_mem_singleton.2 (.file _ _)))

end FileSync.Merkle
