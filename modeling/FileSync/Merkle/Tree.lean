import Mathlib.Data.List.Sort
import FileSync.Support.Maps
import FileSync.Support.Sha256

/-!
# Merkle — the tree

A tree of files and directories in which every node carries a SHA-256 hash: of its chunk hashes
for a file, of its children's names and hashes for a directory (`internal/merkle/tree.go`).

Names, hashes and paths are byte strings, as they are in Go.  A node is a value of a recursive
structure, so a child is never nil; the `Root` of a `Tree` may be.

* `newFileNode` and `newDirNode` are the two constructors, with the hashing they do.
* `Node.nodes` lists a node and everything below it; `Node.sub` follows a relative path.
-/

open Sha256

namespace FileSync.Merkle

inductive NodeType
  | file
  | dir
deriving DecidableEq, Repr

structure Node where
  name : Bytes
  type : NodeType
  hash : Bytes
  mode : UInt32
  size : UInt64
  children : List Node
  chunks : List Bytes

/-- `Tree`; `root` is `none` for a nil `Root`. -/
structure Tree where
  root : Option Node

namespace Node

/-- Induction on a node, from its children. -/
theorem induction {P : Node → Prop} (h : ∀ n, (∀ c ∈ n.children, P c) → P n) (n : Node) : P n :=
  @Node.rec P (fun cs => ∀ c ∈ cs, P c) (fun _ _ _ _ _ _ _ ih => h _ ih) (by simp)
    (fun _ _ hc hcs => by simpa using ⟨hc, hcs⟩) n

def isDir (n : Node) : Bool := n.type == .dir

/-! ### Hashing -/

/-- `computeFileHash`: the hash of the chunk hashes, and the approximate size. -/
def computeFileHash (n : Node) : Node :=
  { n with
    size := UInt64.ofNat n.chunks.length * 4096
    hash := (n.chunks.foldl Hasher.write Hasher.new).sum.bytes }

/-- One round of the loop of `computeDirHash`. -/
def hashChild (acc : Hasher × UInt64) (child : Node) : Hasher × UInt64 :=
  ((acc.1.write child.name).write child.hash, acc.2 + child.size)

/-- `computeDirHash`: the hash of the children's names and hashes, and the total size. -/
def computeDirHash (n : Node) : Node :=
  { n with
    size := (n.children.foldl hashChild (Hasher.new, 0)).2
    hash := (n.children.foldl hashChild (Hasher.new, 0)).1.sum.bytes }

/-- `sort.Slice` by name.  The Go sort is not stable, so that the order of children of one name is
its own; children of distinct names have one sorted order. -/
def sortByName (children : List Node) : List Node :=
  children.insertionSort (fun a b => a.name ≤ b.name)

end Node

def newFileNode (name : Bytes) (mode : UInt32) (chunks : List Bytes) : Node :=
  Node.computeFileHash ⟨name, .file, [], mode, 0, [], chunks⟩

def newDirNode (name : Bytes) (mode : UInt32) (children : List Node) : Node :=
  Node.computeDirHash ⟨name, .dir, [], mode, 0, Node.sortByName children, []⟩

namespace Node

theorem fed_foldl_write (xs : List Bytes) (h : Hasher) :
    (xs.foldl Hasher.write h).fed = h.fed ++ xs.flatten := by
  induction xs generalizing h with
  | nil => simp
  | cons x xs ih => simp [ih]

theorem fed_foldl_hashChild (cs : List Node) (acc : Hasher × UInt64) :
    (cs.foldl hashChild acc).1.fed = acc.1.fed ++ cs.flatMap fun c => c.name ++ c.hash := by
  induction cs generalizing acc with
  | nil => simp
  | cons c cs ih => simp [ih, hashChild]

/-- The bytes that the two hash functions write to the hasher. -/
def preimage (n : Node) : Bytes :=
  match n.type with
  | .file => n.chunks.flatten
  | .dir => n.children.flatMap fun c => c.name ++ c.hash

theorem hash_computeFileHash (n : Node) :
    n.computeFileHash.hash = (sum256 n.chunks.flatten).bytes := by
  simp [computeFileHash, Hasher.sum, fed_foldl_write]

theorem hash_computeDirHash (n : Node) :
    n.computeDirHash.hash = (sum256 (n.children.flatMap fun c => c.name ++ c.hash)).bytes := by
  simp [computeDirHash, Hasher.sum, fed_foldl_hashChild]

theorem perm_sortByName (cs : List Node) : (sortByName cs).Perm cs :=
  List.perm_insertionSort _ cs

theorem sorted_sortByName (cs : List Node) :
    (sortByName cs).Pairwise fun a b => a.name ≤ b.name := by
  have htotal : Std.Total fun a b : Node => a.name ≤ b.name := ⟨fun a b => List.le_total _ _⟩
  have htrans : IsTrans Node fun a b => a.name ≤ b.name := ⟨fun _ _ _ => List.le_trans⟩
  exact List.pairwise_insertionSort _ cs

/-- Distinct names are in strict order. -/
theorem strict_sortByName {cs : List Node} (h : ((sortByName cs).map name).Nodup) :
    (sortByName cs).Pairwise fun a b => a.name < b.name := by
  rw [List.Nodup, List.pairwise_map] at h
  exact (sorted_sortByName cs).imp₂
    (fun a b hle hne => (List.le_iff_lt_or_eq.1 hle).resolve_right hne) h

end Node

@[simp] theorem name_newFileNode (name : Bytes) (mode : UInt32) (chunks : List Bytes) :
    (newFileNode name mode chunks).name = name := rfl

@[simp] theorem type_newFileNode (name : Bytes) (mode : UInt32) (chunks : List Bytes) :
    (newFileNode name mode chunks).type = .file := rfl

@[simp] theorem children_newFileNode (name : Bytes) (mode : UInt32) (chunks : List Bytes) :
    (newFileNode name mode chunks).children = [] := rfl

@[simp] theorem chunks_newFileNode (name : Bytes) (mode : UInt32) (chunks : List Bytes) :
    (newFileNode name mode chunks).chunks = chunks := rfl

@[simp] theorem name_newDirNode (name : Bytes) (mode : UInt32) (children : List Node) :
    (newDirNode name mode children).name = name := rfl

@[simp] theorem type_newDirNode (name : Bytes) (mode : UInt32) (children : List Node) :
    (newDirNode name mode children).type = .dir := rfl

@[simp] theorem children_newDirNode (name : Bytes) (mode : UInt32) (children : List Node) :
    (newDirNode name mode children).children = Node.sortByName children := rfl

@[simp] theorem chunks_newDirNode (name : Bytes) (mode : UInt32) (children : List Node) :
    (newDirNode name mode children).chunks = [] := rfl

theorem hash_newFileNode (name : Bytes) (mode : UInt32) (chunks : List Bytes) :
    (newFileNode name mode chunks).hash = (sum256 (newFileNode name mode chunks).preimage).bytes :=
  Node.hash_computeFileHash _

theorem hash_newDirNode (name : Bytes) (mode : UInt32) (children : List Node) :
    (newDirNode name mode children).hash =
      (sum256 (newDirNode name mode children).preimage).bytes :=
  Node.hash_computeDirHash _

/-! ### The nodes of a tree and their relative paths -/

namespace Node

mutual

/-- The node and everything below it. -/
def nodes : Node → List Node
  | n@{ children := cs, .. } => n :: nodesOf cs

def nodesOf : List Node → List Node
  | [] => []
  | c :: cs => nodes c ++ nodesOf cs

end

theorem nodesOf_eq (cs : List Node) : nodesOf cs = cs.flatMap nodes := by
  induction cs with
  | nil => rfl
  | cons c cs ih => rw [nodesOf, ih, List.flatMap_cons]

theorem nodes_eq (n : Node) : n.nodes = n :: n.children.flatMap nodes := by
  cases n
  rw [nodes, nodesOf_eq]

theorem mem_nodes {m n : Node} : m ∈ n.nodes ↔ m = n ∨ ∃ c ∈ n.children, m ∈ c.nodes := by
  rw [nodes_eq, List.mem_cons, List.mem_flatMap]

theorem mem_nodes_self (n : Node) : n ∈ n.nodes := mem_nodes.2 (Or.inl rfl)

theorem mem_nodes_child {m n c : Node} (hc : c ∈ n.children) (hm : m ∈ c.nodes) : m ∈ n.nodes :=
  mem_nodes.2 (Or.inr ⟨c, hc, hm⟩)

/-- The child of that name. -/
def child (n : Node) (name : Bytes) : Option Node := n.children.find? (·.name = name)

/-- The node at a relative path, a list of names. -/
def sub : Node → List Bytes → Option Node
  | n, [] => some n
  | n, name :: p => (n.child name).bind (sub · p)

@[simp] theorem sub_nil (n : Node) : n.sub [] = some n := rfl

@[simp] theorem sub_cons (n : Node) (name : Bytes) (p : List Bytes) :
    n.sub (name :: p) = (n.child name).bind (sub · p) := rfl

theorem name_of_child {n c : Node} {name : Bytes} (h : n.child name = some c) : c.name = name := by
  simpa using List.find?_some h

theorem mem_of_child {n c : Node} {name : Bytes} (h : n.child name = some c) : c ∈ n.children :=
  List.mem_of_find?_eq_some h

theorem mem_nodes_of_sub {n m : Node} {p : List Bytes} (h : n.sub p = some m) : m ∈ n.nodes := by
  induction p generalizing n with
  | nil => exact Option.some.inj h ▸ mem_nodes_self n
  | cons name p ih =>
    obtain ⟨c, hc, hm⟩ := Option.bind_eq_some_iff.1 h
    exact mem_nodes_child (mem_of_child hc) (ih hm)

/-- In every directory the names of the children are distinct. -/
def Distinct (n : Node) : Prop := ∀ m ∈ n.nodes, (m.children.map name).Nodup

instance (n : Node) : Decidable n.Distinct := inferInstanceAs (Decidable (∀ m ∈ n.nodes, _))

theorem Distinct.names {n : Node} (h : n.Distinct) : (n.children.map name).Nodup :=
  h n (mem_nodes_self n)

theorem Distinct.below {n c : Node} (h : n.Distinct) (hc : c ∈ n.children) : c.Distinct :=
  fun m hm => h m (mem_nodes_child hc hm)

theorem Distinct.node {n : Node} (hnames : (n.children.map name).Nodup)
    (hbelow : ∀ c ∈ n.children, c.Distinct) : n.Distinct := by
  intro m hm
  rcases mem_nodes.1 hm with rfl | ⟨c, hc, hm⟩
  · exact hnames
  · exact hbelow c hc m hm

theorem Distinct.child_name {n c : Node} (h : n.Distinct) (hc : c ∈ n.children) :
    n.child c.name = some c :=
  find?_key h.names hc

theorem Distinct.child_eq_some {n c : Node} (h : n.Distinct) {name : Bytes} :
    n.child name = some c ↔ c ∈ n.children ∧ c.name = name := by
  constructor
  · exact fun hc => ⟨mem_of_child hc, name_of_child hc⟩
  · rintro ⟨hc, rfl⟩
    exact h.child_name hc

theorem child_eq_none {n : Node} {name : Bytes} :
    n.child name = none ↔ ∀ c ∈ n.children, c.name ≠ name := by
  simp [child]

end Node

end FileSync.Merkle
