import FileSync.Support.Io
import FileSync.Merkle.Tree

/-!
# Merkle — the serializable manifest

`ToManifest` and `BuildFromManifest` (`internal/merkle/build.go`).  A node's chunks are carried over
for a file only and its children for a directory only.

* `Node.Proper` says that files have no children and directories no chunks, at every node.
* `manifestNodeToNode_nodeToManifestNode`: such a tree comes back as it was.
-/

namespace FileSync.Merkle

structure ManifestNode where
  name : Bytes
  type : NodeType
  hash : Bytes
  mode : UInt32
  size : UInt64
  children : List ManifestNode
  chunks : List Bytes

/-- `Manifest`; `root` is `none` for a nil `Root`. -/
structure Manifest where
  root : Option ManifestNode

mutual

def manifestNodeToNode : ManifestNode → Node
  | ⟨name, type, hash, mode, size, children, chunks⟩ =>
    match type with
    | .file => { name, type := .file, hash, mode, size, children := [], chunks }
    | .dir =>
      { name, type := .dir, hash, mode, size, children := manifestNodesToNodes children,
        chunks := [] }

def manifestNodesToNodes : List ManifestNode → List Node
  | [] => []
  | c :: cs => manifestNodeToNode c :: manifestNodesToNodes cs

end

mutual

def nodeToManifestNode : Node → ManifestNode
  | ⟨name, type, hash, mode, size, children, chunks⟩ =>
    match type with
    | .file => { name, type := .file, hash, mode, size, children := [], chunks }
    | .dir =>
      { name, type := .dir, hash, mode, size, children := nodesToManifestNodes children,
        chunks := [] }

def nodesToManifestNodes : List Node → List ManifestNode
  | [] => []
  | c :: cs => nodeToManifestNode c :: nodesToManifestNodes cs

end

/-- `BuildFromManifest`; it returns no error. -/
def buildFromManifest (manifest : Option Manifest) : Except Err Tree :=
  .ok ⟨(manifest.bind Manifest.root).map manifestNodeToNode⟩

def Tree.toManifest (t : Tree) : Manifest := ⟨t.root.map nodeToManifestNode⟩

/-- Files have no children and directories have no chunks. -/
def Node.Proper (n : Node) : Prop :=
  ∀ m ∈ n.nodes, (m.type = .file → m.children = []) ∧ (m.type = .dir → m.chunks = [])

def Tree.Proper (t : Tree) : Prop := ∀ n ∈ t.root, n.Proper

theorem Node.Proper.below {n c : Node} (h : n.Proper) (hc : c ∈ n.children) : c.Proper :=
  fun m hm => h m (Node.mem_nodes_child hc hm)

theorem manifestNodesToNodes_eq (cs : List ManifestNode) :
    manifestNodesToNodes cs = cs.map manifestNodeToNode := by
  induction cs with
  | nil => rfl
  | cons c cs ih => rw [manifestNodesToNodes, ih, List.map_cons]

theorem nodesToManifestNodes_eq (cs : List Node) :
    nodesToManifestNodes cs = cs.map nodeToManifestNode := by
  induction cs with
  | nil => rfl
  | cons c cs ih => rw [nodesToManifestNodes, ih, List.map_cons]

/-- A proper tree comes back as it was. -/
theorem manifestNodeToNode_nodeToManifestNode {n : Node} (h : n.Proper) :
    manifestNodeToNode (nodeToManifestNode n) = n := by
  induction n using Node.induction with
  | h n ih =>
    have hchildren : (n.children.map nodeToManifestNode).map manifestNodeToNode = n.children := by
      have hback : ∀ c ∈ n.children, (manifestNodeToNode ∘ nodeToManifestNode) c = id c :=
        fun c hc => ih c hc (h.below hc)
      rw [List.map_map, List.map_congr_left hback, List.map_id]
    obtain ⟨hfile, hdir⟩ := h n (Node.mem_nodes_self n)
    obtain ⟨name, type, hash, mode, size, children, chunks⟩ := n
    cases type with
    | file =>
      obtain rfl : children = [] := hfile rfl
      rw [nodeToManifestNode, manifestNodeToNode]
    | dir =>
      obtain rfl : chunks = [] := hdir rfl
      rw [nodeToManifestNode, manifestNodeToNode, manifestNodesToNodes_eq,
        nodesToManifestNodes_eq, hchildren]

end FileSync.Merkle
