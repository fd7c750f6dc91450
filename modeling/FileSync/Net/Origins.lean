import FileSync.Merkle.Manifest
import FileSync.Merkle.GetChild
import FileSync.Net.SyncManager

/-!
# Net — where a directory node comes from

`NewDirNode` and `Rehash` put the children of a directory in order.  `BuildFromManifest` and
`manifestToNode` take them over in the order in which the peer has listed them.

* `Origin` are the ways to make a node, `Origin.InOrder` says which of them give `GetChild` the
  order that it relies on.

**Where `GetChild` finds the children** (`getChild_finds_iff`): in every directory that was made or
rehashed here, and in those rebuilt from a manifest that lists them in order.
`getChild_misses_children` is a manifest that does not.
-/

namespace FileSync.Net

open Merkle (Node InNameOrder manifestNodeToNode)

/-- How the program comes to hold a node.  A node below the root of a manifest is rebuilt from the
manifest's node at its place. -/
inductive Origin
  | newDirNode (name : Bytes) (mode : UInt32) (children : List Node)
  | rehash (n : Node)
  | buildFromManifest (mn : Merkle.ManifestNode)
  | manifestToNode (mn : Proto.ManifestNode)

namespace Origin

def node : Origin → Node
  | .newDirNode name mode children => Merkle.newDirNode name mode children
  | .rehash n => n.rehash
  | .buildFromManifest mn => manifestNodeToNode mn
  | .manifestToNode mn => Net.manifestToNode mn

/-- A manifest lists the children in order. -/
def InOrder : Origin → Prop
  | .newDirNode .. => True
  | .rehash _ => True
  | .buildFromManifest mn => InNameOrder (mn.children.map (·.name))
  | .manifestToNode mn => InNameOrder (mn.children.map (·.name))

end Origin

theorem inNameOrder_sortByName {cs : List Node} (h : ((Node.sortByName cs).map Node.name).Nodup) :
    InNameOrder ((Node.sortByName cs).map Node.name) :=
  List.pairwise_map.2 (Node.strict_sortByName h)

theorem name_manifestNodeToNode (mn : Merkle.ManifestNode) :
    (manifestNodeToNode mn).name = mn.name := by
  obtain ⟨name, type, hash, mode, size, children, chunks⟩ := mn
  cases type <;> rw [manifestNodeToNode]

/-- The children of a directory, in the order of the manifest. -/
theorem names_manifestNodeToNode {mn : Merkle.ManifestNode}
    (h : (manifestNodeToNode mn).type = .dir) :
    (manifestNodeToNode mn).children.map Node.name = mn.children.map (·.name) := by
  obtain ⟨name, type, hash, mode, size, children, chunks⟩ := mn
  cases type with
  | file =>
    rw [manifestNodeToNode] at h
    cases h
  | dir =>
    rw [manifestNodeToNode, Merkle.manifestNodesToNodes_eq, List.map_map]
    exact List.map_congr_left fun c _ => name_manifestNodeToNode c

theorem name_manifestToNode (mn : Proto.ManifestNode) : (manifestToNode mn).name = mn.name := by
  cases mn
  rw [manifestToNode]

theorem names_manifestToNode (mn : Proto.ManifestNode) :
    (manifestToNode mn).children.map Node.name = mn.children.map (·.name) := by
  obtain ⟨name, isDir, hash, mode, size, children, chunks⟩ := mn
  rw [manifestToNode, manifestToNodes_eq, List.map_map]
  exact List.map_congr_left fun c _ => name_manifestToNode c

/-- **Where `GetChild` finds the children.**  A directory with distinct child names, made in any of
the ways there are, has each child found by its name and nothing found under other names exactly if
it was made by `NewDirNode` or updated by `Rehash`, or the manifest lists the children in order. -/
theorem getChild_finds_iff (o : Origin) (hdir : o.node.type = .dir)
    (hnames : (o.node.children.map Node.name).Nodup) : o.node.FindsChildren ↔ o.InOrder := by
  rw [Node.findsChildren_iff hdir hnames]
  cases o with
  | newDirNode name mode children => exact iff_true_intro (inNameOrder_sortByName hnames)
  | rehash n =>
    have htype : n.type = .dir := (Node.type_rehash n).symm.trans hdir
    have hsorted : n.rehash.children = Node.sortByName n.children := by
      rw [Node.rehash, htype]
      rfl
    rw [Origin.node, hsorted] at hnames ⊢
    exact iff_true_intro (inNameOrder_sortByName hnames)
  | buildFromManifest mn => rw [Origin.node, names_manifestNodeToNode hdir, Origin.InOrder]
  | manifestToNode mn => rw [Origin.node, names_manifestToNode, Origin.InOrder]

/-- A directory that `NewDirNode` is given the children of in the wrong order. -/
theorem getChild_finds_iff_newDirNode :
    let a := Merkle.newFileNode [97] 0 []
    let b := Merkle.newFileNode [98] 0 []
    let d := Merkle.newDirNode [100] 0 [b, a]
    d.type = .dir ∧ (d.children.map Node.name).Nodup ∧ d.FindsChildren := by
  intro a b d
  have hnames : (d.children.map Node.name).Nodup := by decide
  exact ⟨rfl, hnames, (getChild_finds_iff (.newDirNode [100] 0 [b, a]) rfl hnames).2 trivial⟩

/-- A manifest that lists `b` before `a`: rebuilt from it by either converter, the directory has
both children and neither is found. -/
theorem getChild_misses_children :
    let file (name : Bytes) : Proto.ManifestNode := ⟨name, false, [], 0, 0, [], []⟩
    let d := manifestToNode ⟨[100], true, [], 0, 0, [file [98], file [97]], []⟩
    let file' (name : Bytes) : Merkle.ManifestNode := ⟨name, .file, [], 0, 0, [], []⟩
    let d' := manifestNodeToNode ⟨[100], .dir, [], 0, 0, [file' [98], file' [97]], []⟩
    d.children.map Node.name = [[98], [97]] ∧ d.getChild [97] = none ∧ d.getChild [98] = none ∧
      d'.children.map Node.name = [[98], [97]] ∧ d'.getChild [97] = none ∧
      d'.getChild [98] = none := by
  refine ⟨rfl, ?_, ?_, rfl, ?_, ?_⟩ <;> decide +kernel

end FileSync.Net
