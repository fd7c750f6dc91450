import FileSync.Merkle.Manifest
import FileSync.Diff.Trees
import FileSync.Net.SyncManager
import FileSync.Cli.Manifest

/-!
# Cli — the conversions of a tree

A tree is converted for a peer by `nodeToManifest` (`internal/net/sync.go`), by
`convertTreeToManifest` (`cmd/p2p-file-sync/main.go`) or by `ToManifest`
(`internal/merkle/build.go`), and converted back by `manifestToNode` or `BuildFromManifest`.

* `convertTreeToManifest_eq`: on a proper tree the two converters to the wire agree.
* `Received t t'`: `t'` is the tree that a peer makes of what it is sent of `t`.

**The conversions agree and invert** (`conversions_agree`).  A tree is received as it was sent,
and no comparison finds a difference.  `DiffTrees` of two trees without a root is the exception: it
reads the hash of a nil node (`diffTrees_no_roots`).
-/

namespace FileSync.Cli

open Proto (ManifestNode)
open Merkle (Node Tree buildFromManifest)
open Net (manifestToNode nodeToManifest manifestToNode_nodeToManifest)
open Net.SyncManager (remoteTree)

/-- The chunks that `convertTreeToManifest` drops are those of a directory. -/
theorem convertTreeToManifest_eq {n : Node} (h : n.Proper) :
    convertTreeToManifest n = nodeToManifest n := by
  induction n using Node.induction with
  | h n ih =>
    have hchildren : n.children.map convertTreeToManifest = n.children.map nodeToManifest :=
      List.map_congr_left fun c hc => ih c hc (h.below hc)
    obtain ⟨-, hdir⟩ := h n (Node.mem_nodes_self n)
    obtain ⟨name, type, hash, mode, size, children, chunks⟩ := n
    rw [convertTreeToManifest, nodeToManifest, convertChildren_eq, Net.nodesToManifest_eq,
      hchildren]
    cases type with
    | file => rfl
    | dir =>
      obtain rfl : chunks = [] := hdir rfl
      rfl

/-- The trees that a peer makes of a tree that it is sent: by either converter to the wire and
`manifestToNode`, or by `ToManifest` and `BuildFromManifest`. -/
inductive Received (t : Tree) : Tree → Prop
  | synced : Received t (remoteTree ⟨t.root.map nodeToManifest⟩)
  | served : Received t (remoteTree ⟨t.root.map convertTreeToManifest⟩)
  | rebuilt {t' : Tree} (h : buildFromManifest (some t.toManifest) = .ok t') : Received t t'

theorem received_eq {t t' : Tree} (ht : t.Proper) (h : Received t t') : t' = t := by
  obtain ⟨_ | n⟩ := t
  · cases h with
    | synced => rfl
    | served => rfl
    | rebuilt h => exact (Except.ok.inj h).symm
  · have hn : n.Proper := ht n rfl
    cases h with
    | synced => rw [Option.map_some, remoteTree, Option.map_some, manifestToNode_nodeToManifest]
    | served =>
      rw [Option.map_some, convertTreeToManifest_eq hn, remoteTree, Option.map_some,
        manifestToNode_nodeToManifest]
    | rebuilt h =>
      have hback := Merkle.manifestNodeToNode_nodeToManifestNode hn
      cases h
      rw [Tree.toManifest, Option.bind_some, Option.map_some, Option.map_some, hback]

/-- The manifests that a tree is written to, by either converter. -/
def Converted (t : Tree) (root : Option ManifestNode) : Prop :=
  root = t.root.map nodeToManifest ∨ root = t.root.map convertTreeToManifest

theorem Converted.eq {t : Tree} (ht : t.Proper) {root : Option ManifestNode}
    (h : Converted t root) : root = t.root.map nodeToManifest := by
  rcases h with rfl | rfl
  · rfl
  · exact Option.map_congr fun n hn => convertTreeToManifest_eq (ht n hn)

theorem diff_self (ord : Merkle.DiffOrder) (t : Tree) : Merkle.diff ord (some t) (some t) = [] := by
  obtain ⟨_ | n⟩ := t
  · rfl
  · exact if_pos rfl

theorem diffTrees_same (ord : Diff.DiffOrder) (root : Option ManifestNode) :
    Diff.diffTrees ord root root = if root = none then .error .panic else .ok {} := by
  cases root with
  | none => rfl
  | some n => rw [Diff.diffTrees_self, if_neg (by simp)]

/-- **The conversions agree and invert.**  The nodes of a proper tree are the same by every
conversion and back, the received tree is the tree that was sent, `Diff` finds nothing and
`DiffTrees` finds nothing if there is a root. -/
theorem conversions_agree (ord : Merkle.DiffOrder) (ord' : Diff.DiffOrder) (t : Tree)
    (ht : t.Proper) :
    (∀ n ∈ t.root, manifestToNode (nodeToManifest n) = n ∧
      convertTreeToManifest n = nodeToManifest n) ∧
    (∃ t', buildFromManifest (some t.toManifest) = .ok t' ∧ t'.root = t.root) ∧
    ∀ t', Received t t' →
      Merkle.diff ord (some t) (some t') = [] ∧ Merkle.diff ord (some t') (some t) = [] ∧
      ∀ here remote, Converted t here → Converted t' remote →
        Diff.diffTrees ord' here remote = if t.root = none then .error .panic else .ok {} := by
  refine ⟨fun n hn => ?_, ?_, fun t' h => ?_⟩
  · exact ⟨manifestToNode_nodeToManifest n, convertTreeToManifest_eq (ht n hn)⟩
  · have hback := received_eq ht (.rebuilt rfl)
    exact ⟨_, rfl, by rw [hback]⟩
  · obtain rfl : t' = t := received_eq ht h
    refine ⟨diff_self ord t', diff_self ord t', fun here remote hhere hremote => ?_⟩
    rw [hhere.eq ht, hremote.eq ht, diffTrees_same]
    simp only [Option.map_eq_none_iff]

/-- The directory `d` with the file `a`. -/
theorem conversions_agree_one_file :
    let t : Tree := ⟨some (Merkle.newDirNode [100] 0 [Merkle.newFileNode [97] 0 [[1]]])⟩
    t.Proper ∧ ∀ t', Received t t' →
      Merkle.diff (.listed _ _) (some t) (some t') = [] ∧
      Diff.diffTrees (.listed _ _) (t.root.map convertTreeToManifest)
        (t'.root.map nodeToManifest) = .ok {} := by
  intro t
  have ht : t.Proper := by
    rintro n ⟨⟩ m hm
    rcases Node.mem_nodes.1 hm with rfl | ⟨c, hc, hm⟩
    · exact ⟨nofun, fun _ => rfl⟩
    · obtain rfl : c = Merkle.newFileNode [97] 0 [[1]] := by simpa [Node.sortByName] using hc
      rcases Node.mem_nodes.1 hm with rfl | ⟨d, hd, -⟩
      · exact ⟨fun _ => rfl, nofun⟩
      · cases hd
  refine ⟨ht, fun t' h => ?_⟩
  obtain ⟨hdiff, -, htrees⟩ := (conversions_agree (.listed _ _) (.listed _ _) t ht).2.2 t' h
  exact ⟨hdiff, htrees _ _ (.inr rfl) (.inl rfl)⟩

/-- Of two trees without a root, the one received as the other, `DiffTrees` reads a nil node. -/
theorem diffTrees_no_roots :
    let t : Tree := ⟨none⟩
    t.Proper ∧ Received t t ∧ Converted t none ∧
      Diff.diffTrees (.listed _ _) none none = .error .panic :=
  ⟨nofun, .synced, .inl rfl, rfl⟩

end FileSync.Cli
