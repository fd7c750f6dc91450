import FileSync.Merkle.Tree
import FileSync.Support.Maps

/-!
# Merkle — Diff

`Diff` walks two trees together, prunes where the hashes agree, and reports what only one side has
and what both have but differently (`internal/merkle/tree.go`).

The children of two directories are compared through two Go maps, and `range` visits a map in an
unspecified order: the walk takes that order from a `RangeOrder`, in which a loop is told apart by
the names from the root down to the directory and by the side whose map it visits.
-/

namespace FileSync.Merkle

inductive DiffType
  | added
  | deleted
  | modified
deriving DecidableEq, Repr

/-- `DiffResult`; a nil `Chunks` is the empty list. -/
structure DiffResult where
  path : Bytes
  type : DiffType
  localNode : Option Node
  remoteNode : Option Node
  chunks : List Bytes

/-- `joinPath`. -/
def joinPath (parent child : Bytes) : Bytes :=
  if parent = [] then child else parent ++ 47 :: child

/-- `findDifferingChunks`: the local chunks that the remote file does not have. -/
def findDifferingChunks (locals remotes : List Bytes) : List Bytes :=
  locals.filter fun h => !remotes.contains h

/-- The chunks an entry of `collectAll` carries. -/
def Node.fileChunks (n : Node) : List Bytes :=
  match n.type with
  | .file => n.chunks
  | .dir => []

/-- The entry of `collectAll` for one node. -/
def collected (path : Bytes) (diffType : DiffType) (n : Node) : DiffResult :=
  if diffType = .added then ⟨path, diffType, some n, none, n.fileChunks⟩
  else ⟨path, diffType, none, some n, n.fileChunks⟩

mutual

/-- `collectAll`: an entry for the node and each node below it. -/
def collectAll : Node → Bytes → DiffType → List DiffResult
  | n@{ children := cs, .. }, parentPath, diffType =>
    collected (joinPath parentPath n.name) diffType n ::
      collectChildren cs (joinPath parentPath n.name) diffType

def collectChildren : List Node → Bytes → DiffType → List DiffResult
  | [], _, _ => []
  | c :: cs, path, diffType => collectAll c path diffType ++ collectChildren cs path diffType

end

/-- Which of the two maps a loop of `diffNodes` visits. -/
inductive Side
  | here
  | there
deriving DecidableEq

/-- The iteration orders of one run of `Diff`. -/
abbrev DiffOrder := RangeOrder (List Bytes × Side) Bytes

/-- `remoteChildren`: the last child of each name. -/
def childMap (children : List Node) : AList (fun _ : Bytes => Node) := assign Node.name id children

mutual

/-- `diffNodes` for two nodes that both exist; `pos` are the names from the root to them. -/
def diffNodes (ord : DiffOrder) (pos : List Bytes) : Node → Node → Bytes → List DiffResult
  | here@{ children := cs, .. }, remote, path =>
    let currentPath := joinPath path here.name
    if here.hash = remote.hash then []
    else if here.type ≠ remote.type then
      [⟨currentPath, .modified, some here, some remote, []⟩]
    else if here.type = .file then
      [⟨currentPath, .modified, some here, some remote,
        findDifferingChunks here.chunks remote.chunks⟩]
    else
      let remoteChildren := childMap remote.children
      let results := assign Prod.fst Prod.snd (diffChildren ord pos cs remoteChildren currentPath)
      (ord.range (pos, .here) results.keys).flatMap (fun name => (results.lookup name).getD []) ++
        ((ord.range (pos, .there) remoteChildren.keys).filter (· ∉ results)).flatMap fun name =>
          ((remoteChildren.lookup name).map (collectAll · currentPath .deleted)).getD []

/-- The entries for each local child, under its name; `diffNodes` with a nil remote child is
`collectAll`. -/
def diffChildren (ord : DiffOrder) (pos : List Bytes) :
    List Node → AList (fun _ : Bytes => Node) → Bytes → List (Bytes × List DiffResult)
  | [], _, _ => []
  | c :: cs, remoteChildren, path =>
    (c.name, match remoteChildren.lookup c.name with
      | none => collectAll c path .added
      | some r => diffNodes ord (pos ++ [c.name]) c r path) ::
    diffChildren ord pos cs remoteChildren path

end

/-- The root of a tree that may be nil. -/
def rootOf (t : Option Tree) : Option Node := t.bind Tree.root

/-- `Diff`. -/
def diff (ord : DiffOrder) (here remote : Option Tree) : List DiffResult :=
  match rootOf here, rootOf remote with
  | none, none => []
  | none, some r => collectAll r [] .deleted
  | some l, none => collectAll l [] .added
  | some l, some r => if l.hash = r.hash then [] else diffNodes ord [] l r []

/-! ### The recursion, on lists of children -/

theorem collectChildren_eq (cs : List Node) (path : Bytes) (ty : DiffType) :
    collectChildren cs path ty = cs.flatMap (collectAll · path ty) := by
  induction cs with
  | nil => rfl
  | cons c cs ih => rw [collectChildren, ih, List.flatMap_cons]

theorem collectAll_eq (n : Node) (parent : Bytes) (ty : DiffType) :
    collectAll n parent ty = collected (joinPath parent n.name) ty n ::
      n.children.flatMap (collectAll · (joinPath parent n.name) ty) := by
  cases n
  rw [collectAll, collectChildren_eq]

/-- `diffNodes` for nodes that may be missing. -/
def diffPair (ord : DiffOrder) (pos : List Bytes) (path : Bytes) :
    Option Node → Option Node → List DiffResult
  | none, none => []
  | none, some r => collectAll r path .deleted
  | some l, none => collectAll l path .added
  | some l, some r => diffNodes ord pos l r path

theorem diffChildren_eq (ord : DiffOrder) (pos : List Bytes) (cs : List Node)
    (rc : AList (fun _ : Bytes => Node)) (path : Bytes) :
    diffChildren ord pos cs rc path =
      cs.map fun c =>
        (c.name, diffPair ord (pos ++ [c.name]) path (some c) (rc.lookup c.name)) := by
  induction cs with
  | nil => rfl
  | cons c cs ih =>
    rw [diffChildren, ih, List.map_cons]
    cases rc.lookup c.name <;> rfl

/-- The entries for the local children of `a`, under their names. -/
def localResults (ord : DiffOrder) (pos : List Bytes) (path : Bytes) (a b : Node) :
    AList (fun _ : Bytes => List DiffResult) :=
  assign Prod.fst Prod.snd (diffChildren ord pos a.children (childMap b.children) path)

theorem diffNodes_eq (ord : DiffOrder) (pos : List Bytes) (a b : Node) (path : Bytes) :
    diffNodes ord pos a b path =
      if a.hash = b.hash then []
      else if a.type ≠ b.type then [⟨joinPath path a.name, .modified, some a, some b, []⟩]
      else if a.type = .file then
        [⟨joinPath path a.name, .modified, some a, some b, findDifferingChunks a.chunks b.chunks⟩]
      else
        (ord.range (pos, .here) (localResults ord pos (joinPath path a.name) a b).keys).flatMap
            (fun name => ((localResults ord pos (joinPath path a.name) a b).lookup name).getD []) ++
          ((ord.range (pos, .there) (childMap b.children).keys).filter
            (· ∉ localResults ord pos (joinPath path a.name) a b)).flatMap fun name =>
              (((childMap b.children).lookup name).map
                (collectAll · (joinPath path a.name) .deleted)).getD [] := by
  cases a
  rw [diffNodes]
  rfl

theorem diff_eq (ord : DiffOrder) (here remote : Option Tree) :
    diff ord here remote = diffPair ord [] [] (rootOf here) (rootOf remote) := by
  unfold diff diffPair
  cases rootOf here with
  | none => cases rootOf remote <;> rfl
  | some l =>
    cases rootOf remote with
    | none => rfl
    | some r =>
      simp only [diffNodes_eq]
      split <;> simp_all

end FileSync.Merkle
