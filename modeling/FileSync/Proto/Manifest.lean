import Mathlib.Data.List.Nodup
import FileSync.Proto
import FileSync.Os.Path

/-!
# Proto — manifests

A manifest is a tree of nodes.  `At root q n` says that the node `n` stands below `root` at the end
of the names `q`.  In an `Orderly` manifest no two children of a node have the same name, names are
names of directory entries, and only directories have children; then at most one node stands at the
end of given names (`Orderly.at_unique`).
-/

open Filepath (Plain)

namespace FileSync.Proto.ManifestNode

/-- A file, of no mode and size. -/
def file (name hash : Bytes) (chunks : List Bytes) : ManifestNode :=
  { name, isDir := false, hash, mode := 0, size := 0, children := [], chunks }

/-- A directory, of no mode and size. -/
def directory (name hash : Bytes) (children : List ManifestNode) : ManifestNode :=
  { name, isDir := true, hash, mode := 0, size := 0, children, chunks := [] }

@[simp] theorem name_file (name hash : Bytes) (chunks : List Bytes) :
    (file name hash chunks).name = name := rfl

@[simp] theorem name_directory (name hash : Bytes) (children : List ManifestNode) :
    (directory name hash children).name = name := rfl

/-- `n` stands at the end of the names `q` below a node. -/
inductive At : ManifestNode → List Bytes → ManifestNode → Prop
  | here (n : ManifestNode) : At n [] n
  | child {n c m : ManifestNode} {q : List Bytes} (hc : c ∈ n.children) (h : At c q m) :
      At n (c.name :: q) m

theorem at_nil {n m : ManifestNode} : n.At [] m ↔ m = n := by
  constructor
  · rintro ⟨⟩
    rfl
  · rintro rfl
    exact .here m

theorem at_cons {n m : ManifestNode} {name : Bytes} {q : List Bytes} :
    n.At (name :: q) m ↔ ∃ c ∈ n.children, c.name = name ∧ c.At q m := by
  constructor
  · rintro (_ | ⟨hc, h⟩)
    exact ⟨_, hc, rfl, h⟩
  · rintro ⟨c, hc, rfl, h⟩
    exact .child hc h

theorem at_append {n m : ManifestNode} {q s : List Bytes} :
    n.At (q ++ s) m ↔ ∃ b, n.At q b ∧ b.At s m := by
  induction q generalizing n with
  | nil => simp [at_nil]
  | cons name q ih =>
    rw [List.cons_append, at_cons]
    constructor
    · rintro ⟨c, hc, rfl, h⟩
      obtain ⟨b, hb, hs⟩ := ih.1 h
      exact ⟨b, .child hc hb, hs⟩
    · rintro ⟨b, hb, hs⟩
      obtain ⟨c, hc, hname, hq⟩ := at_cons.1 hb
      exact ⟨c, hc, hname, ih.2 ⟨b, hq, hs⟩⟩

theorem at_file {name hash : Bytes} {chunks q : List Bytes} {m : ManifestNode} :
    (file name hash chunks).At q m ↔ q = [] ∧ m = file name hash chunks := by
  cases q with
  | nil => simp [at_nil]
  | cons name q => simp [at_cons, file]

theorem at_directory {name hash : Bytes} {cs : List ManifestNode} {q : List Bytes}
    {m : ManifestNode} : (directory name hash cs).At q m ↔
      q = [] ∧ m = directory name hash cs ∨ ∃ c ∈ cs, ∃ s, q = c.name :: s ∧ c.At s m := by
  cases q with
  | nil => simp [at_nil]
  | cons name q =>
    simp only [at_cons, directory]
    grind

/-- Distinct names below every node. -/
inductive Distinct : ManifestNode → Prop
  | node {n : ManifestNode} (hnames : (n.children.map (·.name)).Nodup)
      (hbelow : ∀ c ∈ n.children, Distinct c) : Distinct n

namespace Distinct

variable {n : ManifestNode}

theorem hnames (h : n.Distinct) : (n.children.map (·.name)).Nodup := by
  cases h
  assumption

theorem hbelow (h : n.Distinct) : ∀ c ∈ n.children, Distinct c := by
  cases h
  assumption

theorem child_unique (h : n.Distinct) {c d : ManifestNode} (hc : c ∈ n.children)
    (hd : d ∈ n.children) (hname : c.name = d.name) : c = d :=
  List.inj_on_of_nodup_map h.hnames hc hd hname

theorem at_unique (h : n.Distinct) {q : List Bytes} {m m' : ManifestNode} (hm : n.At q m)
    (hm' : n.At q m') : m = m' := by
  induction hm with
  | here n => exact (at_nil.1 hm').symm
  | child hc _ ih =>
    obtain ⟨d, hd, hname, hd'⟩ := at_cons.1 hm'
    obtain rfl := h.child_unique hd hc hname
    exact ih (h.hbelow _ hc) hd'

/-- What stands below a child. -/
theorem at_child (h : n.Distinct) {c m : ManifestNode} (hc : c ∈ n.children) {s : List Bytes} :
    n.At (c.name :: s) m ↔ c.At s m := by
  rw [at_cons]
  constructor
  · rintro ⟨d, hd, hname, hm⟩
    rwa [← h.child_unique hd hc hname]
  · exact fun hm => ⟨c, hc, rfl, hm⟩

end Distinct

/-- Above the end of names where nothing stands, there is a first such. -/
theorem exists_topmost {n : ManifestNode} {s : List Bytes} (hno : ∀ m, ¬ n.At s m) :
    ∃ t, t <+: s ∧ (∀ m, ¬ n.At t m) ∧ ∃ b, n.At t.dropLast b := by
  induction s using List.reverseRecOn with
  | nil => exact absurd (.here n) (hno n)
  | append_singleton s c ih =>
    by_cases hs : ∃ b, n.At s b
    · exact ⟨s ++ [c], List.prefix_rfl, hno, by rwa [List.dropLast_concat]⟩
    · obtain ⟨t, ht, htop⟩ := ih fun m hm => hs ⟨m, hm⟩
      exact ⟨t, ht.trans (List.prefix_append s [c]), htop⟩

/-- Above a node there are nodes. -/
theorem At.above {n m : ManifestNode} {s t : List Bytes} (h : n.At s m) (ht : t <+: s) :
    ∃ b r, n.At t b ∧ t ++ r = s ∧ b.At r m := by
  obtain ⟨r, rfl⟩ := ht
  obtain ⟨b, hb, hm⟩ := at_append.1 h
  exact ⟨b, r, hb, rfl, hm⟩

/-- Distinct plain names below every node, and children only below directories. -/
inductive Orderly : ManifestNode → Prop
  | node {n : ManifestNode} (hdir : n.children ≠ [] → n.isDir = true)
      (hnames : (n.children.map (·.name)).Nodup) (hplain : ∀ c ∈ n.children, Plain c.name)
      (hbelow : ∀ c ∈ n.children, Orderly c) : Orderly n

namespace Orderly

variable {n : ManifestNode}

theorem hdir (h : n.Orderly) : n.children ≠ [] → n.isDir = true := by
  cases h
  assumption

theorem hplain (h : n.Orderly) : ∀ c ∈ n.children, Plain c.name := by
  cases h
  assumption

theorem hbelow (h : n.Orderly) : ∀ c ∈ n.children, Orderly c := by
  cases h
  assumption

theorem distinct (h : n.Orderly) : n.Distinct := by
  induction h with
  | node _ hnames _ _ ih => exact .node hnames ih

theorem hnames (h : n.Orderly) : (n.children.map (·.name)).Nodup := h.distinct.hnames

theorem at_unique (h : n.Orderly) {q : List Bytes} {m m' : ManifestNode} (hm : n.At q m)
    (hm' : n.At q m') : m = m' :=
  h.distinct.at_unique hm hm'

theorem plain_of_at (h : n.Orderly) {q : List Bytes} {m : ManifestNode} (hm : n.At q m) :
    ∀ c ∈ q, Plain c := by
  induction hm with
  | here n => simp
  | child hc _ ih => exact List.forall_mem_cons.2 ⟨h.hplain _ hc, ih (h.hbelow _ hc)⟩

end Orderly

/-- The children of every node are in the order of their names. -/
inductive Sorted : ManifestNode → Prop
  | node {n : ManifestNode} (hsorted : n.children.Pairwise fun c d => c.name < d.name)
      (hbelow : ∀ c ∈ n.children, Sorted c) : Sorted n

end FileSync.Proto.ManifestNode
