import FileSync.Support.Search
import FileSync.Merkle.Rehash

/-!
# Merkle — finding a child

`GetChild` searches the children of a directory by bisection (`internal/merkle/tree.go`).

* `Node.FindsChildren` says that every child is found by its name, and nothing under other names.
* `InNameOrder`: the names of a list of children, in order and each of them once.

**When the children are found** (`findsChildren_iff`): exactly if they are in the order of their
names.
-/

namespace FileSync.Merkle

/-- In increasing order of names. -/
def InNameOrder (names : List Bytes) : Prop := names.Pairwise (· < ·)

namespace Node

/-- The test that `GetChild` gives to `sort.Search`; the search stays within the children. -/
def notBefore (n : Node) (name : Bytes) (i : ℕ) : Bool :=
  n.children[i]?.any fun c => decide (name ≤ c.name)

def getChild (n : Node) (name : Bytes) : Option Node :=
  if n.type ≠ .dir then none
  else n.children[Search.search n.children.length (n.notBefore name)]?.filter (·.name = name)

/-- `GetChild` returns the child of a name if there is one, and nil otherwise. -/
structure FindsChildren (n : Node) : Prop where
  found : ∀ c ∈ n.children, n.getChild c.name = some c
  absent : ∀ name, (∀ c ∈ n.children, c.name ≠ name) → n.getChild name = none

/-- What is returned is a child of that name, in whatever order the children are. -/
theorem mem_of_getChild {n c : Node} {name : Bytes} (h : n.getChild name = some c) :
    c ∈ n.children ∧ c.name = name := by
  rw [getChild] at h
  split at h
  · cases h
  · obtain ⟨hc, hname⟩ := Option.filter_eq_some_iff.1 h
    exact ⟨List.mem_of_getElem? hc, of_decide_eq_true hname⟩

theorem getChild_of_absent {n : Node} {name : Bytes} (h : ∀ c ∈ n.children, c.name ≠ name) :
    n.getChild name = none := by
  cases hc : n.getChild name with
  | none => rfl
  | some c =>
    obtain ⟨hmem, hname⟩ := mem_of_getChild hc
    exact (h c hmem hname).elim

theorem notBefore_of_getElem? {n c : Node} {i : ℕ} (h : n.children[i]? = some c) (name : Bytes) :
    n.notBefore name i = decide (name ≤ c.name) := by
  rw [notBefore, h, Option.any_some]

/-- A child is found exactly if the search ends at it. -/
theorem getChild_eq_some_iff {n c : Node} (hdir : n.type = .dir)
    (hnames : (n.children.map name).Nodup) {i : ℕ} (hi : n.children[i]? = some c) :
    n.getChild c.name = some c ↔
      Search.search n.children.length (n.notBefore c.name) = i := by
  rw [getChild, if_neg (not_not.2 hdir), Option.filter_eq_some_iff]
  constructor
  · rintro ⟨hc, -⟩
    have hlt : i < n.children.length := (List.getElem?_eq_some_iff.1 hi).1
    exact ((List.getElem?_inj hlt (List.Nodup.of_map name hnames)).1 (hi.trans hc.symm)).symm
  · intro hsearch
    rw [hsearch]
    exact ⟨hi, decide_eq_true rfl⟩

theorem name_lt_of_inNameOrder {n c d : Node} (h : InNameOrder (n.children.map name)) {i j : ℕ}
    (hij : i < j) (hc : n.children[i]? = some c) (hd : n.children[j]? = some d) :
    c.name < d.name := by
  rw [InNameOrder, List.pairwise_map, List.pairwise_iff_getElem] at h
  obtain ⟨hi, rfl⟩ := List.getElem?_eq_some_iff.1 hc
  obtain ⟨hj, rfl⟩ := List.getElem?_eq_some_iff.1 hd
  exact h i j hi hj hij

/-- In order, the search ends at the child. -/
theorem search_of_inNameOrder {n c : Node} (h : InNameOrder (n.children.map name)) {i : ℕ}
    (hi : n.children[i]? = some c) :
    Search.search n.children.length (n.notBefore c.name) = i := by
  have hlt : i < n.children.length := (List.getElem?_eq_some_iff.1 hi).1
  obtain ⟨hle, hbefore, hat⟩ := Search.search_spec n.children.length (n.notBefore c.name)
  generalize Search.search n.children.length (n.notBefore c.name) = r at hle hbefore hat ⊢
  rcases Nat.lt_trichotomy r i with hless | heq | hmore
  · -- The child at the result comes before `c`.
    obtain ⟨d, hd⟩ : ∃ d, n.children[r]? = some d := ⟨_, List.getElem?_eq_getElem (by omega)⟩
    have htest := hat (by omega)
    rw [notBefore_of_getElem? hd, decide_eq_true_iff] at htest
    exact (htest (name_lt_of_inNameOrder h hless hd hi)).elim
  · exact heq
  · -- The child before the result is `c`, or comes after it.
    obtain ⟨d, hd⟩ : ∃ d, n.children[r - 1]? = some d := ⟨_, List.getElem?_eq_getElem (by omega)⟩
    have htest := hbefore (by omega)
    rw [notBefore_of_getElem? hd, decide_eq_false_iff_not] at htest
    rcases Nat.lt_or_eq_of_le (show i ≤ r - 1 by omega) with hafter | hsame
    · exact (htest (List.le_of_lt (name_lt_of_inNameOrder h hafter hi hd))).elim
    · obtain rfl : c = d := Option.some.inj (hi.symm.trans (hsame ▸ hd))
      exact (htest (List.le_refl _)).elim

/-- **When the children are found**: exactly if they are in the order of their names. -/
theorem findsChildren_iff {n : Node} (hdir : n.type = .dir)
    (hnames : (n.children.map name).Nodup) :
    n.FindsChildren ↔ InNameOrder (n.children.map name) := by
  constructor
  · intro h
    rw [InNameOrder, List.pairwise_map, List.pairwise_iff_getElem]
    intro i j hi hj hij
    have hends {k : ℕ} (hk : k < n.children.length) :
        Search.search n.children.length (n.notBefore (n.children[k]).name) = k :=
      (getChild_eq_some_iff hdir hnames (List.getElem?_eq_getElem hk)).1
        (h.found _ (List.getElem_mem hk))
    -- The two searches part at a child between the two.
    obtain ⟨k, hleft, hright⟩ := Search.search_separates
      (show Search.search n.children.length (n.notBefore (n.children[i]).name) <
        Search.search n.children.length (n.notBefore (n.children[j]).name) by
          rwa [hends hi, hends hj])
    cases hk : n.children[k]? with
    | none =>
      rw [notBefore, hk] at hleft
      cases hleft
    | some d =>
      rw [notBefore_of_getElem? hk, decide_eq_true_iff] at hleft
      rw [notBefore_of_getElem? hk, decide_eq_false_iff_not, List.not_le] at hright
      exact List.lt_of_le_of_lt hleft hright
  · intro h
    refine ⟨fun c hc => ?_, fun name => getChild_of_absent⟩
    obtain ⟨i, hi⟩ := List.mem_iff_getElem?.1 hc
    exact (getChild_eq_some_iff hdir hnames hi).2 (search_of_inNameOrder h hi)

end Node

end FileSync.Merkle
