import Mathlib.Data.List.AList
import Mathlib.Tactic.Choose

/-!
# Support — Maps

A Go map filled by assignments, the unspecified order in which `range` visits one, and lists that
hold one result for each position of some domain.

* `assign` is the map after `m[key i] = val i` for each item in turn; `lookup_assign` reads it back
  when the keys are distinct.
* `lookup_insert_eq_some` and `lookup_erase_eq_some` say which entries there are after an
  assignment or a deletion; `keepEntries` is the map after a loop that deletes entries.
* `RangeOrder` is one choice of iteration order for every loop over a map in a run.
* `Enumerates xs R` says that `xs` has exactly one element for each point of the domain of the
  relation `R`, related to it, and no other; `Enumerates.node` is its rule for results gathered
  along a tree.
-/

/-! ### Maps -/

section Assign

variable {κ β γ : Type} [DecidableEq κ] {key : γ → κ} {val : γ → β}

/-- `m[key i] = val i`, for each item in turn. -/
def assign (key : γ → κ) (val : γ → β) (items : List γ) : AList (fun _ : κ => β) :=
  items.foldl (fun m i => m.insert (key i) (val i)) ∅

theorem lookup_foldl_insert_of_notMem {items : List γ} {k : κ} (m : AList (fun _ : κ => β))
    (h : k ∉ items.map key) :
    (items.foldl (fun m i => m.insert (key i) (val i)) m).lookup k = m.lookup k := by
  induction items generalizing m with
  | nil => rfl
  | cons i items ih =>
    rw [List.map_cons, List.mem_cons, not_or] at h
    rw [List.foldl_cons, ih _ h.2, AList.lookup_insert_ne h.1]

theorem lookup_assign {items : List γ} (h : (items.map key).Nodup) (k : κ) :
    (assign key val items).lookup k = (items.find? (key · = k)).map val := by
  unfold assign
  generalize hm : (∅ : AList (fun _ : κ => β)) = m
  have hk : m.lookup k = none := by rw [← hm]; exact AList.lookup_empty k
  clear hm
  induction items generalizing m with
  | nil => simpa using hk
  | cons i items ih =>
    rw [List.map_cons, List.nodup_cons] at h
    rw [List.foldl_cons]
    by_cases hi : key i = k
    · subst hi
      rw [lookup_foldl_insert_of_notMem _ h.1, AList.lookup_insert,
        List.find?_cons_of_pos (by simp)]
      rfl
    · rw [List.find?_cons_of_neg (by simpa using hi)]
      exact ih h.2 _ (by rw [AList.lookup_insert_ne (Ne.symm hi), hk])

end Assign

section Keys

variable {κ β γ : Type} [DecidableEq κ]

/-- Among items with distinct keys, each is found by its own. -/
theorem find?_key {key : γ → κ} {items : List γ} (h : (items.map key).Nodup) {i : γ}
    (hi : i ∈ items) : items.find? (key · = key i) = some i := by
  cases hf : items.find? (key · = key i) with
  | none => exact absurd (List.find?_eq_none.1 hf i hi) (by simp)
  | some j =>
    have hkey : key j = key i := by simpa using List.find?_some hf
    rw [List.inj_on_of_nodup_map h (List.mem_of_find?_eq_some hf) hi hkey]

theorem mem_keys_iff {m : AList (fun _ : κ => β)} {k : κ} : k ∈ m.keys ↔ m.lookup k ≠ none := by
  rw [← AList.mem_keys, ← AList.lookup_isSome, Option.isSome_iff_ne_none]

end Keys

section Entries

variable {κ β : Type} [DecidableEq κ] {m : AList (fun _ : κ => β)} {k k' : κ} {v v' : β}

/-- An entry after an assignment is the new one, or an old one of another key. -/
theorem lookup_insert_eq_some :
    (m.insert k v).lookup k' = some v' ↔ k' = k ∧ v = v' ∨ k' ≠ k ∧ m.lookup k' = some v' := by
  by_cases h : k' = k
  · subst h
    rw [AList.lookup_insert]
    simp
  · rw [AList.lookup_insert_ne h]
    simp [h]

theorem lookup_erase_eq_some :
    (m.erase k).lookup k' = some v ↔ k' ≠ k ∧ m.lookup k' = some v := by
  by_cases h : k' = k
  · subst h
    rw [AList.lookup_erase]
    simp
  · rw [AList.lookup_erase_ne h]
    simp [h]

end Entries

section Keep

variable {κ β : Type} [DecidableEq κ]

/-- The map after `delete` of every entry whose value is not kept, by a loop over the map. -/
def keepEntries (keep : β → Bool) (m : AList (fun _ : κ => β)) : AList (fun _ : κ => β) :=
  ⟨m.entries.filter (keep ·.2), m.nodupKeys.sublist List.filter_sublist⟩

theorem lookup_keepEntries (keep : β → Bool) (m : AList (fun _ : κ => β)) (k : κ) :
    (keepEntries keep m).lookup k = (m.lookup k).filter keep := by
  ext v
  rw [Option.filter_eq_some_iff, ← Option.mem_def, ← Option.mem_def, AList.mem_lookup_iff,
    AList.mem_lookup_iff]
  exact List.mem_filter

end Keep

/-- An order for each loop over a map: `ι` tells the loops of a run apart. -/
structure RangeOrder (ι κ : Type) where
  range : ι → List κ → List κ
  perm : ∀ i ks, (range i ks).Perm ks

/-- The order in which the map itself lists its keys. -/
def RangeOrder.listed (ι κ : Type) : RangeOrder ι κ := ⟨fun _ ks => ks, fun _ ks => .refl ks⟩

/-! ### One result for each position -/

/-- `xs` has one element for each point at which `R` holds of something, and no other. -/
def Enumerates {α β : Type} (xs : List β) (R : α → β → Prop) : Prop :=
  ∃ es : List (α × β), xs = es.map Prod.snd ∧ (es.map Prod.fst).Nodup ∧ ∀ p x, (p, x) ∈ es ↔ R p x

namespace Enumerates

variable {α β γ ν δ : Type}

theorem nil {R : α → β → Prop} (h : ∀ p x, ¬ R p x) : Enumerates [] R :=
  ⟨[], rfl, List.nodup_nil, fun p x => by simpa using h p x⟩

theorem congr {xs : List β} {R S : α → β → Prop} (hxs : Enumerates xs R)
    (h : ∀ p x, R p x ↔ S p x) : Enumerates xs S := by
  obtain ⟨es, rfl, hnd, hes⟩ := hxs
  exact ⟨es, rfl, hnd, fun p x => (hes p x).trans (h p x)⟩

theorem mem_iff {xs : List β} {R : α → β → Prop} (h : Enumerates xs R) {x : β} :
    x ∈ xs ↔ ∃ p, R p x := by
  obtain ⟨es, rfl, -, hes⟩ := h
  simp [← hes]

/-- A feature of the elements that tells their points apart does not repeat. -/
theorem nodup_map {xs : List β} {R : α → β → Prop} (h : Enumerates xs R) (f : β → δ)
    (hinj : ∀ p q x y, R p x → R q y → f x = f y → p = q) : (xs.map f).Nodup := by
  obtain ⟨es, rfl, hnd, hes⟩ := h
  rw [List.map_map]
  refine (List.Nodup.of_map _ hnd).map_on fun e he e' he' heq => ?_
  have hp := hinj e.1 e'.1 e.2 e'.2 ((hes _ _).1 he) ((hes _ _).1 he') heq
  exact List.inj_on_of_nodup_map hnd he he' hp

/-- The results at a tree node: what there is at the node itself, then the results of its parts,
each under its own key. -/
theorem node {R : List ν → β → Prop} (here : Option β) {items : List γ} (key : γ → ν)
    {xs : γ → List β} (hhere : ∀ x, R [] x ↔ here = some x)
    (hkeys : (items.map key).Nodup)
    (hitems : ∀ i ∈ items, Enumerates (xs i) fun p x => R (key i :: p) x)
    (hrest : ∀ n ∉ items.map key, ∀ p x, ¬ R (n :: p) x) :
    Enumerates (here.toList ++ items.flatMap xs) R := by
  choose! es hxs hnd hes using hitems
  refine ⟨here.toList.map (fun x => ([], x)) ++
    items.flatMap fun i => (es i).map fun e => (key i :: e.1, e.2), ?_, ?_, ?_⟩
  · rw [List.map_append, List.map_map, List.map_flatMap]
    congr 1
    · simp [Function.comp_def]
    · exact List.flatMap_congr fun i hi => by simp [hxs i hi]
  · rw [List.map_append, List.map_map, List.map_flatMap, List.nodup_append]
    refine ⟨?_, List.nodup_flatMap.2 ⟨fun i hi => ?_, ?_⟩, ?_⟩
    · cases here <;> simp
    · simpa [Function.comp_def] using (hnd i hi).map (List.cons_injective (a := key i))
    · -- Results of different parts are apart by their first name.
      rw [List.Nodup, List.pairwise_map] at hkeys
      refine hkeys.imp fun hne => ?_
      simp only [Function.onFun, List.disjoint_left, List.map_map, List.mem_map]
      rintro _ ⟨e, -, rfl⟩ ⟨e', -, he⟩
      exact hne (List.cons.inj he).1.symm
    · rintro p hp q hq rfl
      simp only [List.map_map, List.mem_map, List.mem_flatMap, Function.comp] at hp hq
      obtain ⟨-, -, rfl⟩ := hp
      obtain ⟨i, -, e, -, he⟩ := hq
      cases he
  · intro p x
    rw [List.mem_append, List.mem_flatMap]
    cases p with
    | nil => simp [hhere, eq_comm]
    | cons n p =>
      constructor
      · rintro (h | ⟨i, hi, h⟩)
        · simp at h
        · obtain ⟨e, he, heq⟩ := List.mem_map.1 h
          obtain ⟨⟨rfl, rfl⟩, rfl⟩ : (key i = n ∧ e.1 = p) ∧ e.2 = x := by simpa using heq
          exact (hes i hi _ _).1 he
      · intro hR
        by_cases hn : n ∈ items.map key
        · obtain ⟨i, hi, rfl⟩ := List.mem_map.1 hn
          exact Or.inr ⟨i, hi, List.mem_map.2 ⟨_, (hes i hi p x).2 hR, rfl⟩⟩
        · exact (hrest n hn p x hR).elim

theorem leaf {R : List ν → β → Prop} {y : β} (hhere : ∀ x, R [] x ↔ y = x)
    (hrest : ∀ n p x, ¬ R (n :: p) x) : Enumerates [y] R := by
  refine ⟨[([], y)], rfl, by simp, fun p x => ?_⟩
  cases p with
  | nil => simp [hhere, eq_comm]
  | cons n p => simpa using hrest n p x

end Enumerates
