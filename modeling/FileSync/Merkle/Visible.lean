import FileSync.Merkle.Order

/-!
# Merkle — what a tree depends on

The tree of a directory is computed from what is visible in it: hidden entries are left out at every
level, and the hashes are over names and contents (`internal/merkle/build.go`).

* `Aspect f R`: what `f` says of a node depends on what stands in its place up to `R`, and on what
  `f` says of the children.
* `buildNode_of_view`: the tree depends on what is visible.
* `hash_of_contents`: its root hash depends on the visible names and contents alone.
-/

open Sha256

namespace FileSync.Merkle

variable {κ : Type} {f : Node → κ} {R : Os.Kind → Os.Kind → Prop}

/-- What `f` says of a node comes of the kind of its entry, up to `R`, and of what `f` says of the
children, in whatever order they are. -/
structure Aspect (f : Node → κ) (R : Os.Kind → Os.Kind → Prop) : Prop where
  file : ∀ {m c k}, R (.file m c) k → ∃ m' c', k = .file m' c' ∧
    ∀ name, f (buildFileNode name m c) = f (buildFileNode name m' c')
  dir : ∀ {m k}, R (.dir m) k → ∃ m', k = .dir m' ∧ ∀ name {cs ds : List Node},
    (cs.map (·.name)).Nodup → (ds.map (·.name)).Nodup → (∀ a ∈ cs, ∃ b ∈ ds, f a = f b) →
    (∀ b ∈ ds, ∃ a ∈ cs, f a = f b) →
    f (newDirNode name (m ||| modeDir) cs) = f (newDirNode name (m' ||| modeDir) ds)

/-- What is visible of two entries agrees up to `R`. -/
def AlikeUpTo (R : Os.Kind → Os.Kind → Prop) (e e' : Os.Entry) : Prop :=
  ∀ q, Visible q → Option.Rel R (Os.view (some e) q) (Os.view (some e') q)

theorem AlikeUpTo.below {m m' : UInt32} {es es' : List (Bytes × Os.Entry)}
    (h : AlikeUpTo R (.dir m es) (.dir m' es')) {name : Bytes} (hname : hidden name = false)
    {x y : Os.Entry} (hx : es.lookup name = some x) (hy : es'.lookup name = some y) :
    AlikeUpTo R x y := by
  intro q hq
  have hcons := h (name :: q) (List.forall_mem_cons.2 ⟨hname, hq⟩)
  simpa only [Os.view, Os.reach, hx, hy] using hcons

/-- **Entries that look alike have nodes that are alike.** -/
theorem Aspect.buildNode (hf : Aspect f R) {e e' : Os.Entry} (he : e.WF) (he' : e'.WF)
    (h : AlikeUpTo R e e') (name : Bytes) :
    f (Merkle.buildNode name e) = f (Merkle.buildNode name e') := by
  induction he generalizing e' name with
  | file m c =>
    have hroot := h [] (by simp [Visible])
    rw [Os.view, Os.view, Os.reach_nil, Os.reach_nil] at hroot
    cases hroot with
    | some hk =>
      obtain ⟨m', c', hkind, hfile⟩ := hf.file hk
      cases e' with
      | file => cases hkind; exact hfile name
      | dir => cases hkind
  | @dir m es hnames hplain hbelow ih =>
    have hroot := h [] (by simp [Visible])
    rw [Os.view, Os.view, Os.reach_nil, Os.reach_nil] at hroot
    cases hroot with
    | some hk =>
    obtain ⟨m', hkind, hdir⟩ := hf.dir hk
    cases e' with
    | file => cases hkind
    | dir m₁ es' =>
    cases hkind
    cases he' with
    | dir _ hnames' hplain' hbelow' =>
    refine hdir name (nodup_buildEntries hnames) (nodup_buildEntries hnames') ?_ ?_
    · intro a ha
      obtain ⟨⟨n, x⟩, hx, hvis, rfl⟩ := mem_buildEntries.1 ha
      have hlook := (Os.lookup_eq_some hnames).2 hx
      have hone := h [n] (by simpa [Visible] using hvis)
      simp only [Os.view, Os.reach, hlook] at hone
      cases hlook' : es'.lookup n with
      | none => simp [hlook'] at hone
      | some y =>
        have hy := (Os.lookup_eq_some hnames').1 hlook'
        exact ⟨_, mem_buildEntries.2 ⟨(n, y), hy, hvis, rfl⟩,
          ih (n, x) hx (hbelow' _ hy) (h.below hvis hlook hlook') n⟩
    · intro b hb
      obtain ⟨⟨n, y⟩, hy, hvis, rfl⟩ := mem_buildEntries.1 hb
      have hlook' := (Os.lookup_eq_some hnames').2 hy
      have hone := h [n] (by simpa [Visible] using hvis)
      simp only [Os.view, Os.reach, hlook'] at hone
      cases hlook : es.lookup n with
      | none => simp [hlook] at hone
      | some x =>
        have hx := (Os.lookup_eq_some hnames).1 hlook
        exact ⟨_, mem_buildEntries.2 ⟨(n, x), hx, hvis, rfl⟩,
          ih (n, x) hx (hbelow' _ hy) (h.below hvis hlook hlook') n⟩

/-! ### The tree -/

theorem aspect_id : Aspect (fun n => n) Eq where
  file := by
    rintro m c _ rfl
    exact ⟨m, c, rfl, fun _ => rfl⟩
  dir := by
    rintro m _ rfl
    refine ⟨m, rfl, fun name cs ds hcs hds hsub hsup => ?_⟩
    refine newDirNode_perm ((List.perm_ext_iff_of_nodup hcs.of_map hds.of_map).2 fun n => ?_) hcs ..
    constructor
    · intro hn
      obtain ⟨b, hb, rfl⟩ := hsub n hn
      exact hb
    · intro hn
      obtain ⟨a, ha, rfl⟩ := hsup n hn
      exact ha

/-- **The tree of a directory depends on what is visible in it.** -/
theorem buildNode_of_view {e e' : Os.Entry} (he : e.WF) (he' : e'.WF)
    (h : ∀ q, Visible q → Os.view (some e) q = Os.view (some e') q) (name : Bytes) :
    buildNode name e = buildNode name e' := by
  refine aspect_id.buildNode he he' (fun q hq => ?_) name
  rw [h q hq]
  cases Os.view (some e') q with
  | none => exact .none
  | some k => exact .some rfl

/-! ### The hashes -/

/-- The children of distinct names, in the order of their names, are told by their names. -/
theorem map_sortByName_eq {g : Node → Bytes} {cs ds : List Node} (hcs : (cs.map (·.name)).Nodup)
    (hds : (ds.map (·.name)).Nodup)
    (hsub : ∀ a ∈ cs, ∃ b ∈ ds, (a.name, g a) = (b.name, g b))
    (hsup : ∀ b ∈ ds, ∃ a ∈ cs, (a.name, g a) = (b.name, g b)) :
    (Node.sortByName cs).map (fun n => (n.name, g n)) =
      (Node.sortByName ds).map fun n => (n.name, g n) := by
  have hnodup {xs : List Node} (h : (xs.map (·.name)).Nodup) :
      (xs.map fun n => (n.name, g n)).Nodup :=
    List.Nodup.of_map Prod.fst (by simpa [Function.comp_def] using h)
  have hperm : (cs.map fun n => (n.name, g n)).Perm (ds.map fun n => (n.name, g n)) := by
    refine (List.perm_ext_iff_of_nodup (hnodup hcs) (hnodup hds)).2 fun p => ?_
    simp only [List.mem_map]
    constructor
    · rintro ⟨a, ha, rfl⟩
      obtain ⟨b, hb, heq⟩ := hsub a ha
      exact ⟨b, hb, heq.symm⟩
    · rintro ⟨b, hb, rfl⟩
      obtain ⟨a, ha, heq⟩ := hsup b hb
      exact ⟨a, ha, heq⟩
  have hsorted (xs : List Node) : ((Node.sortByName xs).map fun n => (n.name, g n)).Pairwise
      fun p q => p.1 ≤ q.1 := List.pairwise_map.2 (Node.sorted_sortByName xs)
  have hall : ((Node.sortByName cs).map fun n => (n.name, g n)).Perm
      ((Node.sortByName ds).map fun n => (n.name, g n)) :=
    ((Node.perm_sortByName cs).map _).trans (hperm.trans ((Node.perm_sortByName ds).map _).symm)
  refine hall.eq_of_pairwise (fun p q hp hq hpq hqp => ?_) (hsorted cs) (hsorted ds)
  -- Two children of one name are one.
  have hp' := hall.mem_iff.1 hp
  have hnames : (((Node.sortByName ds).map fun n => (n.name, g n)).map Prod.fst).Nodup := by
    rw [List.map_map]
    exact (((Node.perm_sortByName ds).map (·.name)).nodup_iff).2 hds
  exact List.inj_on_of_nodup_map hnames hp' hq (List.le_antisymm hpq hqp)

theorem aspect_hash :
    Aspect (fun n => (n.name, n.hash)) fun k k' => k.withMode 0 = k'.withMode 0 where
  file := by
    intro m c k hk
    cases k with
    | dir => simp [Os.Kind.withMode] at hk
    | file m' c' =>
      simp only [Os.Kind.withMode, Os.Kind.file.injEq, true_and] at hk
      subst hk
      exact ⟨m', c, rfl, fun name => rfl⟩
  dir := by
    intro m k hk
    cases k with
    | file => simp [Os.Kind.withMode] at hk
    | dir m' =>
      refine ⟨m', rfl, fun name cs ds hcs hds hsub hsup => ?_⟩
      have hpairs := map_sortByName_eq hcs hds hsub hsup
      have hflat (xs : List Node) : (xs.flatMap fun n => n.name ++ n.hash) =
          (xs.map fun n => (n.name, n.hash)).flatMap fun p => p.1 ++ p.2 := by
        rw [List.flatMap_map]
      have hpre : (newDirNode name (m ||| modeDir) cs).preimage =
          (newDirNode name (m' ||| modeDir) ds).preimage := by
        change (Node.sortByName cs).flatMap _ = (Node.sortByName ds).flatMap _
        rw [hflat, hpairs, ← hflat]
      rw [hash_newDirNode, hash_newDirNode, hpre]
      rfl

/-- **The root hash of a directory depends on the visible names and contents.** -/
theorem hash_of_contents {e e' : Os.Entry} (he : e.WF) (he' : e'.WF)
    (h : ∀ q, Visible q → (Os.view (some e) q).map (·.withMode 0) =
      (Os.view (some e') q).map (·.withMode 0)) (name name' : Bytes) :
    (buildNode name e).hash = (buildNode name' e').hash := by
  have halike : AlikeUpTo (fun k k' => k.withMode 0 = k'.withMode 0) e e' := by
    intro q hq
    have hviews := h q hq
    revert hviews
    cases Os.view (some e) q with
    | none => cases Os.view (some e') q with
      | none => exact fun _ => .none
      | some k => simp
    | some k => cases Os.view (some e') q with
      | none => simp
      | some k' => exact fun heq => .some (Option.some.inj heq)
  have hname : (buildNode name' e').hash = (buildNode name e').hash := by cases e' <;> rfl
  rw [hname]
  exact congrArg Prod.snd (aspect_hash.buildNode he he' halike name)

end FileSync.Merkle
