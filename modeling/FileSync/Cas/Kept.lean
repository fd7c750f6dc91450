import FileSync.Cas.Store

/-!
# Cas — what a store keeps

What `Put`s, one after the other, make of a store (`internal/cas/store.go`).

* What is held stays, and what is new is the chunk that was put (`blob_mono`, `blob_new`).
* `Stored s fs chunks fs'`: a run of `Put`s that did not fail.
* `Stored.sound_iff`: the store is still sound after it just when each chunk that was not held has
  the hash it was put under; `Stored.holds_iff`: what it then holds.
-/

open Sha256 Filepath

namespace FileSync.Cas.BlobStore

variable {s : BlobStore}

/-! ### One put -/

namespace PutEffect

variable {chunk : Chunk} {fs fs' : Os.Fs}

/-- A place changes only from vacant to the chunk's data, or, where it is a subdirectory's, from
vacant to a directory. -/
theorem view_place (hs : isAbs s.baseDir) (h : PutEffect s chunk fs fs') (hash : Bytes) :
    Os.view fs' (s.place hash) = Os.view fs (s.place hash) ∨
      (Os.view fs (s.place hash) = none ∧
        ((hash = chunk.hash ∧ ∃ m, Os.view fs' (s.place hash) = some (.file m chunk.data)) ∨
          (s.place hash <+: (s.place chunk.hash).dropLast ∧
            ∃ m, Os.view fs' (s.place hash) = some (.dir m)))) := by
  by_cases hne : chunk.hash = []
  · rw [h.home hne]
    exact Or.inl rfl
  by_cases hh : hash = chunk.hash
  · subst hh
    rcases h.there with heq | ⟨hvac, hm⟩
    · exact Or.inl heq
    · exact Or.inr ⟨hvac, Or.inl ⟨rfl, hm⟩⟩
  · rcases h.elsewhere (s.place hash) (fun he => hh (s.place_injective he))
      (temp_ne_place hs hne hash).symm with heq | ⟨hvac, hpre, hm⟩
    · exact Or.inl heq
    · exact Or.inr ⟨hvac, Or.inr ⟨hpre, hm⟩⟩

/-- What is kept stays. -/
theorem blob_mono (hs : isAbs s.baseDir) (h : PutEffect s chunk fs fs') {hash c : Bytes}
    (hb : s.blob fs hash = some c) : s.blob fs' hash = some c := by
  rcases h.view_place hs hash with heq | ⟨hvac, -⟩
  · rwa [blob, Os.content_of_view heq]
  · simp [blob, Os.content, hvac] at hb

/-- What is new is the chunk. -/
theorem blob_new (hs : isAbs s.baseDir) (h : PutEffect s chunk fs fs') {hash c : Bytes}
    (hb : s.blob fs' hash = some c) :
    s.blob fs hash = some c ∨ (hash = chunk.hash ∧ c = chunk.data) := by
  rcases h.view_place hs hash with heq | ⟨-, ⟨hh, m, hm⟩ | ⟨-, m, hm⟩⟩
  · rw [blob, Os.content_of_view heq] at hb
    exact Or.inl hb
  · rw [blob_of_view hm] at hb
    exact Or.inr ⟨hh, (Option.some.inj hb).symm⟩
  · simp [blob, Os.content, hm] at hb

theorem holds_mono (hs : isAbs s.baseDir) (h : PutEffect s chunk fs fs') {hash : Bytes}
    (hb : s.Holds fs hash) : s.Holds fs' hash := by
  rcases h.view_place hs hash with heq | ⟨hvac, -⟩
  · rwa [Holds, heq]
  · exact (hb hvac).elim

theorem sound (hs : isAbs s.baseDir) (h : PutEffect s chunk fs fs') (hsound : s.Sound fs)
    (hdata : (sum256 chunk.data).bytes = chunk.hash) : s.Sound fs' := by
  intro hash c hb
  rcases h.blob_new hs hb with hb | ⟨rfl, rfl⟩
  · exact hsound hash c hb
  · exact hdata

theorem not_sound (hs : isAbs s.baseDir) (h : PutEffect s chunk fs fs') (hsound : ¬ s.Sound fs) :
    ¬ s.Sound fs' :=
  fun h' => hsound fun hash c hb => h' hash c (h.blob_mono hs hb)

theorem ready (hs : isAbs s.baseDir) (h : PutEffect s chunk fs fs') (hr : s.Ready fs) :
    s.Ready fs' := by
  refine ⟨h.holds_mono hs hr.base, fun hash hne m hm => ?_⟩
  by_cases hc : chunk.hash = []
  · rw [h.home hc] at hm
    exact hr.temp hash hne m hm
  by_cases ht : s.temp hash = s.temp chunk.hash
  · exact hr.temp hash hne m (ht ▸ h.beside m (ht ▸ hm))
  rcases h.elsewhere _ (temp_ne_place hs hne chunk.hash) ht with heq | ⟨-, hpre, -⟩
  · exact hr.temp hash hne m (heq ▸ hm)
  · -- The directories a `Put` makes have no name with a dot below the store's.
    obtain ⟨d, c, -, htemp, -⟩ := place_eq_concat hs hne
    have hpre' := hpre.trans (List.dropLast_prefix _)
    rw [htemp, List.append_assoc, place, List.prefix_append_right_inj] at hpre'
    exact dot_notMem_loc (hpre'.subset (by simp)) (by simp [tmpSuffix] :
      46 ∈ Hex.encode c ++ tmpSuffix)

end PutEffect

variable {fs fs' : Os.Fs}

/-- The directory of a place is the place of a hash of at most one byte. -/
theorem dropLast_place {hash : Bytes} (h : hash ≠ []) :
    (s.place hash).dropLast = s.place [] ∨ ∃ x, (s.place hash).dropLast = s.place [x] := by
  match hash, h with
  | [x], _ => exact Or.inl (by simp [place, loc])
  | x :: y :: r, _ =>
    refine Or.inr ⟨x, ?_⟩
    rw [place, loc, List.dropLast_append_of_ne_nil (by simp)]
    rfl

/-- No file is where the store's directory or one of its subdirectories should be. -/
def Clear (s : BlobStore) (fs : Os.Fs) : Prop :=
  ∀ hash : Bytes, hash.length ≤ 1 → ∀ m c, Os.view fs (s.place hash) ≠ some (.file m c)

/-- Such a file would be a blob under a hash that is too short. -/
theorem Sound.clear (hsound : s.Sound fs) : s.Clear fs := by
  intro hash hlen m c hv
  have := (sum256 c).length_bytes
  rw [hsound hash c (blob_of_view hv)] at this
  omega

theorem Clear.noFile (hclear : s.Clear fs) (hbase : s.Holds fs []) {hash : Bytes}
    (hlen : hash.length ≤ 1) : Os.NoFile fs (s.place hash) := by
  have hfree : Os.NoFile fs (s.place []) := by
    intro q hq m c hv
    by_cases hqb : q = s.place []
    · exact hclear [] (by simp) m c (hqb ▸ hv)
    · obtain ⟨m', hm'⟩ := Os.view_dir_above hq hqb hbase
      exact nomatch hm'.symm.trans hv
  match hash, hlen with
  | [], _ => exact hfree
  | [x], hlen =>
    intro q hq m c hv
    have hx : s.place [x] = s.place [] ++ [Hex.encode [x]] := by simp [place, loc]
    rcases List.prefix_concat_iff.1 (hx ▸ hq) with h | h
    · exact hclear [x] hlen m c ((h.trans hx.symm) ▸ hv)
    · exact hfree q h m c hv

/-- Nothing is then in the way of a `Put`. -/
theorem put_succeeds {chunk : Chunk} {e : Err} (hclear : s.Clear fs) (hr : s.Ready fs) :
    ¬ PutResult s chunk fs fs' (.error e) := by
  rintro ⟨hvac, -, hway⟩
  have hne : chunk.hash ≠ [] := fun h => hr.base (h ▸ hvac)
  rcases hway with hway | ⟨m, hm⟩
  · rcases dropLast_place (s := s) hne with h | ⟨x, h⟩
    · exact hway (h ▸ hclear.noFile hr.base (by simp))
    · exact hway (h ▸ hclear.noFile hr.base (by simp))
  · exact hr.temp _ hne m hm

theorem PutEffect.clear (hs : isAbs s.baseDir) {chunk : Chunk} (h : PutEffect s chunk fs fs')
    (hlen : 2 ≤ chunk.hash.length) (hclear : s.Clear fs) : s.Clear fs' := by
  intro hash hshort m c hv
  rcases h.view_place hs hash with heq | ⟨-, ⟨rfl, -⟩ | ⟨-, m', hm'⟩⟩
  · exact hclear hash hshort m c (heq ▸ hv)
  · omega
  · exact nomatch hm'.symm.trans hv

/-- A `Put` changes nothing outside the store's directory. -/
theorem PutEffect.outside (hs : isAbs s.baseDir) {chunk : Chunk} (h : PutEffect s chunk fs fs')
    (hbase : s.Holds fs []) {q : List Bytes} (hq : ¬ resolve s.baseDir <+: q) :
    Os.view fs' q = Os.view fs q := by
  by_cases hne : chunk.hash = []
  · rw [h.home hne]
  obtain ⟨d, c, -, htemp, -⟩ := place_eq_concat hs hne
  have hp : q ≠ s.place chunk.hash := by
    rintro rfl
    exact hq (List.prefix_append _ _)
  have ht : q ≠ s.temp chunk.hash := by
    rintro rfl
    exact hq ⟨d ++ [Hex.encode c ++ tmpSuffix], by rw [htemp, List.append_assoc]⟩
  rcases h.elsewhere q hp ht with heq | ⟨hvac, hpre, -⟩
  · exact heq
  · -- A directory that a `Put` makes is in the store's, which is there.
    have hbase' : s.place [] = resolve s.baseDir := by simp [place, loc]
    rcases List.prefix_or_prefix_of_prefix (hpre.trans (List.dropLast_prefix _))
      (List.prefix_append (resolve s.baseDir) (loc chunk.hash)) with hqb | hqb
    · have hne' : q ≠ s.place [] := fun he => hq ((he.trans hbase') ▸ List.prefix_refl _)
      obtain ⟨m, hm⟩ := Os.view_dir_above (hbase' ▸ hqb) hne' hbase
      cases hvac.symm.trans hm
    · exact (hq hqb).elim

theorem view_below_empty {m : UInt32} (h : Os.reach fs (resolve s.baseDir) = some (.dir m []))
    {r : List Bytes} (hr : r ≠ []) : Os.view fs (resolve s.baseDir ++ r) = none := by
  have hleaf : Os.Leaf (some (.dir m [])) := rfl
  rw [Os.view, Os.reach_append, h, hleaf.reach hr]
  rfl

theorem not_holds_of_empty {m : UInt32} (h : Os.reach fs (resolve s.baseDir) = some (.dir m []))
    {hash : Bytes} (hne : hash ≠ []) : ¬ s.Holds fs hash := by
  have hloc : loc hash ≠ [] := by
    match hash, hne with
    | [_], _ | _ :: _ :: _, _ => simp [loc]
  exact fun hh => hh (view_below_empty h hloc)

theorem blob_of_empty {m : UInt32} (h : Os.reach fs (resolve s.baseDir) = some (.dir m []))
    (hash : Bytes) : s.blob fs hash = none := by
  by_cases hne : hash = []
  · subst hne
    simp [blob, place, loc, Os.content, Os.view, h, Os.Entry.kind]
  · have hview := not_not.1 (not_holds_of_empty h hne)
    simp [blob, Os.content, hview]

/-- A store that was just created. -/
theorem ready_and_sound_of_empty {m : UInt32} (hs : isAbs s.baseDir)
    (h : Os.reach fs (resolve s.baseDir) = some (.dir m [])) : s.Ready fs ∧ s.Sound fs := by
  have hbase : Os.view fs (s.place []) = some (.dir m) := by
    simp [place, loc, Os.view, h, Os.Entry.kind]
  refine ⟨⟨by simp [Holds, hbase], fun hash hne m' hm => ?_⟩, fun hash c hb => ?_⟩
  · obtain ⟨d, c, -, htemp, -⟩ := place_eq_concat hs hne
    rw [htemp, List.append_assoc, view_below_empty h (by simp)] at hm
    cases hm
  · rw [blob_of_empty h] at hb
    cases hb

/-! ### Several puts -/

/-- `fs'` is what putting the chunks in turn made of `fs`, no `Put` failing. -/
inductive Stored (s : BlobStore) : Os.Fs → List Chunk → Os.Fs → Prop
  | nil {fs : Os.Fs} : Stored s fs [] fs
  | cons {fs fs₁ fs₂ : Os.Fs} {c : Chunk} {cs : List Chunk} {new : Bool}
      (heff : PutEffect s c fs fs₁) (hres : PutResult s c fs fs₁ (.ok new))
      (hrest : Stored s fs₁ cs fs₂) : Stored s fs (c :: cs) fs₂

/-- Each chunk that the store does not hold when it is put has the hash that it is put under.  The
place of a hash is held once a chunk was put there or below it. -/
def Vouched (s : BlobStore) (fs : Os.Fs) (chunks : List Chunk) : Prop :=
  ∀ before c after, chunks = before ++ c :: after → ¬ s.Holds fs c.hash →
    (∀ c' ∈ before, ¬ s.place c.hash <+: s.place c'.hash) → (sum256 c.data).bytes = c.hash

theorem holds_put (hs : isAbs s.baseDir) {c : Chunk} {new : Bool} (heff : PutEffect s c fs fs')
    (hres : PutResult s c fs fs' (.ok new)) (hash : Bytes) :
    s.Holds fs' hash ↔ s.Holds fs hash ∨ s.place hash <+: s.place c.hash := by
  have hthere : s.Holds fs' c.hash := by
    cases new with
    | false => exact heff.holds_mono hs hres.2
    | true =>
      obtain ⟨-, m, hm⟩ := hres
      simp [Holds, hm]
  constructor
  · intro hh
    rcases heff.view_place hs hash with heq | ⟨-, ⟨rfl, -⟩ | ⟨hpre, -⟩⟩
    · exact Or.inl (by rwa [Holds, ← heq])
    · exact Or.inr (List.prefix_refl _)
    · exact Or.inr (hpre.trans (List.dropLast_prefix _))
  · rintro (hh | hpre)
    · exact heff.holds_mono hs hh
    · by_cases heq : s.place hash = s.place c.hash
      · rwa [Holds, heq]
      · obtain ⟨m, hm⟩ := Os.view_dir_above hpre heq hthere
        simp [Holds, hm]

theorem vouched_nil : s.Vouched fs [] := fun before c after h => by simp at h

/-- The first chunk, and the others in the store it was put in. -/
theorem vouched_cons (hs : isAbs s.baseDir) {c : Chunk} {cs : List Chunk} {new : Bool}
    (heff : PutEffect s c fs fs') (hres : PutResult s c fs fs' (.ok new)) :
    s.Vouched fs (c :: cs) ↔
      (¬ s.Holds fs c.hash → (sum256 c.data).bytes = c.hash) ∧ s.Vouched fs' cs := by
  have hholds := holds_put hs heff hres
  constructor
  · intro h
    refine ⟨fun hv => h [] c cs rfl hv (by simp), fun before d after hcs hv hb => ?_⟩
    rw [hholds, not_or] at hv
    refine h (c :: before) d after (by rw [hcs, List.cons_append]) hv.1 fun c' hc' => ?_
    rcases List.mem_cons.1 hc' with rfl | hc'
    · exact hv.2
    · exact hb c' hc'
  · rintro ⟨hc, hcs⟩ before d after heq hv hb
    cases before with
    | nil =>
      obtain ⟨rfl, -⟩ := List.cons.inj heq
      exact hc hv
    | cons c' before =>
      obtain ⟨rfl, heq'⟩ := List.cons.inj heq
      refine hcs before d after heq' ?_ fun c' hc' => hb c' (List.mem_cons_of_mem _ hc')
      rw [hholds, not_or]
      exact ⟨hv, hb c List.mem_cons_self⟩

theorem Stored.ready (hs : isAbs s.baseDir) {chunks : List Chunk} (h : Stored s fs chunks fs')
    (hr : s.Ready fs) : s.Ready fs' := by
  induction h with
  | nil => exact hr
  | cons heff _ _ ih => exact ih (heff.ready hs hr)

theorem Stored.not_sound (hs : isAbs s.baseDir) {chunks : List Chunk} (h : Stored s fs chunks fs')
    (hn : ¬ s.Sound fs) : ¬ s.Sound fs' := by
  induction h with
  | nil => exact hn
  | cons heff _ _ ih => exact ih (heff.not_sound hs hn)

/-- After one `Put` the store is sound just when the chunk was held or has the hash it was put
under: a `Put` does not look at the data. -/
theorem sound_put_iff (hs : isAbs s.baseDir) {c : Chunk} {new : Bool}
    (heff : PutEffect s c fs fs') (hres : PutResult s c fs fs' (.ok new)) (hsound : s.Sound fs) :
    s.Sound fs' ↔ (¬ s.Holds fs c.hash → (sum256 c.data).bytes = c.hash) := by
  cases new with
  | false => exact iff_of_true (hres.1 ▸ hsound) fun hv => (hv hres.2).elim
  | true =>
    obtain ⟨hvac, m, hm⟩ := hres
    exact ⟨fun hsound' _ => hsound' c.hash c.data (blob_of_view hm),
      fun hc => heff.sound hs hsound (hc (not_not.2 hvac))⟩

/-- **A store stays sound under puts** just when each chunk it did not hold has the hash it is put
under; what is stored is never written again. -/
theorem Stored.sound_iff (hs : isAbs s.baseDir) {chunks : List Chunk} (h : Stored s fs chunks fs')
    (hsound : s.Sound fs) : s.Sound fs' ↔ s.Vouched fs chunks := by
  induction h with
  | nil => exact iff_of_true hsound vouched_nil
  | @cons _ fs₁ _ _ _ _ heff hres hrest ih =>
    rw [vouched_cons hs heff hres, ← sound_put_iff hs heff hres hsound]
    by_cases hsound₁ : s.Sound fs₁
    · rw [ih hsound₁, and_iff_right hsound₁]
    · exact iff_of_false (hrest.not_sound hs hsound₁) fun h => hsound₁ h.1

/-- What the store holds after the puts. -/
theorem Stored.holds_iff (hs : isAbs s.baseDir) {chunks : List Chunk} (h : Stored s fs chunks fs')
    (hash : Bytes) :
    s.Holds fs' hash ↔ s.Holds fs hash ∨ ∃ c ∈ chunks, s.place hash <+: s.place c.hash := by
  induction h with
  | nil => simp
  | cons heff hres _ ih => rw [ih, holds_put hs heff hres, or_assoc, List.exists_mem_cons_iff]

theorem Stored.clear (hs : isAbs s.baseDir) {chunks : List Chunk} (h : Stored s fs chunks fs')
    (hlen : ∀ c ∈ chunks, 2 ≤ c.hash.length) (hclear : s.Clear fs) : s.Clear fs' := by
  induction h with
  | nil => exact hclear
  | cons heff _ _ ih =>
    rw [List.forall_mem_cons] at hlen
    exact ih hlen.2 (heff.clear hs hlen.1 hclear)

theorem Stored.outside (hs : isAbs s.baseDir) {chunks : List Chunk} (h : Stored s fs chunks fs')
    (hbase : s.Holds fs []) {q : List Bytes} (hq : ¬ resolve s.baseDir <+: q) :
    Os.view fs' q = Os.view fs q := by
  induction h with
  | nil => rfl
  | cons heff _ _ ih => rw [ih (heff.holds_mono hs hbase), heff.outside hs hbase hq]

/-- What is held is not touched. -/
theorem Stored.blob_of_holds (hs : isAbs s.baseDir) {chunks : List Chunk}
    (h : Stored s fs chunks fs') {hash : Bytes} (hh : s.Holds fs hash) :
    s.blob fs' hash = s.blob fs hash := by
  induction h with
  | nil => rfl
  | cons heff _ _ ih =>
    rw [ih (heff.holds_mono hs hh)]
    rcases heff.view_place hs hash with heq | ⟨hvac, -⟩
    · exact Os.content_of_view heq
    · exact (hh hvac).elim

theorem Stored.blob_mono (hs : isAbs s.baseDir) {chunks : List Chunk}
    (h : Stored s fs chunks fs') {hash c : Bytes} (hb : s.blob fs hash = some c) :
    s.blob fs' hash = some c := by
  induction h with
  | nil => exact hb
  | cons heff _ _ ih => exact ih (heff.blob_mono hs hb)

/-- What was not held and is put is then there, as it was put first. -/
theorem Stored.blob_new (hs : isAbs s.baseDir) {chunks : List Chunk} (h : Stored s fs chunks fs')
    {hash : Bytes} (hlen : 2 ≤ hash.length) (hh : ¬ s.Holds fs hash)
    (hput : ∃ c ∈ chunks, c.hash = hash) :
    ∃ c ∈ chunks, c.hash = hash ∧ s.blob fs' hash = some c.data := by
  induction h with
  | nil => simp at hput
  | @cons fs fs₁ fs₂ c cs new heff hres hrest ih =>
    by_cases hc : c.hash = hash
    · subst hc
      refine ⟨c, List.mem_cons_self, rfl, hrest.blob_mono hs ?_⟩
      cases new with
      | false => exact (hh hres.2).elim
      | true =>
        obtain ⟨-, m, hm⟩ := hres
        exact blob_of_view hm
    · have hh₁ : ¬ s.Holds fs₁ hash := by
        rw [holds_put hs heff hres, not_or]
        exact ⟨hh, fun hpre => hc (s.eq_of_place_below hlen hpre).symm⟩
      obtain ⟨d, hd, hdh, hblob⟩ := ih hh₁ (by simpa [hc] using hput)
      exact ⟨d, List.mem_cons_of_mem c hd, hdh, hblob⟩

theorem Stored.append {fs₁ : Os.Fs} {chunks more : List Chunk} (h : Stored s fs chunks fs₁)
    (h' : Stored s fs₁ more fs') : Stored s fs (chunks ++ more) fs' := by
  induction h with
  | nil => exact h'
  | cons heff hres _ ih => exact .cons heff hres (ih h')

/-- `fs'` is what putting the chunks in turn made of `fs` when one of the `Put`s failed. -/
inductive Cut (s : BlobStore) : Os.Fs → List Chunk → Os.Fs → Prop
  | fails {fs fs' : Os.Fs} {c : Chunk} {cs : List Chunk} {e : Err} (heff : PutEffect s c fs fs')
      (hres : PutResult s c fs fs' (.error e)) : Cut s fs (c :: cs) fs'
  | after {fs fs₁ fs₂ : Os.Fs} {c : Chunk} {cs : List Chunk} {new : Bool}
      (heff : PutEffect s c fs fs₁) (hres : PutResult s c fs fs₁ (.ok new))
      (hrest : Cut s fs₁ cs fs₂) : Cut s fs (c :: cs) fs₂

theorem Cut.append {chunks : List Chunk} (h : Cut s fs chunks fs') (more : List Chunk) :
    Cut s fs (chunks ++ more) fs' := by
  induction h with
  | fails heff hres => exact .fails heff hres
  | after heff hres _ ih => exact .after heff hres ih

theorem Stored.cut {fs₁ : Os.Fs} {chunks more : List Chunk} (h : Stored s fs chunks fs₁)
    (h' : Cut s fs₁ more fs') : Cut s fs (chunks ++ more) fs' := by
  induction h with
  | nil => exact h'
  | cons heff hres _ ih => exact .after heff hres (ih h')

theorem Cut.not_sound (hs : isAbs s.baseDir) {chunks : List Chunk} (h : Cut s fs chunks fs')
    (hn : ¬ s.Sound fs) : ¬ s.Sound fs' := by
  induction h with
  | fails heff _ => exact heff.not_sound hs hn
  | after heff _ _ ih => exact ih (heff.not_sound hs hn)

/-- In a sound store a `Put` fails only after a chunk with another hash was stored. -/
theorem Cut.sound_iff (hs : isAbs s.baseDir) {chunks : List Chunk} (h : Cut s fs chunks fs')
    (hsound : s.Sound fs) (hr : s.Ready fs) : s.Sound fs' ↔ s.Vouched fs chunks := by
  induction h with
  | fails _ hres => exact (put_succeeds hsound.clear hr hres).elim
  | @after _ fs₁ _ _ _ _ heff hres hrest ih =>
    rw [vouched_cons hs heff hres, ← sound_put_iff hs heff hres hsound]
    by_cases hsound₁ : s.Sound fs₁
    · rw [ih hsound₁ (heff.ready hs hr), and_iff_right hsound₁]
    · exact iff_of_false (hrest.not_sound hs hsound₁) fun h => hsound₁ h.1

end FileSync.Cas.BlobStore
