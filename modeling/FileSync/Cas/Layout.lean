import FileSync.Cas.WriteOnce

/-!
# Cas — the layout of a store

What calls with hashes of 32 bytes make of the store's directory (`internal/cas/store.go`): a
subdirectory for each first byte that was put, and the chunks in them.

* `Effect` says once what each of the five operations does to the file system, and `effect_perform`
  that it does so; what a store keeps over its calls is proved from it.
* `Tidy`: nothing is in the way of a `Put`, and only hashes of at most one byte lead to directories.
* `has_iff_get_iff`: `Has` and `Get`, which take a hash of any length, agree after every sequence of
  calls exactly if the hash does not lead to a directory: the empty one always does, and one of a
  single byte does once a hash that starts with it was put.
* `Grown s fs fs'`: the store has what it had, and nothing outside of it has changed.
-/

open Sha256 Filepath

namespace FileSync.Cas.BlobStore

variable {s : BlobStore} {fs fs' : Os.Fs}

/-! ### What a call does -/

/-- Nothing is in the way of a `Put`, and a place below a subdirectory has no directory. -/
structure Tidy (s : BlobStore) (fs : Os.Fs) : Prop where
  ready : s.Ready fs
  clear : s.Clear fs
  leaf : ∀ hash : Bytes, 2 ≤ hash.length → ∀ m, Os.view fs (s.place hash) ≠ some (.dir m)

/-- What a call makes of the file system. -/
def Effect (s : BlobStore) (fs fs' : Os.Fs) : Call → Prop
  | .put chunk => PutEffect s chunk fs fs' ∧ ∃ new, PutResult s chunk fs fs' (.ok new)
  | .delete hash => Os.view fs' = Function.update (Os.view fs) (s.place hash) none
  | .get _ | .has _ | .verify _ => fs' = fs

theorem PutEffect.tidy (hs : isAbs s.baseDir) {chunk : Chunk} (h : PutEffect s chunk fs fs')
    (hlen : 2 ≤ chunk.hash.length) (ht : s.Tidy fs) : s.Tidy fs' := by
  refine ⟨h.ready hs ht.ready, h.clear hs hlen ht.clear, fun hash hlen' m hm => ?_⟩
  rcases h.view_place hs hash with heq | ⟨-, ⟨-, m', hm'⟩ | ⟨hpre, -⟩⟩
  · exact ht.leaf hash hlen' m (heq ▸ hm)
  · exact nomatch hm'.symm.trans hm
  · -- A directory is made only above the place of the chunk.
    obtain rfl := s.eq_of_place_below hlen' (hpre.trans (List.dropLast_prefix _))
    rcases h.there with heq | ⟨-, m', hm'⟩
    · exact ht.leaf chunk.hash hlen' m (heq ▸ hm)
    · exact nomatch hm'.symm.trans hm

theorem tidy_erase (hs : isAbs s.baseDir) {hash : Bytes} (hlen : 2 ≤ hash.length)
    (hv : Os.view fs' = Function.update (Os.view fs) (s.place hash) none) (ht : s.Tidy fs) :
    s.Tidy fs' := by
  obtain ⟨hready, hclear⟩ := ready_and_clear_erase hs hlen hv ht.ready ht.clear
  refine ⟨hready, hclear, fun x hx m => ?_⟩
  rw [hv]
  by_cases heq : s.place x = s.place hash
  · simp [heq]
  · rw [Function.update_of_ne heq]
    exact ht.leaf x hx m

theorem Effect.tidy (hs : isAbs s.baseDir) {c : Call} (hlen : c.hash.length = 32)
    (h : s.Effect fs fs' c) (ht : s.Tidy fs) : s.Tidy fs' := by
  cases c with
  | put chunk => exact h.1.tidy hs (by rw [Call.hash] at hlen; omega) ht
  | delete hash => exact tidy_erase hs (by rw [Call.hash] at hlen; omega) h ht
  | get | has | verify => exact h ▸ ht

/-- A vacant place is not found, and what is at one of 32 bytes is a file. -/
theorem Tidy.stat (ht : s.Tidy fs) {hash : Bytes} (hlen : hash.length = 32) :
    (Os.view fs (s.place hash) = none ∧ Os.stat fs (s.place hash) = .error .notExist) ∨
      ∃ data mode, Os.view fs (s.place hash) = some (.file mode data) ∧
        Os.stat fs (s.place hash) = .ok (.file mode data) := by
  rcases hv : Os.view fs (s.place hash) with _ | ⟨mode, data⟩ | m
  · exact .inl ⟨rfl, stat_of_vacant ht.clear ht.ready.base (ne_nil_of_length hlen) hv⟩
  · exact .inr ⟨data, mode, rfl, Os.stat_of_view_file hv⟩
  · exact (ht.leaf hash (by omega) m hv).elim

section Runs
variable {ν : Type} {peer : Proto.Request → ν → Proto.Exchange × ν} {w : World ν}

/-- **What a call does** to a tidy store. -/
theorem effect_perform (hs : isAbs s.baseDir) (ht : s.Tidy w.fs) {c : Call}
    (hlen : c.hash.length = 32) :
    s.Effect w.fs (Prog.run (handle peer) (s.perform c) w).2.fs c := by
  suffices hwp : Prog.wp (handle peer) (fun _ => True) (s.perform c)
      (fun _ w' => s.Effect w.fs w'.fs c) w from Prog.wp_run hwp
  cases c with
  | put chunk =>
    refine Prog.wp_bind.2 (Prog.wp_mono (put_spec hs ht.ready.base fun _ _ => trivial) ?_)
    rintro (e | new) w' ⟨fs', rfl, heff, hr⟩
    · exact (put_succeeds ht.clear ht.ready hr).elim
    · exact ⟨heff, new, hr⟩
  | get hash =>
    exact Prog.wp_bind.2 (wp_get hs trivial (fun _ _ => rfl) fun _ _ => rfl)
  | has hash => exact Prog.wp_bind.2 (wp_has hs trivial rfl)
  | delete hash =>
    refine Prog.wp_bind.2 (wp_change (fun e he => ?_) fun fs' hfs' => ?_)
    · simp only [Change.apply, resolve_chunkPath hs, Os.remove] at he
      rcases ht.stat hlen with ⟨hv, hst⟩ | ⟨data, mode, hv, hst⟩ <;>
        simp only [Call.hash] at hv hst <;> rw [hst] at he
      · obtain rfl := Except.error.inj he
        have hsame : Os.view w.fs = Function.update (Os.view w.fs) (s.place hash) none := by
          rw [← hv, Function.update_eq_self]
        exact ⟨trivial, hsame⟩
      · cases he
    · simp only [Change.apply, resolve_chunkPath hs] at hfs'
      exact ⟨trivial, Os.remove_ok hfs'⟩
  | verify hash => exact Prog.wp_bind.2 (wp_verify hs trivial (fun _ _ _ => rfl) fun _ _ => rfl)

/-- A store that was just created. -/
theorem tidy_of_empty {mode : UInt32} (hs : isAbs s.baseDir)
    (h : Os.reach fs (resolve s.baseDir) = some (.dir mode [])) : s.Tidy fs := by
  obtain ⟨hready, hsound⟩ := ready_and_sound_of_empty hs h
  refine ⟨hready, hsound.clear, fun hash hlen m hm => ?_⟩
  have hne : hash ≠ [] := List.ne_nil_of_length_pos (by omega)
  exact not_holds_of_empty h hne (by simp [Holds, hm])

/-! ### `Has` and `Get` -/

theorem run_has (hs : isAbs s.baseDir) (hash : Bytes) :
    (Prog.run (handle peer) (s.has hash) w).1 = decide (s.Holds w.fs hash) :=
  Prog.wp_run (wp_has (I := fun _ => True) (Q := fun r _ => r = decide (s.Holds w.fs hash)) hs
    trivial rfl)

theorem run_get (hs : isAbs s.baseDir) (hash : Bytes) :
    (∃ c, (Prog.run (handle peer) (s.get hash) w).1 = .ok c) ↔
      ∃ data, s.blob w.fs hash = some data := by
  refine Prog.wp_run (wp_get (I := fun _ => True) (Q := fun r _ => (∃ c, r = .ok c) ↔ _) hs
    trivial ?_ ?_)
  · exact fun data hdata => iff_of_true ⟨_, rfl⟩ ⟨data, hdata⟩
  · exact fun hnone e => iff_of_false nofun (by simp [hnone])

/-- They differ on a directory, which is there and is not read. -/
theorem has_iff_get_of_view (hs : isAbs s.baseDir) (hash : Bytes) :
    ((Prog.run (handle peer) (s.has hash) w).1 = true ↔
        ∃ c, (Prog.run (handle peer) (s.get hash) w).1 = .ok c) ↔
      ∀ m, Os.view w.fs (s.place hash) ≠ some (.dir m) := by
  rw [run_has hs, run_get hs, decide_eq_true_iff, Holds]
  rcases hv : Os.view w.fs (s.place hash) with _ | ⟨mode, data⟩ | m
  · simp [blob, Os.content, hv]
  · simp [blob_of_view hv]
  · simp [blob, Os.content, hv]

theorem place_byte_prefix {hash : Bytes} (hlen : 2 ≤ hash.length) (x : UInt8) :
    s.place [x] <+: s.place hash ↔ [x] <+: hash := by
  match hash, hlen with
  | a :: b :: r, _ =>
    rw [place, place, List.prefix_append_right_inj, loc, loc, List.cons_prefix_cons,
      List.cons_prefix_cons, Hex.encode_injective.eq_iff, List.singleton_inj]
    simp

/-- A call makes the subdirectory of the hash that it puts. -/
theorem Effect.holds_byte (hs : isAbs s.baseDir) {c : Call} (hlen : c.hash.length = 32)
    (h : s.Effect fs fs' c) (x : UInt8) :
    s.Holds fs' [x] ↔ s.Holds fs [x] ∨ ∃ chunk, c = .put chunk ∧ [x] <+: chunk.hash := by
  cases c with
  | put chunk =>
    obtain ⟨heff, new, hres⟩ := h
    rw [Call.hash] at hlen
    rw [holds_put hs heff hres, place_byte_prefix (by omega)]
    simp
  | delete hash =>
    have hne : s.place [x] ≠ s.place hash := by
      intro heq
      rw [Call.hash, ← s.place_injective heq] at hlen
      cases hlen
    rw [Effect] at h
    simp [Holds, h, hne]
  | get | has | verify => simp [show fs' = fs from h]

/-- The subdirectories are those of the hashes that were put. -/
def Sharded (s : BlobStore) (calls : List Call) (fs : Os.Fs) : Prop :=
  s.Tidy fs ∧ ∀ x : UInt8, s.Holds fs [x] ↔ ∃ chunk, Call.put chunk ∈ calls ∧ [x] <+: chunk.hash

theorem sharded_run (hs : isAbs s.baseDir) {mode : UInt32}
    (hempty : Os.reach w.fs (resolve s.baseDir) = some (.dir mode [])) {calls : List Call}
    (hlen : ∀ c ∈ calls, c.hash.length = 32) :
    s.Sharded calls (Prog.run (handle peer) (Prog.sequence s.perform calls) w).2.fs := by
  have hstart : s.Sharded [] w.fs := by
    refine ⟨tidy_of_empty hs hempty, fun x => ?_⟩
    exact iff_of_false (not_holds_of_empty hempty (by simp)) (by simp)
  refine Prog.run_sequence_history (J := fun calls (w : World ν) => s.Sharded calls w.fs)
    (fun done c w hlen hdone => ?_) hlen hstart
  have heff : s.Effect w.fs (Prog.run (handle peer) (s.perform c) w).2.fs c :=
    effect_perform hs hdone.1 hlen
  refine ⟨heff.tidy hs hlen hdone.1, fun x => ?_⟩
  rw [heff.holds_byte hs hlen, hdone.2]
  simp [or_and_right, exists_or, eq_comm]

end Runs

/-- **`Has` agrees with `Get`** after any calls with hashes of 32 bytes on a store that was empty,
for a hash of any length, unless it is empty or the first byte of a hash that was put. -/
theorem has_iff_get_iff {ν : Type} {peer : Proto.Request → ν → Proto.Exchange × ν}
    (hs : isAbs s.baseDir) {w : World ν} {mode : UInt32}
    (hempty : Os.reach w.fs (resolve s.baseDir) = some (.dir mode [])) {calls : List Call}
    (hlen : ∀ c ∈ calls, c.hash.length = 32) (hash : Bytes) :
    let w' := (Prog.run (handle peer) (Prog.sequence s.perform calls) w).2
    ((Prog.run (handle peer) (s.has hash) w').1 = true ↔
        ∃ c, (Prog.run (handle peer) (s.get hash) w').1 = .ok c) ↔
      hash ≠ [] ∧
        ∀ chunk, Call.put chunk ∈ calls → hash.length = 1 → ¬ hash <+: chunk.hash := by
  intro w'
  obtain ⟨htidy, hdirs⟩ : s.Sharded calls w'.fs := sharded_run hs hempty hlen
  rw [has_iff_get_of_view hs]
  match hash with
  | [] =>
    refine iff_of_false (fun h => ?_) (by simp)
    rcases hv : Os.view w'.fs (s.place []) with _ | ⟨mode, data⟩ | m
    · exact htidy.ready.base hv
    · exact htidy.clear [] (by simp) mode data hv
    · exact h m hv
  | [x] =>
    have hdir : (∀ m, Os.view w'.fs (s.place [x]) ≠ some (.dir m)) ↔ ¬ s.Holds w'.fs [x] := by
      rw [Holds, not_not]
      rcases hv : Os.view w'.fs (s.place [x]) with _ | ⟨mode, data⟩ | m
      · simp
      · exact (htidy.clear [x] (by simp) mode data hv).elim
      · simp
    rw [hdir, hdirs]
    simp
  | x :: y :: r => exact iff_of_true (htidy.leaf _ (by simp)) (by simp)

/-- The store `/s` after a chunk was put in it. -/
def onePut : World (List Proto.Exchange) :=
  (Prog.run (handle scripted)
    (Prog.sequence (perform ⟨[47, 115]⟩) [.put ⟨List.replicate 32 7, 1, [9]⟩]) emptyStore).2

theorem has_iff_get_iff_other_byte :
    (Prog.run (handle scripted) (has ⟨[47, 115]⟩ [8]) onePut).1 = true ↔
      ∃ c, (Prog.run (handle scripted) (get ⟨[47, 115]⟩ [8]) onePut).1 = .ok c := by
  refine (has_iff_get_iff (by decide) reach_emptyStore (by simp [Call.hash]) [8]).2 ⟨by simp, ?_⟩
  intro chunk hput _ hpre
  obtain rfl := Call.put.inj (List.mem_singleton.1 hput)
  revert hpre
  decide

/-- The first byte of the hash that was put leads to the chunk's subdirectory. -/
theorem first_byte_has_no_chunk :
    (Prog.run (handle scripted) (has ⟨[47, 115]⟩ [7]) onePut).1 = true ∧
      (Prog.run (handle scripted) (get ⟨[47, 115]⟩ [7]) onePut).1 =
        .error (.wrap "reading chunk data" (.errno .isDir)) := by
  refine ⟨?_, ?_⟩
  · decide +kernel
  · decide +kernel

/-! ### A store that grows -/

/-- What a tidy store holds can be read. -/
theorem Tidy.blob_of_holds (ht : s.Tidy fs) {hash : Bytes} (hlen : 2 ≤ hash.length)
    (h : s.Holds fs hash) : ∃ c, s.blob fs hash = some c := by
  obtain ⟨k, hk⟩ := Option.ne_none_iff_exists'.1 h
  cases k with
  | file m c => exact ⟨c, blob_of_view hk⟩
  | dir m => exact (ht.leaf hash hlen m hk).elim

/-- The store has what it had and is as tidy and sound as it was; nothing outside of it has
changed. -/
structure Grown (s : BlobStore) (fs fs' : Os.Fs) : Prop where
  tidy : s.Tidy fs → s.Tidy fs'
  sound : s.Sound fs → s.Sound fs'
  blob : ∀ {hash c}, s.blob fs hash = some c → s.blob fs' hash = some c
  holds : ∀ {hash}, s.Holds fs hash → s.Holds fs' hash
  outside : ∀ {q}, ¬ resolve s.baseDir <+: q → Os.view fs' q = Os.view fs q

namespace Grown

theorem refl (s : BlobStore) (fs : Os.Fs) : s.Grown fs fs := ⟨id, id, id, id, fun _ => rfl⟩

theorem trans {fs₁ fs₂ : Os.Fs} (h : s.Grown fs fs₁) (h' : s.Grown fs₁ fs₂) : s.Grown fs fs₂ where
  tidy ht := h'.tidy (h.tidy ht)
  sound hs := h'.sound (h.sound hs)
  blob hb := h'.blob (h.blob hb)
  holds hh := h'.holds (h.holds hh)
  outside hq := (h'.outside hq).trans (h.outside hq)

end Grown

theorem PutEffect.grown (hs : isAbs s.baseDir) {chunk : Chunk} (h : PutEffect s chunk fs fs')
    (hbase : s.Holds fs []) (hdata : (sum256 chunk.data).bytes = chunk.hash) :
    s.Grown fs fs' where
  tidy := h.tidy hs (by rw [← hdata, Digest.length_bytes]; decide)
  sound hsound := h.sound hs hsound hdata
  blob := h.blob_mono hs
  holds := h.holds_mono hs
  outside := h.outside hs hbase

theorem Stored.grown (hs : isAbs s.baseDir) {chunks : List Chunk} (h : Stored s fs chunks fs')
    (hbase : s.Holds fs []) (hdata : ∀ c ∈ chunks, (sum256 c.data).bytes = c.hash) :
    s.Grown fs fs' := by
  induction h with
  | nil => exact .refl s _
  | cons heff hres hrest ih =>
    rw [List.forall_mem_cons] at hdata
    have hfirst := heff.grown hs hbase hdata.1
    exact hfirst.trans (ih (hfirst.holds hbase) hdata.2)

end FileSync.Cas.BlobStore
