import FileSync.Cas.Faults
import FileSync.Cli.Mirror

/-!
# Cli — a sync that is interrupted

The sync command of `cmd/p2p-file-sync/main.go` on a disk that fails, with a peer that sends what it
likes for chunks, in a process that may stop after any call.  A change may fail having done a part
of its work (`Torn`); reads may fail or return anything; a request may fail.

* `Rough root`: the outcomes of a call, of peers whose manifest is `root`.
* `wpAll_syncCmd`: after every call of such a sync the directory can receive the manifest.
* `sync_after_faults`: however often a sync was interrupted, one that is not completes.
-/

open Sha256 Filepath

namespace FileSync.Cli

open Proto (ManifestNode Request Exchange)
open Cas (BlobStore Chunk Step newBlobStore)
open Cas.BlobStore (Torn Faulty)
open Merkle (Visible buildNode buildFromFS)
open Os (IsDir)

variable {ν : Type}

/-- What may come of a call. -/
def Rough (root : ManifestNode) : Prog.Outcomes Op Op.Resp (World ν)
  | .stat path, w, r, w' => r = Os.stat w.fs (resolve path) ∧ w' = w
  | .openRead _, w, _, w' => w' = w
  | .readAll _, w, _, w' => w' = w
  | .readTree path, w, r, w' => (r = Os.stat w.fs (resolve path) ∨ ∃ e, r = .error e) ∧ w' = w
  | .walkTree path, w, r, w' => (r = Os.stat w.fs (resolve path) ∨ ∃ e, r = .error e) ∧ w' = w
  | .change c, w, r, w' => ∃ fs', Faulty w.umask (.change c) w.fs r fs' ∧ w' = { w with fs := fs' }
  | .exchange req, w, r, w' =>
    (req = .manifest → ∀ m, manifestReply r = .ok m → m.root = some root) ∧
      ∃ n, w' = { w with net := n }

section Rough

variable {root : ManifestNode} {α : Type} {w : World ν}

/-! ### Storing -/

/-- Wherever `p` is cut, so can `p'` be. -/
def CutLike (root : ManifestNode) (p : Cmd α) (p' : Prog Step Step.Resp α) (w : World ν) : Prop :=
  ∀ w', Prog.Passes (Rough root) p w w' →
    ∃ fs', w' = { w with fs := fs' } ∧ Prog.Passes (Faulty w.umask) p' w.fs fs'

theorem cutLike_ret (a : α) : CutLike root (.ret a) (.ret a) w := by
  rintro _ ⟨⟩
  exact ⟨w.fs, rfl, .here⟩

theorem cutLike_change {c : Change} {k : Except Errno Unit → Cmd α}
    {k' : Except Errno Unit → Prog Step Step.Resp α}
    (h : ∀ r fs, CutLike root (k r) (k' r) { w with fs := fs }) :
    CutLike root (Sys.change c >>= k) (Step.changes c >>= k') w := by
  intro w' hpass
  rcases Prog.passes_call.1 hpass with rfl | ⟨r, _, ⟨fs₁, hcall, rfl⟩, hrest⟩
  · exact ⟨w'.fs, rfl, .here⟩
  · obtain ⟨fs', rfl, hpass'⟩ := h r fs₁ w' hrest
    exact ⟨fs', rfl, .next hcall hpass'⟩

theorem cutLike_stat {path : Bytes} {k : Except Errno Os.Entry → Cmd α}
    {k' : Except Errno Os.Entry → Prog Step Step.Resp α}
    (h : CutLike root (k (Os.stat w.fs (resolve path))) (k' (Os.stat w.fs (resolve path))) w) :
    CutLike root (Sys.stat path >>= k) (Step.stats path >>= k') w := by
  intro w' hpass
  rcases Prog.passes_call.1 hpass with rfl | ⟨_, _, ⟨rfl, rfl⟩, hrest⟩
  · exact ⟨w'.fs, rfl, .here⟩
  · obtain ⟨fs', rfl, hpass'⟩ := h w' hrest
    exact ⟨fs', rfl, .next ⟨rfl, rfl⟩ hpass'⟩

/-- A file is closed without an error. -/
theorem cutLike_close {p : Cmd α} {path : Bytes} {k' : Except Errno Unit → Prog Step Step.Resp α}
    (h : CutLike root p (k' (.ok ())) w) : CutLike root p (Step.closes path >>= k') w := by
  intro w' hpass
  obtain ⟨fs', rfl, hpass'⟩ := h w' hpass
  exact ⟨fs', rfl, Prog.passes_call.2 (Or.inr ⟨.ok (), w.fs, rfl, hpass'⟩)⟩

theorem cutLike_abandon {tmpPath : Bytes} {context : String} {e : Errno} :
    CutLike root (do
      let _ ← Sys.remove tmpPath
      return (.error (.wrap context (.errno e)) : Except Err Bool))
      (BlobStore.abandon tmpPath context e) w :=
  cutLike_change fun _ _ => cutLike_ret _

theorem cutLike_rename {path tmpPath : Bytes} :
    CutLike root (do
      match ← Sys.rename tmpPath path with
      | .error e =>
        let _ ← Sys.remove tmpPath
        return .error (.wrap "renaming chunk file" (.errno e))
      | .ok () => return .ok true)
      (do
        match ← Step.changes (.rename tmpPath path) with
        | .error e => BlobStore.abandon tmpPath "renaming chunk file" e
        | .ok () => return .ok true) w := by
  refine cutLike_change fun r fs => ?_
  cases r with
  | error e => exact cutLike_abandon
  | ok _ => exact cutLike_ret _

/-- The one write of the data, by the buffered writer or when it is flushed. -/
theorem cutLike_writeSteps {path tmpPath data : Bytes} :
    CutLike root (do
      match ← BlobStore.writeData tmpPath data with
      | .error e =>
        let _ ← Sys.remove tmpPath
        return .error e
      | .ok () =>
      match ← Sys.rename tmpPath path with
      | .error e =>
        let _ ← Sys.remove tmpPath
        return .error (.wrap "renaming chunk file" (.errno e))
      | .ok () => return .ok true)
      (BlobStore.writeSteps path tmpPath data) w := by
  by_cases hnil : data = []
  · subst hnil
    exact cutLike_close cutLike_rename
  by_cases hbig : Cas.bufferSize < data.length
  · rw [BlobStore.writeSteps, Step.bufWrite, if_pos hbig, BlobStore.writeData, if_neg hnil,
      Prog.bind_assoc]
    refine cutLike_change fun r fs => ?_
    cases r with
    | error e =>
      rw [if_pos hbig]
      exact cutLike_close cutLike_abandon
    | ok _ =>
      rw [Step.bufFlush, if_pos (show Cas.bufferSize < data.length ∨ data = [] from .inl hbig)]
      exact cutLike_close cutLike_rename
  · rw [BlobStore.writeSteps, Step.bufWrite, if_neg hbig, BlobStore.writeData, if_neg hnil,
      Prog.bind_assoc, pure_bind, Step.bufFlush, if_neg (not_or.2 ⟨hbig, hnil⟩)]
    refine cutLike_change fun r fs => ?_
    cases r with
    | error e =>
      rw [if_neg hbig]
      exact cutLike_close cutLike_abandon
    | ok _ => exact cutLike_close cutLike_rename

/-- **`Put` is cut as its steps are.** -/
theorem cutLike_put (s : BlobStore) (chunk : Chunk) :
    CutLike root (s.put chunk) (s.putSteps chunk) w := by
  refine cutLike_stat ?_
  cases Os.stat w.fs (resolve (s.chunkPath chunk.hashHex)) with
  | ok e => exact cutLike_ret _
  | error e =>
    refine cutLike_change fun r fs => ?_
    cases r with
    | error e => exact cutLike_ret _
    | ok _ =>
      refine cutLike_change fun r fs => ?_
      cases r with
      | error e => exact cutLike_ret _
      | ok _ => exact cutLike_writeSteps

/-- A `Put` that is interrupted lets the store grow. -/
theorem wpAll_put {s : BlobStore} (hs : isAbs s.baseDir) {chunk : Chunk}
    (hdata : (sum256 chunk.data).bytes = chunk.hash) (hbase : s.Holds w.fs []) :
    Prog.wpAll (Rough root) (fun w' => s.Grown w.fs w'.fs) (s.put chunk)
      (fun _ w' => s.Grown w.fs w'.fs) w := by
  refine Prog.wpAll_of_passes fun w' hpass => ?_
  obtain ⟨fs', rfl, hsteps⟩ := cutLike_put s chunk w' hpass
  refine (BlobStore.putEffect_passes hs ?_ hsteps).grown hs hbase hdata
  rw [← hdata]
  exact List.ne_nil_of_length_pos (by rw [Digest.length_bytes]; decide)

/-- Only changes change the files. -/
theorem fs_of_rough {o : Op} (ho : ∀ c, o ≠ .change c) {r : o.Resp} {w' : World ν}
    (hcall : Rough root o w r w') : w'.fs = w.fs := by
  cases o with
  | change c => exact (ho c rfl).elim
  | stat | readTree | walkTree => rw [hcall.2]
  | openRead | readAll => rw [show w' = w from hcall]
  | exchange =>
    obtain ⟨-, n, rfl⟩ := hcall
    rfl

/-- **The store grows**, whatever comes of the calls. -/
theorem Stocks.wpAll {s : BlobStore} {p : Cmd α} (h : Stocks s p) (hs : isAbs s.baseDir)
    (hbase : s.Holds w.fs []) :
    Prog.wpAll (Rough root) (fun w' => s.Grown w.fs w'.fs) p
      (fun _ w' => s.Grown w.fs w'.fs) w := by
  induction h generalizing w with
  | ret a => exact .refl s w.fs
  | bind _ _ ihp ihf =>
    refine Prog.wpAll_bind.2 (Prog.wpAll_mono (ihp hbase) (fun _ hg => hg) fun a w' hg => ?_)
    exact Prog.wpAll_mono (ihf a (hg.holds hbase)) (fun _ hg' => hg.trans hg')
      fun _ _ hg' => hg.trans hg'
  | @query o ho =>
    intro r w' hcall
    have hg : s.Grown w.fs w'.fs := fs_of_rough ho hcall ▸ .refl s w.fs
    exact ⟨hg, hg⟩
  | put hdata => exact wpAll_put hs hdata hbase

end Rough

/-! ### Building and removing -/

/-- The changes that follow the downloads: the manifest is built, and what it lacks is removed. -/
def Settling (absDir : Bytes) (root : ManifestNode) (c : Change) : Prop :=
  Building absDir root c ∨ ∃ path, c = .remove (join [absDir, path]) ∧ Absent absDir root path

section Settling

variable {absDir : Bytes} {root : ManifestNode} {fs fs₁ fs₂ : Os.Fs} {umask : UInt32}
  {c c' : Change}

/-- A directory that is there is not made again, nor those above it. -/
theorem mkdirAll_above {fs fs' : Os.Fs} {p q : List Bytes} (h : IsDir fs p) (hq : q <+: p)
    {mode : UInt32} (hok : Os.mkdirAll fs q mode = .ok fs') : fs' = fs := by
  obtain ⟨m, hm⟩ := isDir_above h hq
  rw [Os.mkdirAll_of_dir hm] at hok
  exact (Except.ok.inj hok).symm

/-- A part of what is built. -/
theorem Site.part (habs : isAbs absDir) (hroot : root.Orderly)
    (hvis : ∀ s n, root.At s n → Visible s) (hc : Building absDir root c)
    (hpart : Cas.BlobStore.Part c c') (hok : c'.apply fs₁ umask = .ok fs₂)
    (h : Site absDir root fs fs₁) : Site absDir root fs fs₂ := by
  cases hpart with
  | all => exact h.apply habs hroot hvis hc hok
  | @bytes path data data' _ =>
    have hc' : Building absDir root (.write path data') := hc
    exact h.apply habs hroot hvis hc' hok
  | dirs hpre =>
    obtain ⟨s, n, hn, hdir, hres⟩ := hc
    rw [hres] at hpre
    rcases List.prefix_or_prefix_of_prefix hpre (List.prefix_append _ s) with habove | ⟨t, ht⟩
    · rw [mkdirAll_above h.dir habove hok]
      exact h
    · rw [← ht, List.prefix_append_right_inj] at hpre
      obtain ⟨b, r, hb, hr, -⟩ := hn.above hpre
      refine h.apply habs hroot hvis (c := .mkdirAll _ _) ⟨t, b, hb, ?_, ht.symm⟩ hok
      by_cases heq : t = s
      · subst heq
        exact hroot.at_unique hb hn ▸ hdir
      · exact isDir_of_below hroot hb hn hpre heq

theorem Site.faulty (habs : isAbs absDir) (hroot : root.Orderly)
    (hvis : ∀ s n, root.At s n → Visible s) (hc : Settling absDir root c)
    {r : Except Errno Unit} (hcall : Faulty umask (.change c) fs₁ r fs₂)
    (h : Site absDir root fs fs₁) : Site absDir root fs fs₂ := by
  have htorn : Torn umask c fs₁ fs₂ := by
    rcases hcall with ⟨-, hok⟩ | ⟨-, htorn⟩
    · exact Or.inr ⟨c, .all c, hok⟩
    · exact htorn
  rcases htorn with rfl | ⟨c', hpart, hok⟩
  · exact h
  rcases hc with hc | ⟨path, rfl, s, hs, hres, hno⟩
  · exact h.part habs hroot hvis hc hpart hok
  · cases hpart with
    | all => exact h.remove habs hs hno (hres ▸ Os.remove_ok hok)

theorem Site.rough (habs : isAbs absDir) (hroot : root.Orderly)
    (hvis : ∀ s n, root.At s n → Visible s) {o : Op} (ho : Changes (Settling absDir root) o)
    {w w' : World ν} {r : o.Resp} (hcall : Rough root o w r w') (h : Site absDir root fs w.fs) :
    Site absDir root fs w'.fs := by
  cases o with
  | change c =>
    obtain ⟨fs', hfaulty, rfl⟩ := hcall
    exact h.faulty habs hroot hvis ho hfaulty
  | stat | openRead | readAll | readTree | walkTree | exchange =>
    exact fs_of_rough (by simp) hcall ▸ h

theorem settling_reconstructFiles (habs : isAbs absDir) (hroot : root.Orderly) (store : BlobStore) :
    Prog.Within (Changes (Settling absDir root)) (reconstructFiles absDir (some root) store) := by
  intro o ho
  rw [← Prog.issues_map (f := fun r : ℕ × Option Fault => r.2), reconstructFiles_eq] at ho
  refine (within_visitAll _).2 (fun v hv o ho => ?_) o ho
  have hbuild := building_visit store habs hroot hv o ho
  cases o with
  | change c => exact Or.inl hbuild
  | stat | openRead | readAll | readTree | walkTree | exchange => trivial

theorem settling_deleteAll {paths : List Bytes} (hdel : ∀ p ∈ paths, Absent absDir root p) :
    Prog.Within (Changes (Settling absDir root)) (deleteAll absDir paths) := by
  induction paths with
  | nil => exact Prog.within_ret _
  | cons p paths ih =>
    rw [List.forall_mem_cons] at hdel
    exact within_change (Or.inr ⟨p, rfl, hdel.1⟩) (fun _ => ih hdel.2) (ih hdel.2)

end Settling

/-! ### The command -/

section Command

variable {absDir : Bytes} {root : ManifestNode} {w w' : World ν} {fs fs₁ fs₂ : Os.Fs}

/-- The directory can receive the manifest, and its store has what it had. -/
structure Lasting (absDir : Bytes) (root : ManifestNode) (fs fs' : Os.Fs) : Prop where
  receptive : Receptive absDir root fs'
  blob : ∀ {hash c}, (storeOf absDir).blob fs hash = some c →
    (storeOf absDir).blob fs' hash = some c

theorem Lasting.grown (habs : isAbs absDir) (hvis : ∀ s n, root.At s n → Visible s)
    (h : Lasting absDir root fs fs₁) (hg : (storeOf absDir).Grown fs₁ fs₂) :
    Lasting absDir root fs fs₂ :=
  ⟨h.receptive.grown habs hvis hg, fun hc => hg.blob (h.blob hc)⟩

theorem Lasting.site (habs : isAbs absDir) (h : Lasting absDir root fs fs₁)
    (hsite : Site absDir root fs₁ fs₂) : Lasting absDir root fs fs₂ :=
  ⟨h.receptive.site habs hsite, fun hc => (hsite.blob _).trans (h.blob hc)⟩

/-- A store that is there is opened, or not. -/
theorem wpAll_newBlobStore {I : World ν → Prop} {Q : Except Err BlobStore → World ν → Prop}
    (habs : isAbs absDir) (ht : (storeOf absDir).Tidy w.fs) (hI : I w)
    (hQ : ∀ r, (∀ s, r = .ok s → s = storeOf absDir) → Q r w) :
    Prog.wpAll (Rough root) I (newBlobStore (storageDir absDir)) Q w := by
  have hdir := isDir_store ht
  unfold newBlobStore
  rw [if_neg (storageDir_ne_nil habs)]
  refine Prog.wpAll_call_bind.2 ?_
  rintro r _ ⟨fs', hcall, rfl⟩
  -- Nothing is left to be made.
  have hsame : fs' = w.fs := by
    rcases hcall with ⟨-, hok⟩ | ⟨-, rfl | ⟨_, hpart, hok⟩⟩
    · exact mkdirAll_above hdir (List.prefix_refl _) hok
    · rfl
    · cases hpart with
      | all => exact mkdirAll_above hdir (List.prefix_refl _) hok
      | dirs hpre => exact mkdirAll_above hdir hpre hok
  subst hsame
  refine ⟨hI, ?_⟩
  cases r with
  | error e => exact hQ _ (by simp)
  | ok _ => exact hQ _ (by simp)

/-- The tree that is built is that of the directory as it is. -/
theorem wpAll_buildFromFS {I : World ν → Prop} {Q : Except Err Merkle.Tree → World ν → Prop}
    (hI : I w) (hdir : ∀ m es, Os.reach w.fs (resolve absDir) = some (.dir m es) →
      Q (.ok ⟨some (buildNode (base absDir) (.dir m es))⟩) w)
    (herr : ∀ e, Q (.error e) w) :
    Prog.wpAll (Rough root) I (buildFromFS absDir) Q w := by
  refine Prog.wpAll_call_bind.2 ?_
  rintro r _ ⟨hr, rfl⟩
  refine ⟨hI, ?_⟩
  rcases r with e | ⟨m, c⟩ | ⟨m, es⟩
  · exact herr _
  · exact herr _
  · rcases hr with hr | ⟨e, he⟩
    · exact hdir m es (Os.stat_ok.1 hr.symm)
    · cases he

/-- Names stay distinct in every directory. -/
theorem wpAll_wf {α : Type} {p : Cmd α} (h : w.fs.WF) :
    Prog.wpAll (Rough root) (fun w' => w'.fs.WF) p (fun _ w' => w'.fs.WF) w := by
  refine Prog.wpAll_within (P := fun _ => True) (fun _ _ => trivial) ?_ h
  intro o w r w' _ hcall hwf
  cases o with
  | change c =>
    obtain ⟨fs', ⟨-, hok⟩ | ⟨-, rfl | ⟨c', -, hok⟩⟩, rfl⟩ := hcall
    · exact wf_apply hwf c hok
    · exact hwf
    · exact wf_apply hwf c' hok
  | stat | openRead | readAll | readTree | walkTree | exchange =>
    exact fs_of_rough (by simp) hcall ▸ hwf

theorem wpAll_applyDiff (habs : isAbs absDir) (hroot : Advertised root)
    (h : Lasting absDir root fs w.fs) {d : Diff.DiffResult}
    (hdel : ∀ p ∈ d.deleted, Absent absDir root p) :
    Prog.wpAll (Rough root) (fun w' => Lasting absDir root fs w'.fs)
      (applyDiff absDir (storeOf absDir) root d) (fun _ _ => True) w := by
  have hs : isAbs (storeOf absDir).baseDir := isAbs_storageDir habs
  have hvis : ∀ s n, root.At s n → Visible s := fun s n hn => hroot.visible hn
  rw [applyDiff_eq]
  refine Prog.wpAll_bind.2 (Prog.wpAll_mono
    ((stocks_neededChunks d).wpAll hs h.receptive.tidy.ready.base)
    (fun w' hg => h.grown habs hvis hg) fun needed w₁ hg₁ => ?_)
  have h₁ := h.grown habs hvis hg₁
  refine Prog.wpAll_bind.2 (Prog.wpAll_mono
    ((stocks_download _ 0).wpAll hs h₁.receptive.tidy.ready.base)
    (fun w' hg => h₁.grown habs hvis hg) ?_)
  rintro ⟨k, e⟩ w₂ hg₂
  have h₂ := h₁.grown habs hvis hg₂
  cases e with
  | some e => trivial
  | none =>
    refine Prog.wpAll_mono (Prog.wpAll_within (P := Changes (Settling absDir root))
      (I := fun w' => Site absDir root w₂.fs w'.fs) ?_ ?_ (h₂.receptive.start habs))
      (fun w' hsite => h₂.site habs hsite) fun _ _ _ => trivial
    · refine Prog.within_bind.2 ⟨settling_reconstructFiles habs hroot.orderly _, ?_⟩
      rintro ⟨n, _ | ⟨_ | _ | _⟩⟩ -
      · exact Prog.within_bind.2 ⟨settling_deleteAll hdel, fun _ _ => Prog.within_ret _⟩
      all_goals exact Prog.within_ret _
    · exact fun o w₃ r w₄ ho hcall hsite => hsite.rough habs hroot.orderly hvis ho hcall

/-- **After every call of a sync**, whatever comes of it, the directory can receive the manifest
and its store has what it had. -/
theorem wpAll_syncCmd (ord : Diff.DiffOrder) (dial : Except (DialStep × Err) Net.Peer)
    (hhome : Home absDir w.fs) (hroot : Advertised root) (hroom : Room absDir root w.fs) :
    Prog.wpAll (Rough root) (fun w' => Lasting absDir root w.fs w'.fs)
      (syncCmd ord dial absDir) (fun _ _ => True) w := by
  have hs : isAbs (storeOf absDir).baseDir := isAbs_storageDir hhome.abs
  have hvis : ∀ s n, root.At s n → Visible s := fun s n hn => hroot.visible hn
  have h : Lasting absDir root w.fs w.fs := ⟨⟨hhome.tidy, hhome.sound, hroom⟩, fun hc => hc⟩
  refine Prog.wpAll_call_bind.2 ?_
  rintro _ _ ⟨rfl, rfl⟩
  refine ⟨h, ?_⟩
  split
  · trivial
  refine Prog.wpAll_bind.2 (wpAll_newBlobStore hhome.abs hhome.tidy h ?_)
  rintro (e | store) hstore
  · trivial
  obtain rfl := hstore _ rfl
  refine Prog.wpAll_bind.2 (Prog.wpAll_mono (Prog.wpAll_and
    ((stocks_indexDirectory absDir).wpAll hs hhome.tidy.ready.base) (wpAll_wf hhome.wf))
    (fun w' hg => h.grown hhome.abs hvis hg.1) ?_)
  rintro _ w₁ ⟨hg₁, hwf₁⟩
  have h₁ := h.grown hhome.abs hvis hg₁
  refine Prog.wpAll_bind.2 (wpAll_buildFromFS h₁ (fun m es hreach => ?_) fun _ => trivial)
  have hhere := advertised_of_reach w₁.fs absDir hwf₁ hreach
  rcases dial with ⟨_ | _, e⟩ | peer
  · trivial
  · trivial
  dsimp only
  cases printsRoots ⟨some (buildNode (base absDir) (.dir m es))⟩ peer with
  | error fault => trivial
  | ok _ =>
    refine Prog.wpAll_bind.2 (Prog.wpAll_call_bind.2 ?_)
    rintro reply w₂ ⟨hreply, n, rfl⟩
    refine ⟨h₁, ?_⟩
    cases hm : manifestReply reply with
    | error e => trivial
    | ok manifest =>
      obtain ⟨theirs⟩ := manifest
      obtain rfl : theirs = some root := hreply rfl _ hm
      refine Prog.wpAll_bind.2 (Prog.wpAll_mono (wpAll_applyDiff (w := { w₁ with net := n })
        hhome.abs hroot h₁ fun p hp => absent_of_deleted hhome.abs hhere hroot.orderly hp)
        (fun _ h => h) fun r _ _ => ?_)
      cases r <;> trivial

/-! ### Attempts -/

/-- The sync was tried any number of times, with any peers whose manifest is `root`, and was cut at
some call each time. -/
inductive Attempts (absDir : Bytes) (root : ManifestNode) (w : World ν) : World ν → Prop
  | none : Attempts absDir root w w
  | again {w₁ w₂ : World ν} (h : Attempts absDir root w w₁) (ord : Diff.DiffOrder)
      (dial : Except (DialStep × Err) Net.Peer)
      (hpass : Prog.Passes (Rough root) (syncCmd ord dial absDir) w₁ w₂) :
      Attempts absDir root w w₂

/-- After any attempts the directory can be served and receive the manifest, and its store has what
it had. -/
theorem Attempts.lasting (h : Attempts absDir root w w') (hhome : Home absDir w.fs)
    (hroot : Advertised root) (hroom : Room absDir root w.fs) :
    Home absDir w'.fs ∧ Lasting absDir root w.fs w'.fs := by
  induction h with
  | none => exact ⟨hhome, ⟨hhome.tidy, hhome.sound, hroom⟩, fun hc => hc⟩
  | again _ ord dial hpass ih =>
    obtain ⟨hhome₁, h₁⟩ := ih
    have h₂ := Prog.wpAll_passes (wpAll_syncCmd ord dial hhome₁ hroot h₁.receptive.room)
      ⟨h₁.receptive, fun hc => hc⟩ hpass
    have hwf := Prog.wpAll_passes (wpAll_wf hhome₁.wf) hhome₁.wf hpass
    exact ⟨⟨hhome.abs, hhome.shown, hwf, h₂.receptive.tidy, h₂.receptive.sound⟩, h₂.receptive,
      fun hc => h₂.blob (h₁.blob hc)⟩

end Command

/-! A sync of `/d` in which the write of a chunk stops after one byte, with the daemon of `/h`. -/

/-- The calls on a disk on which every write stops after one byte, without a peer. -/
def tornDisk : Prog.Handler Op Op.Resp (World ν)
  | .change (.write path data), w =>
    (.error .notExist, (w.after ((Change.write path (data.take 1)).apply w.fs w.umask)).2)
  | o, w => handle (fun _ n => (.error (.opening, .eof), n)) o w

/-- A change that fails after a part of its work. -/
theorem rough_part {root : ManifestNode} {c c' : Change} (h : Cas.BlobStore.Part c c') (e : Errno)
    (w : World ν) : Rough root (.change c) w (.error e) (w.after (c'.apply w.fs w.umask)).2 := by
  cases hc : c'.apply w.fs w.umask with
  | ok fs' => exact ⟨fs', .inr ⟨⟨e, rfl⟩, .inr ⟨c', h, hc⟩⟩, rfl⟩
  | error _ => exact ⟨w.fs, .inr ⟨⟨e, rfl⟩, .inl rfl⟩, rfl⟩

/-- A disk that does not fail. -/
theorem rough_handle {root : ManifestNode} {answer : Request → ν → Exchange × ν} (o : Op)
    (w : World ν)
    (hroot : o = .exchange .manifest → ∀ m, manifestReply (answer .manifest w.net).1 = .ok m →
      m.root = some root) : Rough root o w (handle answer o w).1 (handle answer o w).2 := by
  cases o with
  | exchange req => exact ⟨fun hreq => hreq ▸ hroot (congrArg _ hreq), _, rfl⟩
  | change c =>
    rw [handle]
    cases hc : c.apply w.fs w.umask with
    | ok fs' => exact ⟨fs', .inl ⟨rfl, hc⟩, rfl⟩
    | error e => exact ⟨w.fs, .inr ⟨⟨e, rfl⟩, .inl rfl⟩, rfl⟩
  | stat path => exact ⟨rfl, rfl⟩
  | openRead path => rfl
  | readAll path => rfl
  | readTree path => exact ⟨.inl rfl, rfl⟩
  | walkTree path => exact ⟨.inl rfl, rfl⟩

theorem rough_tornDisk (root : ManifestNode) (o : Op) (w : World ν) :
    Rough root o w (tornDisk o w).1 (tornDisk o w).2 := by
  unfold tornDisk
  split
  · exact rough_part (.bytes (List.take_prefix 1 _)) .notExist w
  · exact rough_handle _ w fun _ m hm => by cases hm

/-- A peer is not asked. -/
theorem net_tornDisk (o : Op) (w : World ν) : (tornDisk o w).2.net = w.net := by
  have hafter (r : Except Errno Os.Fs) : (w.after r).2.net = w.net := by cases r <;> rfl
  unfold tornDisk
  split
  · exact hafter _
  · cases o with
    | change c => exact hafter _
    | _ => rfl

/-- The sync is stopped when the chunk of `b` is written. -/
def tornWorld : World {w : World Unit // Home hostDaemon.absDir w.fs} :=
  Prog.stopped tornDisk 7 (indexDirectory [47, 100] (storeOf [47, 100])) guestWorld

theorem passes_tornWorld : Prog.Passes (Rough (manifestOf [47, 104] (oneFileHome [97] [7])))
    (indexDirectory [47, 100] (storeOf [47, 100])) guestWorld tornWorld :=
  Prog.passes_stopped (rough_tornDisk _) 7 _ _

theorem net_tornWorld : tornWorld.net = guestWorld.net :=
  Prog.stopped_eq net_tornDisk 7 _ guestWorld

/-- A sync has been stopped in the middle of a write. -/
theorem attempts_tornWorld :
    Attempts [47, 100] (manifestOf [47, 104] (oneFileHome [97] [7])) guestWorld tornWorld := by
  have hstore : Prog.Ends (Rough (manifestOf [47, 104] (oneFileHome [97] [7])))
      (newBlobStore (storageDir [47, 100])) guestWorld (.ok (storeOf [47, 100])) guestWorld :=
    .call ⟨guestWorld.fs, .inl ⟨rfl, rfl⟩, rfl⟩ .ret
  exact .again .none (.listed _ _) (.ok ⟨[], none⟩)
    (.next ⟨rfl, rfl⟩ (hstore.passes_bind (passes_tornWorld.bind_left _)))

/-- The files that `/d` shows are as they were. -/
theorem reach_tornWorld : ∃ ours, Os.reach tornWorld.fs (resolve [47, 100]) = some ours ∧
    manifestOf [47, 100] ours = manifestOf [47, 100] (oneFileHome [98] [1, 2]) := by
  have hs : isAbs (storeOf [47, 100]).baseDir := by decide
  obtain ⟨hgrown, hwf⟩ := Prog.wpAll_passes (Prog.wpAll_and
    ((stocks_indexDirectory [47, 100]).wpAll hs home_guestWorld.tidy.ready.base)
    (wpAll_wf home_guestWorld.wf)) ⟨.refl _ _, home_guestWorld.wf⟩ passes_tornWorld
  obtain ⟨m, hm⟩ := isDir_of_ready (by decide) (home_guestWorld.grown hgrown hwf).tidy.ready
  obtain ⟨es, hes⟩ := Os.stat_of_view_dir hm
  have hreach := Os.stat_ok.1 hes
  exact ⟨_, hreach, congrArg convertTreeToManifest (manifest_of_grown (by decide) hgrown
    home_guestWorld.wf hwf rfl hreach (base [47, 100]))⟩

end FileSync.Cli
