import FileSync.Db.Store
import FileSync.Support.Transition

/-!
# Db — the rows of `file_chunks` and the rows of `files`

The watcher's transactions on the connections of a pool.  `Open` runs `PRAGMA foreign_keys=ON` on
one connection; SQLite has foreign keys off on every other one, and a transaction is run on any of
them.

What is to hold is `Referential`: the chunks of each file are those of the last committed update,
and no other chunks are there.

* `Rows` is the part that does not depend on the connection: an update replaces the chunks of a
  file, and since numbers are not used again, chunks that were left behind are never those of a new
  file.
* `referential_iff`: `Referential` holds throughout a run if and only if every deletion of a file
  with chunks that commits is run on the connection that has foreign keys on (`Enforced`).
* `second_connection_orphans`: a deletion on another connection leaves the chunks of the file.
-/

open Transition

namespace FileSync.Db

/-- The pool of connections and the tables; `last` has, for each file, the chunks of the last update
that was committed, and is not part of the program. -/
structure State (κ : Type) where
  foreignKeys : κ → Bool
  tables : Tables
  last : Bytes → Option (List (Bytes × ℤ))

/-- The transactions of `handleUpdate` and `handleDelete`, each on a connection. -/
inductive Event (κ : Type)
  | update (c : κ) (path merkleRoot : Bytes) (size : ℤ) (modTime : Time)
      (chunks : List (Bytes × ℤ)) (faults : Faults)
  | delete (c : κ) (path : Bytes) (faults : Faults)

namespace State

variable {κ : Type}

/-- `Open` of a new database: `c` is the connection that runs the `PRAGMA`. -/
def opened [DecidableEq κ] (c : κ) : State κ := ⟨fun c' => c' = c, .empty, fun _ => none⟩

def step (s : State κ) : Event κ → Option (State κ)
  | .update c path merkleRoot size modTime chunks faults =>
    match transaction (s.foreignKeys c) faults
      (updateTx ⟨0, path, merkleRoot, size, modTime, chunks.length⟩ (chunks.map Prod.fst)
        (chunks.map Prod.snd)) s.tables with
    | (.error _, tables) => some { s with tables := tables }
    | (.ok (), tables) =>
      some { s with
        tables := tables
        last := Function.update s.last path (some chunks) }
  | .delete c path faults =>
    match transaction (s.foreignKeys c) faults (deleteTx path) s.tables with
    | (.error _, tables) => some { s with tables := tables }
    | (.ok (), tables) =>
      some { s with
        tables := tables
        last := Function.update s.last path none }

end State

/-- The rows of a list of chunks: the indices are `0`, `1` and so on. -/
def rowsOf (fileId : ℕ) (chunks : List (Bytes × ℤ)) : List ChunkRow :=
  chunks.mapIdx fun i chunk => ⟨fileId, i, chunk.1, chunk.2⟩

/-- The chunks of the file are exactly these. -/
def Holds (t : Tables) (row : FileRow) (chunks : List (Bytes × ℤ)) : Prop :=
  row.chunkCount = chunks.length ∧ t.fileChunks.filter (·.fileId = row.id) = rowsOf row.id chunks

/-- Every row of `file_chunks` is of a file that is in `files`. -/
def Owned (t : Tables) : Prop :=
  ∀ r ∈ t.fileChunks, ∃ path row, t.files.lookup path = some row ∧ row.id = r.fileId

/-- **The referential invariant.** -/
structure Referential {κ : Type} (s : State κ) : Prop where
  holds : ∀ path row, s.tables.files.lookup path = some row →
    ∃ chunks, s.last path = some chunks ∧ Holds s.tables row chunks
  absent : ∀ path, s.tables.files.lookup path = none → s.last path = none
  owned : Owned s.tables

/-- A deletion that commits is run with foreign keys on, or the file has no chunks. -/
def Enforced {κ : Type} (s : State κ) : Event κ → Prop
  | .update .. => True
  | .delete c path faults => faults.Spare 1 →
      s.foreignKeys c = true ∨
        ∀ row, s.tables.files.lookup path = some row → row.chunkCount = 0

/-! ### Rows -/

theorem chunkRows_append (fileId : ℕ) (before chunks : List (Bytes × ℤ)) :
    chunkRows fileId ((before ++ chunks).map Prod.snd) before.length (chunks.map Prod.fst) =
      chunks.mapIdx fun i chunk => ⟨fileId, before.length + i, chunk.1, chunk.2⟩ := by
  induction chunks generalizing before with
  | nil => rfl
  | cons chunk chunks ih =>
    have hrest := ih (before ++ [chunk])
    rw [List.append_assoc, List.singleton_append, List.length_append, List.length_singleton]
      at hrest
    rw [List.map_cons, chunkRows, hrest, List.mapIdx_cons]
    have hsize :
        ((before ++ chunk :: chunks).map Prod.snd).getD before.length 4096 = chunk.2 := by
      rw [List.map_append, List.getD_eq_getElem?_getD, List.getElem?_append_right (by simp)]
      simp
    rw [hsize]
    simp only [Nat.add_zero, Nat.add_assoc, Nat.add_comm 1]

theorem chunkRows_eq_rowsOf (fileId : ℕ) (chunks : List (Bytes × ℤ)) :
    chunkRows fileId (chunks.map Prod.snd) 0 (chunks.map Prod.fst) = rowsOf fileId chunks := by
  have h := chunkRows_append fileId [] chunks
  simpa [rowsOf] using h

theorem fileId_of_mem_rowsOf {fileId : ℕ} {chunks : List (Bytes × ℤ)} {r : ChunkRow}
    (h : r ∈ rowsOf fileId chunks) : r.fileId = fileId := by
  obtain ⟨i, hi, rfl⟩ := List.mem_mapIdx.1 h
  rfl

@[simp] theorem length_rowsOf (fileId : ℕ) (chunks : List (Bytes × ℤ)) :
    (rowsOf fileId chunks).length = chunks.length := List.length_mapIdx

theorem filter_rowsOf_self (fileId : ℕ) (chunks : List (Bytes × ℤ)) :
    (rowsOf fileId chunks).filter (·.fileId = fileId) = rowsOf fileId chunks :=
  List.filter_eq_self.2 fun r hr => by simpa using fileId_of_mem_rowsOf hr

theorem filter_rowsOf_ne {fileId fileId' : ℕ} (h : fileId ≠ fileId')
    (chunks : List (Bytes × ℤ)) : (rowsOf fileId chunks).filter (·.fileId = fileId') = [] :=
  List.filter_eq_nil_iff.2 fun r hr => by simpa [fileId_of_mem_rowsOf hr] using h

/-- The rows of other files are not deleted. -/
theorem filter_filter_ne {id id' : ℕ} (h : id' ≠ id) (rows : List ChunkRow) :
    (rows.filter (·.fileId ≠ id)).filter (·.fileId = id') = rows.filter (·.fileId = id') := by
  rw [List.filter_filter]
  refine List.filter_congr fun r _ => ?_
  by_cases hr : r.fileId = id'
  · simp [hr, h]
  · simp [hr]

theorem filter_filter_self (id : ℕ) (rows : List ChunkRow) :
    (rows.filter (·.fileId ≠ id)).filter (·.fileId = id) = [] := by
  rw [List.filter_filter]
  exact List.filter_eq_nil_iff.2 fun r _ => by simp

/-! ### On every connection -/

variable {κ : Type}

/-- What holds whatever the connections are. -/
structure Rows (s : State κ) : Prop where
  holds : ∀ path row, s.tables.files.lookup path = some row →
    ∃ chunks, s.last path = some chunks ∧ Holds s.tables row chunks
  absent : ∀ path, s.tables.files.lookup path = none → s.last path = none
  id_inj : ∀ path path' row row', s.tables.files.lookup path = some row →
    s.tables.files.lookup path' = some row' → row.id = row'.id → path = path'
  id_le : ∀ path row, s.tables.files.lookup path = some row → row.id ≤ s.tables.seq
  fileId_le : ∀ r ∈ s.tables.fileChunks, r.fileId ≤ s.tables.seq

theorem rows_opened [DecidableEq κ] (c : κ) : Rows (State.opened c) where
  holds _ _ h := nomatch h
  absent _ _ := rfl
  id_inj _ _ _ _ h := nomatch h
  id_le _ _ h := nomatch h
  fileId_le _ h := nomatch h

/-- An update gives the file a number that no other file has, and leaves the rows of other files. -/
theorem Rows.update_spec {s : State κ} (h : Rows s) (record : FileRecord)
    (chunks : List (Bytes × ℤ)) :
    ∃ id seq, s.tables.update record (chunks.map Prod.fst) (chunks.map Prod.snd) =
        ⟨s.tables.files.insert record.path
            ⟨id, record.merkleRoot, record.size, unix record.modTime, record.chunkCount⟩,
          seq, s.tables.fileChunks.filter (·.fileId ≠ id) ++ rowsOf id chunks⟩ ∧
      id ≤ seq ∧ s.tables.seq ≤ seq ∧
      ∀ path row, s.tables.files.lookup path = some row → (row.id = id ↔ path = record.path) := by
  cases hold : s.tables.files.lookup record.path with
  | some old =>
    refine ⟨old.id, s.tables.seq + 1, ?_, (h.id_le _ _ hold).trans (Nat.le_succ _), Nat.le_succ _,
      ?_⟩
    · simp only [Tables.update, Tables.upsert, hold, chunkRows_eq_rowsOf, Tables.deleteChunks]
    · intro path row hrow
      constructor
      · exact h.id_inj _ _ _ _ hrow hold
      · rintro rfl
        rw [Option.some.inj (hrow.symm.trans hold)]
  | none =>
    refine ⟨s.tables.seq + 1, s.tables.seq + 1, ?_, le_rfl, Nat.le_succ _, ?_⟩
    · simp only [Tables.update, Tables.upsert, hold, chunkRows_eq_rowsOf, Tables.deleteChunks]
    · intro path row hrow
      have hle := h.id_le _ _ hrow
      refine iff_of_false (by omega) ?_
      rintro rfl
      rw [hold] at hrow
      cases hrow

theorem rows_update {s : State κ} (h : Rows s) (record : FileRecord) (chunks : List (Bytes × ℤ))
    (hcount : record.chunkCount = chunks.length) :
    Rows { s with
      tables := s.tables.update record (chunks.map Prod.fst) (chunks.map Prod.snd)
      last := Function.update s.last record.path (some chunks) } := by
  obtain ⟨id, seq, heq, hid, hseq, hnew⟩ := h.update_spec record chunks
  rw [heq]
  constructor
  · intro path row hrow
    rcases lookup_insert_eq_some.1 hrow with ⟨rfl, rfl⟩ | ⟨hpath, hrow⟩
    · refine ⟨chunks, Function.update_self .., hcount, ?_⟩
      rw [List.filter_append, filter_filter_self, filter_rowsOf_self, List.nil_append]
    · obtain ⟨chunks', hlast, hlen, hrows⟩ := h.holds path row hrow
      have hne : row.id ≠ id := fun heq => hpath ((hnew path row hrow).1 heq)
      refine ⟨chunks', (Function.update_of_ne hpath ..).trans hlast, hlen, ?_⟩
      rw [List.filter_append, filter_filter_ne hne, filter_rowsOf_ne hne.symm, List.append_nil,
        hrows]
  · intro path hrow
    obtain ⟨hpath, hrow⟩ := AList.lookup_insert_eq_none.1 hrow
    exact (Function.update_of_ne hpath ..).trans (h.absent path hrow)
  · intro path path' row row' hrow hrow' hids
    rcases lookup_insert_eq_some.1 hrow with ⟨hpath, rfl⟩ | ⟨hpath, hrow⟩ <;>
      rcases lookup_insert_eq_some.1 hrow' with ⟨hpath', rfl⟩ | ⟨hpath', hrow'⟩
    · exact hpath.trans hpath'.symm
    · exact absurd ((hnew path' row' hrow').1 hids.symm) hpath'
    · exact absurd ((hnew path row hrow).1 hids) hpath
    · exact h.id_inj _ _ _ _ hrow hrow' hids
  · intro path row hrow
    rcases lookup_insert_eq_some.1 hrow with ⟨-, rfl⟩ | ⟨-, hrow⟩
    · exact hid
    · exact (h.id_le path row hrow).trans hseq
  · intro r hr
    rcases List.mem_append.1 hr with hr | hr
    · exact (h.fileId_le r (List.mem_filter.1 hr).1).trans hseq
    · rw [fileId_of_mem_rowsOf hr]
      exact hid

/-- The chunks of the file have an owner after an update, and so have those of the others. -/
theorem owned_update {s : State κ} (h : Rows s) (howned : Owned s.tables) (record : FileRecord)
    (chunks : List (Bytes × ℤ)) :
    Owned (s.tables.update record (chunks.map Prod.fst) (chunks.map Prod.snd)) := by
  obtain ⟨id, seq, heq, -, -, hnew⟩ := h.update_spec record chunks
  rw [heq]
  intro r hr
  rcases List.mem_append.1 hr with hr | hr
  · obtain ⟨hmem, hne⟩ := List.mem_filter.1 hr
    obtain ⟨path, row, hrow, hid⟩ := howned r hmem
    have hpath : path ≠ record.path := by
      intro hpath
      rw [← hid, (hnew path row hrow).2 hpath] at hne
      simp at hne
    exact ⟨path, row, lookup_insert_eq_some.2 (.inr ⟨hpath, hrow⟩), hid⟩
  · exact ⟨record.path, _, AList.lookup_insert _, (fileId_of_mem_rowsOf hr).symm⟩

theorem rows_delete {s : State κ} (h : Rows s) (foreignKeys : Bool) (path : Bytes) :
    Rows { s with
      tables := s.tables.deleteFile foreignKeys path
      last := Function.update s.last path none } := by
  cases hold : s.tables.files.lookup path with
  | none =>
    have hlast : Function.update s.last path none = s.last := by
      rw [← h.absent path hold, Function.update_eq_self]
    rw [Tables.deleteFile, hold, hlast]
    exact h
  | some old =>
    -- The rows of another file have another number, so the cascade does not touch them.
    have hfilter : ∀ id, id ≠ old.id →
        (if foreignKeys then s.tables.fileChunks.filter (·.fileId ≠ old.id)
          else s.tables.fileChunks).filter (·.fileId = id) =
          s.tables.fileChunks.filter (·.fileId = id) := by
      intro id hid
      cases foreignKeys
      · rfl
      · exact filter_filter_ne hid _
    simp only [Tables.deleteFile, hold]
    constructor
    · intro path' row hrow
      obtain ⟨hpath, hrow⟩ := lookup_erase_eq_some.1 hrow
      obtain ⟨chunks, hlast, hlen, hrows⟩ := h.holds path' row hrow
      refine ⟨chunks, by rw [← hlast]; exact Function.update_of_ne hpath .., hlen, ?_⟩
      rw [← hrows]
      exact hfilter row.id fun hid => hpath (h.id_inj _ _ _ _ hrow hold hid)
    · intro path' hrow
      by_cases hpath : path' = path
      · subst hpath
        exact Function.update_self ..
      · dsimp only at hrow
        rw [AList.lookup_erase_ne hpath] at hrow
        exact (Function.update_of_ne hpath ..).trans (h.absent path' hrow)
    · intro path₁ path₂ row₁ row₂ hrow₁ hrow₂
      exact h.id_inj _ _ _ _ (lookup_erase_eq_some.1 hrow₁).2 (lookup_erase_eq_some.1 hrow₂).2
    · intro path' row hrow
      exact h.id_le path' row (lookup_erase_eq_some.1 hrow).2
    · intro r hr
      refine h.fileId_le r ?_
      cases foreignKeys
      · exact hr
      · exact (List.mem_filter.1 hr).1

/-- The chunks of a file that is deleted are left without an owner unless they are deleted too. -/
theorem owned_delete_iff {s : State κ} (h : Rows s) (howned : Owned s.tables) (foreignKeys : Bool)
    (path : Bytes) :
    Owned (s.tables.deleteFile foreignKeys path) ↔
      foreignKeys = true ∨
        ∀ row, s.tables.files.lookup path = some row → row.chunkCount = 0 := by
  rw [Tables.deleteFile]
  cases hold : s.tables.files.lookup path with
  | none => exact iff_of_true howned (.inr (by simp))
  | some old =>
    have hkept : ∀ r ∈ s.tables.fileChunks, r.fileId ≠ old.id → ∃ path' row,
        (s.tables.files.erase path).lookup path' = some row ∧ row.id = r.fileId := by
      intro r hr hne
      obtain ⟨path', row, hrow, hid⟩ := howned r hr
      have hpath : path' ≠ path := by
        rintro rfl
        rw [Option.some.inj (hold.symm.trans hrow), hid] at hne
        exact hne rfl
      exact ⟨path', row, lookup_erase_eq_some.2 ⟨hpath, hrow⟩, hid⟩
    obtain ⟨chunks, -, hlen, hrows⟩ := h.holds path old hold
    cases foreignKeys with
    | true =>
      refine iff_of_true ?_ (.inl rfl)
      intro r hr
      obtain ⟨hmem, hne⟩ := List.mem_filter.1 hr
      exact hkept r hmem (by simpa using hne)
    | false =>
      constructor
      · intro hafter
        refine .inr fun row hrow => ?_
        obtain rfl := Option.some.inj hrow
        rw [hlen, ← length_rowsOf old.id, ← hrows, List.length_eq_zero_iff,
          List.filter_eq_nil_iff]
        intro r hr hid
        -- The owner of the row is another file with the same number.
        obtain ⟨path', row', hrow', hid'⟩ := hafter r hr
        obtain ⟨hpath, hrow'⟩ := lookup_erase_eq_some.1 hrow'
        exact hpath (h.id_inj _ _ _ _ hrow' hold (hid'.trans (by simpa using hid)))
      · rintro (hfk | hzero)
        · cases hfk
        · have hnil : s.tables.fileChunks.filter (·.fileId = old.id) = [] := by
            rw [hrows, ← List.length_eq_zero_iff, length_rowsOf, ← hlen]
            exact hzero old rfl
          intro r hr
          exact hkept r hr (by simpa using List.filter_eq_nil_iff.1 hnil r hr)

theorem Rows.iff_owned {s : State κ} (h : Rows s) : Referential s ↔ Owned s.tables :=
  ⟨fun href => href.owned, fun howned => ⟨h.holds, h.absent, howned⟩⟩

/-! ### Transactions -/

/-- An update is rolled back or committed as a whole. -/
theorem step_update {s s' : State κ} {c : κ} {path merkleRoot : Bytes} {size : ℤ} {modTime : Time}
    {chunks : List (Bytes × ℤ)} {faults : Faults}
    (hs : s.step (.update c path merkleRoot size modTime chunks faults) = some s') :
    s' = s ∨ s' = { s with
      tables := s.tables.update ⟨0, path, merkleRoot, size, modTime, chunks.length⟩
        (chunks.map Prod.fst) (chunks.map Prod.snd)
      last := Function.update s.last path (some chunks) } := by
  rw [State.step] at hs
  rcases update_cases (s.foreignKeys c) faults
    ⟨0, path, merkleRoot, size, modTime, chunks.length⟩ (chunks.map Prod.fst)
    (chunks.map Prod.snd) s.tables with ⟨e, he⟩ | heq
  · rw [he] at hs
    exact .inl (Option.some.inj hs).symm
  · rw [heq] at hs
    exact .inr (Option.some.inj hs).symm

/-- A deletion is committed if neither its statement nor the commit fails. -/
theorem step_delete {s s' : State κ} {c : κ} {path : Bytes} {faults : Faults}
    (hs : s.step (.delete c path faults) = some s') :
    ¬ faults.Spare 1 ∧ s' = s ∨ faults.Spare 1 ∧ s' = { s with
      tables := s.tables.deleteFile (s.foreignKeys c) path
      last := Function.update s.last path none } := by
  rw [State.step] at hs
  rcases delete_cases (s.foreignKeys c) faults path s.tables with ⟨hspare, e, he⟩ | ⟨hspare, heq⟩
  · rw [he] at hs
    exact .inl ⟨hspare, (Option.some.inj hs).symm⟩
  · rw [heq] at hs
    exact .inr ⟨hspare, (Option.some.inj hs).symm⟩

theorem rows_step {s s' : State κ} {e : Event κ} (h : Rows s) (hs : s.step e = some s') :
    Rows s' := by
  cases e with
  | update c path merkleRoot size modTime chunks faults =>
    rcases step_update hs with rfl | rfl
    · exact h
    · exact rows_update h _ chunks rfl
  | delete c path faults =>
    rcases step_delete hs with ⟨-, rfl⟩ | ⟨-, rfl⟩
    · exact h
    · exact rows_delete h _ path

/-- One transaction keeps the invariant if and only if it is enforced. -/
theorem owned_step_iff {s s' : State κ} {e : Event κ} (h : Rows s) (howned : Owned s.tables)
    (hs : s.step e = some s') : Owned s'.tables ↔ Enforced s e := by
  cases e with
  | update c path merkleRoot size modTime chunks faults =>
    refine iff_of_true ?_ trivial
    rcases step_update hs with rfl | rfl
    · exact howned
    · exact owned_update h howned _ chunks
  | delete c path faults =>
    rcases step_delete hs with ⟨hspare, rfl⟩ | ⟨hspare, rfl⟩
    · exact iff_of_true howned fun h => absurd h hspare
    · rw [owned_delete_iff h howned, Enforced, imp_iff_right hspare]

/-- **Metadata referential invariant.**  In a run of committed and rolled-back transactions on any
connections of the pool, the invariant holds in every state if and only if every deletion that
commits is run on the connection that has foreign keys on, or is of a file without chunks. -/
theorem referential_iff [DecidableEq κ] {c : κ} {es : List (Event κ)} {s : State κ}
    (h : exec State.step (.opened c) es = some s) :
    Run State.step (fun s _ => Referential s) (.opened c) es s ∧ Referential s ↔
      Run State.step Enforced (.opened c) es s := by
  refine Run.iff_of_exact_state (fun _ _ _ hrows hs => rows_step hrows hs) ?_ h (rows_opened c) ?_
  · intro s e s' hrows href hs
    rw [(rows_step hrows hs).iff_owned, owned_step_iff hrows href.owned hs]
  · rw [(rows_opened c).iff_owned]
    exact nofun

theorem referential_iff_one_connection :
    ∃ s : State Bool, exec State.step (.opened true)
        [.update true [1] [] 5 0 [([7], 5)] {}, .delete true [1] {}] = some s ∧ Referential s := by
  have hrun : Run State.step Enforced (.opened true)
      [.update true [1] [] 5 0 [([7], 5)] {}, .delete true [1] {}] _ :=
    .cons trivial rfl (.cons (fun _ => .inl rfl) rfl (.nil _))
  exact ⟨_, hrun.exec_eq, ((referential_iff hrun.exec_eq).2 hrun).2⟩

/-- The file is deleted on a connection that was opened later: its chunk stays in the table. -/
theorem second_connection_orphans :
    ∃ s : State Bool, exec State.step (.opened true)
        [.update true [1] [] 5 0 [([7], 5)] {}, .delete false [1] {}] = some s ∧
      s.tables.files.lookup [1] = none ∧ s.tables.fileChunks = [⟨1, 0, [7], 5⟩] ∧
      ¬ Referential s := by
  obtain ⟨s, hs, hfiles, hrows⟩ : ∃ s : State Bool, exec State.step (.opened true)
      [.update true [1] [] 5 0 [([7], 5)] {}, .delete false [1] {}] = some s ∧
      s.tables.files.entries = [] ∧ s.tables.fileChunks = [⟨1, 0, [7], 5⟩] := ⟨_, rfl, rfl, rfl⟩
  have hnone : ∀ path, s.tables.files.lookup path = none := by
    intro path
    rw [AList.lookup, hfiles]
    rfl
  refine ⟨s, hs, hnone [1], hrows, fun href => ?_⟩
  have hmem : ⟨1, 0, [7], 5⟩ ∈ s.tables.fileChunks := hrows ▸ List.mem_singleton_self _
  obtain ⟨path, row, hrow, -⟩ := href.owned _ hmem
  rw [hnone path] at hrow
  cases hrow

end FileSync.Db
