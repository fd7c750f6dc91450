import FileSync.Support.Io
import FileSync.Support.Maps
import FileSync.Support.Program

/-!
# Db — the metadata store

The tables `files` and `file_chunks` of `internal/db/store.go`, the statements that are run on them
and the operations of `Store` that the watcher uses.

* `Tables` is the database; the numbers of deleted rows of `files` are not used again
  (`AUTOINCREMENT`).  `Stmt` has the statements; on a connection without foreign keys, a row of
  `files` is deleted without its chunks.
* `upsertFile`, `setFileChunks` and `deleteFile` are programs over the statements, and `transaction`
  runs such a program.  It is `runTx` over these statements: any of them may fail, and a transaction
  that fails leaves its data (`runTx_cases`).
* `update_cases` and `delete_cases` say what the watcher's two transactions do to the tables.
-/

open Prog

namespace FileSync.Db

/-! ### Tables and statements -/

/-- A `time.Time`, in nanoseconds since 1970. -/
abbrev Time := ℤ

/-- `Time.Unix`: whole seconds. -/
def unix (t : Time) : ℤ := t / 1000000000

/-- `time.Unix` of seconds. -/
def ofUnix (seconds : ℤ) : Time := seconds * 1000000000

structure FileRecord where
  id : ℕ
  path : Bytes
  merkleRoot : Bytes
  size : ℤ
  modTime : Time
  chunkCount : ℕ
deriving DecidableEq

/-- A row of `files`, under its path. -/
structure FileRow where
  id : ℕ
  merkleRoot : Bytes
  size : ℤ
  modTime : ℤ
  chunkCount : ℕ
deriving DecidableEq

/-- A row of `file_chunks`. -/
structure ChunkRow where
  fileId : ℕ
  chunkIndex : ℕ
  chunkHash : Bytes
  size : ℤ
deriving DecidableEq

/-- The tables; `seq` is the largest number that was generated for a row of `files`. -/
structure Tables where
  files : AList fun _ : Bytes => FileRow
  seq : ℕ
  fileChunks : List ChunkRow

/-- The tables of a new database. -/
def Tables.empty : Tables := ⟨∅, 0, []⟩

inductive Stmt
  | upsertFile (path merkleRoot : Bytes) (size modTime : ℤ) (chunkCount : ℕ)
  | deleteFile (path : Bytes)
  | deleteChunks (fileId : ℕ)
  | insertChunk (row : ChunkRow)

/-- What a statement gives: the row's number, for an upsert. -/
def Reply : Stmt → Type
  | .upsertFile .. => Except Err ℕ
  | _ => Except Err Unit

namespace Tables

/-- `INSERT … ON CONFLICT(path) DO UPDATE … RETURNING id`: the number is kept if there is a row, and
another one is used up nevertheless. -/
def upsert (path merkleRoot : Bytes) (size modTime : ℤ) (chunkCount : ℕ) (t : Tables) :
    ℕ × Tables :=
  match t.files.lookup path with
  | some old =>
    (old.id,
      { t with
        files := t.files.insert path ⟨old.id, merkleRoot, size, modTime, chunkCount⟩
        seq := t.seq + 1 })
  | none =>
    (t.seq + 1,
      { t with
        files := t.files.insert path ⟨t.seq + 1, merkleRoot, size, modTime, chunkCount⟩
        seq := t.seq + 1 })

/-- `DELETE FROM files WHERE path = ?`, with the cascade if foreign keys are on. -/
def deleteFile (foreignKeys : Bool) (path : Bytes) (t : Tables) : Tables :=
  match t.files.lookup path with
  | none => t
  | some row =>
    { t with
      files := t.files.erase path
      fileChunks :=
        if foreignKeys then t.fileChunks.filter (·.fileId ≠ row.id) else t.fileChunks }

/-- `DELETE FROM file_chunks WHERE file_id = ?`. -/
def deleteChunks (fileId : ℕ) (t : Tables) : Tables :=
  { t with fileChunks := t.fileChunks.filter (·.fileId ≠ fileId) }

/-- A row of `files` has this number. -/
def HasFile (t : Tables) (id : ℕ) : Prop := ∃ e ∈ t.files.entries, e.2.id = id

instance (t : Tables) (id : ℕ) : Decidable (t.HasFile id) :=
  inferInstanceAs (Decidable (∃ e ∈ t.files.entries, e.2.id = id))

/-- `INSERT INTO file_chunks`, with its primary key and its foreign key. -/
def insertChunk (foreignKeys : Bool) (row : ChunkRow) (t : Tables) : Except Err Tables :=
  if ∃ r ∈ t.fileChunks, r.fileId = row.fileId ∧ r.chunkIndex = row.chunkIndex then
    .error (.text "UNIQUE constraint failed: file_chunks.file_id, file_chunks.chunk_index")
  else if foreignKeys = true ∧ ¬ t.HasFile row.fileId then
    .error (.text "FOREIGN KEY constraint failed")
  else .ok { t with fileChunks := t.fileChunks ++ [row] }

end Tables

/-! ### Transactions -/

/-- The tables as a transaction sees them, on a connection with or without foreign keys. -/
structure Session where
  tables : Tables
  foreignKeys : Bool

/-- One statement that does not fail by itself. -/
def Session.perform : Handler Stmt Reply Session
  | .upsertFile path merkleRoot size modTime chunkCount, s =>
    let (id, tables) := s.tables.upsert path merkleRoot size modTime chunkCount
    ((.ok id : Except Err ℕ), { s with tables := tables })
  | .deleteFile path, s =>
    ((.ok () : Except Err Unit), { s with tables := s.tables.deleteFile s.foreignKeys path })
  | .deleteChunks fileId, s =>
    ((.ok () : Except Err Unit), { s with tables := s.tables.deleteChunks fileId })
  | .insertChunk row, s =>
    match s.tables.insertChunk s.foreignKeys row with
    | .error e => ((.error e : Except Err Unit), s)
    | .ok tables => ((.ok () : Except Err Unit), { s with tables := tables })

def Reply.error (e : Err) : (o : Stmt) → Reply o
  | .upsertFile .. => (.error e : Except Err ℕ)
  | .deleteFile _ | .deleteChunks _ | .insertChunk _ => (.error e : Except Err Unit)

/-- A transaction over any statements: the state that it has made, the number of statements it has
run, and what goes wrong with them. -/
structure Tx (σ : Type) where
  state : σ
  count : ℕ
  fails : ℕ → Option Err

/-- What goes wrong with a transaction; of the error of a rollback only the text is kept. -/
structure Faults where
  beginning : Option Err := none
  statement : ℕ → Option Err := fun _ => none
  rollback : Option Bytes := none
  commit : Option Err := none

/-- Nothing goes wrong with a transaction of `n` statements. -/
def Faults.Spare (f : Faults) (n : ℕ) : Prop :=
  f.beginning = none ∧ (∀ k < n, f.statement k = none) ∧ f.commit = none

section Tx

variable {Op : Type} {Resp : Op → Type} {σ δ α : Type} (error : Err → (o : Op) → Resp o)
  (perform : Handler Op Resp σ)

def Tx.handle : Handler Op Resp (Tx σ) := fun o tx =>
  match tx.fails tx.count with
  | some e => (error e o, { tx with count := tx.count + 1 })
  | none =>
    let (reply, state) := perform o tx.state
    (reply, { tx with state := state, count := tx.count + 1 })

/-- `Store.Transaction` over any statements: what it returns and the data it leaves. -/
def runTx (data : σ → δ) (faults : Faults) (fn : Prog Op Resp (Except Err α)) (s : σ) :
    Except Err α × δ :=
  match faults.beginning with
  | some e => (.error (.wrap "beginning transaction" e), data s)
  | none =>
    match fn.run (Tx.handle error perform) ⟨s, 0, faults.statement⟩ with
    | (.error e, _) =>
      match faults.rollback with
      | some rbErr =>
        (.error (.wrapOf "rollback failed: %v (original error: %w)" rbErr e), data s)
      | none => (.error e, data s)
    | (.ok a, tx) =>
      match faults.commit with
      | some e => (.error (.wrap "committing transaction" e), data s)
      | none => (.ok a, data tx.state)

variable {error perform} {tx : Tx σ}

theorem handle_of_fails {e : Err} (h : tx.fails tx.count = some e) (o : Op) :
    Tx.handle error perform o tx = (error e o, { tx with count := tx.count + 1 }) := by
  rw [Tx.handle, h]

theorem handle_of_spare (h : tx.fails tx.count = none) (o : Op) :
    Tx.handle error perform o tx =
      ((perform o tx.state).1,
        { tx with state := (perform o tx.state).2, count := tx.count + 1 }) := by
  rw [Tx.handle, h]

variable (error perform)

/-- A transaction fails and leaves the data, or commits what its function has done. -/
theorem runTx_cases (data : σ → δ) (faults : Faults) (fn : Prog Op Resp (Except Err α)) (s : σ) :
    (∃ e, runTx error perform data faults fn s = (.error e, data s)) ∨
      ∃ a tx, fn.run (Tx.handle error perform) ⟨s, 0, faults.statement⟩ = (.ok a, tx) ∧
        runTx error perform data faults fn s = (.ok a, data tx.state) := by
  rw [runTx]
  split
  · exact .inl ⟨_, rfl⟩
  · split
    · split <;> exact .inl ⟨_, rfl⟩
    · next a tx hrun =>
      split
      · exact .inl ⟨_, rfl⟩
      · exact .inr ⟨a, tx, hrun, rfl⟩

end Tx

/-- A transaction on `files` and `file_chunks`, on a connection with or without foreign keys. -/
def transaction {α : Type} (foreignKeys : Bool) (faults : Faults)
    (fn : Prog Stmt Reply (Except Err α)) (t : Tables) : Except Err α × Tables :=
  runTx Reply.error Session.perform Session.tables faults fn ⟨t, foreignKeys⟩

/-! ### The operations of the store -/

/-- `UpsertFile`: the record with its number. -/
def upsertFile (record : FileRecord) : Prog Stmt Reply (Except Err FileRecord) :=
  call (.upsertFile record.path record.merkleRoot record.size (unix record.modTime)
      record.chunkCount) fun
    | (.error e : Except Err ℕ) => ret (.error (.wrapOf "upserting file" record.path e))
    | .ok id => ret (.ok { record with id := id })

def deleteFile (path : Bytes) : Prog Stmt Reply (Except Err Unit) :=
  call (.deleteFile path) fun
    | (.error e : Except Err Unit) => ret (.error (.wrapOf "deleting file" path e))
    | .ok () => ret (.ok ())

/-- The loop of `SetFileChunks`, from the chunk `i` on. -/
def insertChunks (fileID : ℕ) (sizes : List ℤ) :
    ℕ → List Bytes → Prog Stmt Reply (Except Err Unit)
  | _, [] => ret (.ok ())
  | i, hash :: chunks =>
    call (.insertChunk ⟨fileID, i, hash, sizes.getD i 4096⟩) fun
      | (.error e : Except Err Unit) =>
        ret (.error (.wrap ("inserting chunk " ++ toString i) e))
      | .ok () => insertChunks fileID sizes (i + 1) chunks

def setFileChunks (fileID : ℕ) (chunks : List Bytes) (sizes : List ℤ) :
    Prog Stmt Reply (Except Err Unit) :=
  call (.deleteChunks fileID) fun
    | (.error e : Except Err Unit) => ret (.error (.wrap "deleting old chunks" e))
    | .ok () => insertChunks fileID sizes 0 chunks

/-- `GetFile`, with what goes wrong with its query. -/
def getFile (fault : Option Err) (t : Tables) (path : Bytes) : Except Err (Option FileRecord) :=
  match fault with
  | some e => .error (.wrapOf "getting file" path e)
  | none =>
    .ok ((t.files.lookup path).map fun row =>
      ⟨row.id, path, row.merkleRoot, row.size, ofUnix row.modTime, row.chunkCount⟩)

def needsUpdate (fault : Option Err) (t : Tables) (path : Bytes) (modTime : Time) (size : ℤ) :
    Except Err Bool :=
  match getFile fault t path with
  | .error e => .error e
  | .ok none => .ok true
  | .ok (some record) =>
    .ok (record.size ≠ size || unix record.modTime ≠ unix modTime)

/-! ### The transactions of the watcher -/

/-- The transaction of `handleUpdate`. -/
def updateTx (record : FileRecord) (chunkHashes : List Bytes) (chunkSizes : List ℤ) :
    Prog Stmt Reply (Except Err Unit) := do
  match ← upsertFile record with
  | .error e => return .error e
  | .ok record => setFileChunks record.id chunkHashes chunkSizes

/-- The transaction of `handleDelete`. -/
def deleteTx (relPath : Bytes) : Prog Stmt Reply (Except Err Unit) := deleteFile relPath

/-- The rows of a file's chunks, from the chunk `i` on. -/
def chunkRows (fileID : ℕ) (sizes : List ℤ) : ℕ → List Bytes → List ChunkRow
  | _, [] => []
  | i, hash :: chunks =>
    ⟨fileID, i, hash, sizes.getD i 4096⟩ :: chunkRows fileID sizes (i + 1) chunks

/-- The tables after an update: the row of the file, and its chunks in place of the old ones. -/
def Tables.update (record : FileRecord) (chunkHashes : List Bytes) (chunkSizes : List ℤ)
    (t : Tables) : Tables :=
  let (id, t) := t.upsert record.path record.merkleRoot record.size (unix record.modTime)
    record.chunkCount
  { t with fileChunks := (t.deleteChunks id).fileChunks ++ chunkRows id chunkSizes 0 chunkHashes }

/-- The row of the file after an update. -/
theorem Tables.lookup_update_self (t : Tables) (record : FileRecord) (chunkHashes : List Bytes)
    (chunkSizes : List ℤ) :
    ∃ id, (t.update record chunkHashes chunkSizes).files.lookup record.path =
      some ⟨id, record.merkleRoot, record.size, unix record.modTime, record.chunkCount⟩ := by
  rw [Tables.update, Tables.upsert]
  cases t.files.lookup record.path <;> exact ⟨_, AList.lookup_insert _⟩

theorem Tables.lookup_update_ne (t : Tables) {record : FileRecord} (chunkHashes : List Bytes)
    (chunkSizes : List ℤ) {path : Bytes} (h : path ≠ record.path) :
    (t.update record chunkHashes chunkSizes).files.lookup path = t.files.lookup path := by
  rw [Tables.update, Tables.upsert]
  cases t.files.lookup record.path <;> exact AList.lookup_insert_ne h

@[simp] theorem Tables.lookup_deleteFile_self (t : Tables) (foreignKeys : Bool) (path : Bytes) :
    (t.deleteFile foreignKeys path).files.lookup path = none := by
  rw [Tables.deleteFile]
  cases h : t.files.lookup path with
  | none => exact h
  | some row => exact AList.lookup_erase _ _

theorem Tables.lookup_deleteFile_ne (t : Tables) (foreignKeys : Bool) {path path' : Bytes}
    (h : path' ≠ path) :
    (t.deleteFile foreignKeys path).files.lookup path' = t.files.lookup path' := by
  rw [Tables.deleteFile]
  cases t.files.lookup path with
  | none => rfl
  | some row => exact AList.lookup_erase_ne h

/-! ### What the transactions do -/

theorem Tables.insertChunk_eq_ok {foreignKeys : Bool} {row : ChunkRow} {t t' : Tables}
    (h : t.insertChunk foreignKeys row = .ok t') :
    t' = { t with fileChunks := t.fileChunks ++ [row] } := by
  rw [Tables.insertChunk] at h
  split at h
  · cases h
  · split at h <;> cases h
    rfl

/-- The rows that were inserted are those of the chunks. -/
theorem tables_of_insertChunks {fileID : ℕ} {sizes : List ℤ} {chunks : List Bytes} {i : ℕ}
    {tx tx' : Tx Session}
    (h : (insertChunks fileID sizes i chunks).run (Tx.handle Reply.error Session.perform) tx =
      (.ok (), tx')) :
    tx'.state.tables = { tx.state.tables with
      fileChunks := tx.state.tables.fileChunks ++ chunkRows fileID sizes i chunks } := by
  induction chunks generalizing i tx with
  | nil =>
    cases h
    rw [chunkRows, List.append_nil]
  | cons hash chunks ih =>
    rw [insertChunks, run_call] at h
    cases hf : tx.fails tx.count with
    | some e =>
      rw [handle_of_fails hf] at h
      cases h
    | none =>
      rw [handle_of_spare hf] at h
      cases hins : tx.state.tables.insertChunk tx.state.foreignKeys
          ⟨fileID, i, hash, sizes.getD i 4096⟩ with
      | error e =>
        simp only [Session.perform, hins] at h
        cases h
      | ok tables =>
        simp only [Session.perform, hins] at h
        rw [ih h, Tables.insertChunk_eq_ok hins, chunkRows]
        simp

/-- The rows can all be inserted if the file has no chunks from `i` on and nothing fails. -/
theorem insertChunks_ok {fileID : ℕ} {sizes : List ℤ} {chunks : List Bytes} {i : ℕ}
    {tx : Tx Session} (hfails : ∀ k < chunks.length, tx.fails (tx.count + k) = none)
    (hfile : tx.state.tables.HasFile fileID)
    (hrows : ∀ r ∈ tx.state.tables.fileChunks, r.fileId = fileID → r.chunkIndex < i) :
    ((insertChunks fileID sizes i chunks).run (Tx.handle Reply.error Session.perform) tx).1 =
      .ok () := by
  induction chunks generalizing i tx with
  | nil => rfl
  | cons hash chunks ih =>
    have hf : tx.fails tx.count = none := hfails 0 (Nat.succ_pos _)
    have hkey : ¬ ∃ r ∈ tx.state.tables.fileChunks, r.fileId = fileID ∧ r.chunkIndex = i := by
      rintro ⟨r, hr, hid, hidx⟩
      exact (hrows r hr hid).ne hidx
    rw [insertChunks, run_call, handle_of_spare hf]
    simp only [Session.perform, Tables.insertChunk, if_neg hkey, hfile, not_true_eq_false,
      and_false, if_false]
    refine ih ?_ hfile ?_
    · intro k hk
      have := hfails (k + 1) (Nat.succ_lt_succ hk)
      rwa [Nat.add_comm k, ← Nat.add_assoc] at this
    · intro r hr hid
      rcases List.mem_append.1 hr with hr | hr
      · exact (hrows r hr hid).trans (Nat.lt_succ_self i)
      · rw [List.mem_singleton.1 hr]
        exact Nat.lt_succ_self i

/-- **An update** leaves the tables, or is the whole update. -/
theorem update_cases (foreignKeys : Bool) (faults : Faults) (record : FileRecord)
    (chunkHashes : List Bytes) (chunkSizes : List ℤ) (t : Tables) :
    (∃ e, transaction foreignKeys faults (updateTx record chunkHashes chunkSizes) t =
        (.error e, t)) ∨
      transaction foreignKeys faults (updateTx record chunkHashes chunkSizes) t =
        (.ok (), t.update record chunkHashes chunkSizes) := by
  rcases runTx_cases Reply.error Session.perform Session.tables faults
    (updateTx record chunkHashes chunkSizes) ⟨t, foreignKeys⟩ with he | ⟨⟨⟩, tx, hrun, heq⟩
  · exact .inl he
  · refine .inr (heq.trans (congrArg (Prod.mk _) ?_))
    rw [updateTx, upsertFile, call_bind, run_call] at hrun
    cases hf : faults.statement 0 with
    | some e =>
      rw [handle_of_fails hf] at hrun
      cases hrun
    | none =>
      rw [handle_of_spare hf] at hrun
      simp only [Session.perform, ret_bind, setFileChunks, run_call] at hrun
      cases hf' : faults.statement 1 with
      | some e =>
        rw [handle_of_fails hf'] at hrun
        cases hrun
      | none =>
        rw [handle_of_spare hf'] at hrun
        exact tables_of_insertChunks hrun

theorem Tables.hasFile_upsert (t : Tables) (path merkleRoot : Bytes) (size modTime : ℤ)
    (chunkCount : ℕ) :
    (t.upsert path merkleRoot size modTime chunkCount).2.HasFile
      (t.upsert path merkleRoot size modTime chunkCount).1 := by
  rw [Tables.upsert]
  split <;>
    exact ⟨⟨path, _⟩, AList.mem_lookup_iff.1 (AList.lookup_insert _), rfl⟩

/-- An update commits if nothing goes wrong. -/
theorem update_of_spare (foreignKeys : Bool) {faults : Faults} (record : FileRecord)
    {chunkHashes : List Bytes} (chunkSizes : List ℤ) (t : Tables)
    (h : faults.Spare (2 + chunkHashes.length)) :
    transaction foreignKeys faults (updateTx record chunkHashes chunkSizes) t =
      (.ok (), t.update record chunkHashes chunkSizes) := by
  refine (update_cases ..).resolve_left ?_
  rintro ⟨e, he⟩
  have hrun : ((updateTx record chunkHashes chunkSizes).run (Tx.handle Reply.error Session.perform)
      ⟨⟨t, foreignKeys⟩, 0, faults.statement⟩).1 = .ok () := by
    rw [updateTx, upsertFile, call_bind, run_call, handle_of_spare (h.2.1 0 (by omega))]
    simp only [Session.perform, ret_bind, setFileChunks, run_call]
    rw [handle_of_spare (h.2.1 1 (by omega))]
    refine insertChunks_ok ?_ (t.hasFile_upsert ..) ?_
    · intro k hk
      exact h.2.1 _ (by simp only; omega)
    · intro r hr hid
      simp [Session.perform, Tables.deleteChunks, hid] at hr
  rw [transaction, runTx, h.1] at he
  dsimp only at he
  generalize (updateTx record chunkHashes chunkSizes).run (Tx.handle Reply.error Session.perform)
    ⟨⟨t, foreignKeys⟩, 0, faults.statement⟩ = res at hrun he
  obtain ⟨a, s⟩ := res
  obtain rfl := hrun
  rw [h.2.2] at he
  cases he

/-- **A deletion** leaves the tables, or takes out the row of the file. -/
theorem delete_cases (foreignKeys : Bool) (faults : Faults) (path : Bytes) (t : Tables) :
    (¬ faults.Spare 1 ∧ ∃ e, transaction foreignKeys faults (deleteTx path) t = (.error e, t)) ∨
      faults.Spare 1 ∧ transaction foreignKeys faults (deleteTx path) t =
        (.ok (), t.deleteFile foreignKeys path) := by
  by_cases hf : ∃ e, faults.statement 0 = some e
  · obtain ⟨e, hf⟩ := hf
    refine .inl ⟨fun hs => by simp [hs.2.1 0 Nat.one_pos] at hf, ?_⟩
    rcases runTx_cases Reply.error Session.perform Session.tables faults (deleteTx path)
      ⟨t, foreignKeys⟩ with he | ⟨a, tx, hrun, -⟩
    · exact he
    · rw [deleteTx, deleteFile, run_call, handle_of_fails hf] at hrun
      cases hrun
  · have hf : faults.statement 0 = none := by
      cases h : faults.statement 0 with
      | none => rfl
      | some e => exact absurd ⟨e, h⟩ hf
    have hrun : (deleteTx path).run (Tx.handle Reply.error Session.perform)
        ⟨⟨t, foreignKeys⟩, 0, faults.statement⟩ =
        (.ok (), ⟨⟨t.deleteFile foreignKeys path, foreignKeys⟩, 1, faults.statement⟩) := by
      rw [deleteTx, deleteFile, run_call, handle_of_spare hf]
      rfl
    rw [transaction, runTx, hrun]
    cases hb : faults.beginning with
    | some e => exact .inl ⟨fun hs => by simp [hs.1] at hb, _, rfl⟩
    | none =>
      cases hc : faults.commit with
      | some e => exact .inl ⟨fun hs => by simp [hs.2.2] at hc, _, rfl⟩
      | none =>
        refine .inr ⟨⟨hb, fun k hk => ?_, hc⟩, rfl⟩
        obtain rfl := Nat.lt_one_iff.1 hk
        exact hf

theorem unix_ofUnix (seconds : ℤ) : unix (ofUnix seconds) = seconds :=
  Int.mul_ediv_cancel seconds (by decide)

/-- A record needs no update if it has the size and the whole second of the file. -/
theorem needsUpdate_eq_false {t : Tables} {path : Bytes} {modTime : Time} {size : ℤ} :
    needsUpdate none t path modTime size = .ok false ↔
      ∃ row, t.files.lookup path = some row ∧ row.size = size ∧ row.modTime = unix modTime := by
  rw [needsUpdate, getFile]
  cases t.files.lookup path <;> simp [unix_ofUnix]

theorem needsUpdate_eq_true {t : Tables} {path : Bytes} {modTime : Time} {size : ℤ} :
    needsUpdate none t path modTime size = .ok true ↔
      ¬ ∃ row, t.files.lookup path = some row ∧ row.size = size ∧ row.modTime = unix modTime := by
  rw [← needsUpdate_eq_false, needsUpdate, getFile]
  cases t.files.lookup path with
  | none => simp
  | some row => simp [imp_iff_not_or]

end FileSync.Db
