import FileSync.Db.Store
import FileSync.Support.Transition
import Mathlib.Data.List.Sort

/-!
# Db — snapshots

The tables `snapshots` and `snapshot_files` of `internal/db/store.go`, with `CreateSnapshot`,
`GetSnapshot` and `GetSnapshotFiles`.

* `Database` is the whole database and `Query` has its statements; those of `Db.Store` are among
  them.
* A transaction over the statements of `files` and `file_chunks` leaves the snapshots
  (`fileTx_eq`); `createSnapshot_cases` says what `CreateSnapshot` does.
* `snapshots_immutable`: in every later state a snapshot is the one that was created, and its files
  are those the table held then.
-/

open Prog Transition

namespace FileSync.Db

/-! ### Tables and statements -/

/-- A `Snapshot`, as the store returns it. -/
structure Snapshot where
  id : ℕ
  rootHash : Bytes
  fileCount : ℕ
  totalSize : ℤ
  createdAt : Time
  comment : Bytes
deriving DecidableEq

/-- A row of `snapshots`; the time is in seconds. -/
structure SnapshotRow where
  id : ℕ
  rootHash : Bytes
  fileCount : ℕ
  totalSize : ℤ
  createdAt : ℤ
  comment : Bytes
deriving DecidableEq

/-- A row of `snapshot_files`. -/
structure SnapshotFile where
  snapshotId : ℕ
  filePath : Bytes
  merkleRoot : Bytes
  size : ℤ
deriving DecidableEq

/-- The database; `snapshotSeq` is the largest number a row of `snapshots` has had. -/
structure Database where
  tables : Tables
  snapshots : List SnapshotRow
  snapshotSeq : ℕ
  snapshotFiles : List SnapshotFile

/-- A new database. -/
def Database.empty : Database := ⟨.empty, [], 0, []⟩

inductive Query
  | stmt (o : Stmt)
  | fileStats
  | insertSnapshot (rootHash : Bytes) (fileCount : ℕ) (totalSize : ℤ) (comment : Bytes)
  | copyFiles (snapshotID : ℕ)

/-- What a statement gives: the count and the size of the files, or the number and the time of a
snapshot. -/
def Query.Reply : Query → Type
  | .stmt o => Db.Reply o
  | .fileStats => Except Err (ℕ × ℤ)
  | .insertSnapshot .. => Except Err (ℕ × ℤ)
  | .copyFiles _ => Except Err Unit

/-- `SUM` of integers, which fails when it leaves the 64-bit integers. -/
def sumSize : ℤ → List ℤ → Except Err ℤ
  | acc, [] => .ok acc
  | acc, x :: xs =>
    if -2 ^ 63 ≤ acc + x ∧ acc + x < 2 ^ 63 then sumSize (acc + x) xs
    else .error (.text "integer overflow")

namespace Tables

/-- The sizes of the files. -/
def sizes (t : Tables) : List ℤ := t.files.entries.map (·.2.size)

/-- The rows of the files, for a snapshot. -/
def snapshotRows (t : Tables) (snapshotID : ℕ) : List SnapshotFile :=
  t.files.entries.map fun e => ⟨snapshotID, e.1, e.2.merkleRoot, e.2.size⟩

end Tables

namespace Database

/-- `SELECT COUNT(*), COALESCE(SUM(size), 0) FROM files`. -/
def fileStats (db : Database) : Except Err (ℕ × ℤ) :=
  match sumSize 0 db.tables.sizes with
  | .error e => .error e
  | .ok totalSize => .ok (db.tables.files.entries.length, totalSize)

/-- `INSERT INTO snapshots … RETURNING id, created_at`. -/
def insertSnapshot (rootHash : Bytes) (fileCount : ℕ) (totalSize : ℤ) (comment : Bytes) (now : ℤ)
    (db : Database) : Database :=
  { db with
    snapshots := db.snapshots ++
      [⟨db.snapshotSeq + 1, rootHash, fileCount, totalSize, now, comment⟩]
    snapshotSeq := db.snapshotSeq + 1 }

/-- `INSERT INTO snapshot_files … SELECT ?, path, merkle_root, size FROM files`, with the primary
key and the foreign key. -/
def copyFiles (foreignKeys : Bool) (snapshotID : ℕ) (db : Database) : Except Err Database :=
  if ∃ r ∈ db.snapshotFiles, ∃ r' ∈ db.tables.snapshotRows snapshotID,
      r.snapshotId = r'.snapshotId ∧ r.filePath = r'.filePath then
    .error (.text
      "UNIQUE constraint failed: snapshot_files.snapshot_id, snapshot_files.file_path")
  else if foreignKeys = true ∧ db.tables.snapshotRows snapshotID ≠ [] ∧
      ¬ ∃ s ∈ db.snapshots, s.id = snapshotID then
    .error (.text "FOREIGN KEY constraint failed")
  else .ok { db with snapshotFiles := db.snapshotFiles ++ db.tables.snapshotRows snapshotID }

end Database

/-! ### Transactions -/

/-- The database as a transaction sees it, on a connection with or without foreign keys, and the
time. -/
structure Conn where
  db : Database
  foreignKeys : Bool
  now : ℤ

namespace Conn

/-- The part of it that the statements of `files` and `file_chunks` see. -/
def session (c : Conn) : Session := ⟨c.db.tables, c.foreignKeys⟩

/-- One statement that does not fail by itself. -/
def perform : Handler Query Query.Reply Conn
  | .stmt o, c =>
    let (reply, s) := Session.perform o c.session
    (reply, { c with db := { c.db with tables := s.tables } })
  | .fileStats, c => (c.db.fileStats, c)
  | .insertSnapshot rootHash fileCount totalSize comment, c =>
    ((.ok (c.db.snapshotSeq + 1, c.now) : Except Err (ℕ × ℤ)),
      { c with db := c.db.insertSnapshot rootHash fileCount totalSize comment c.now })
  | .copyFiles snapshotID, c =>
    match c.db.copyFiles c.foreignKeys snapshotID with
    | .error e => ((.error e : Except Err Unit), c)
    | .ok db => ((.ok () : Except Err Unit), { c with db := db })

end Conn

def Query.error (e : Err) : (o : Query) → o.Reply
  | .stmt o => Db.Reply.error e o
  | .fileStats => (.error e : Except Err (ℕ × ℤ))
  | .insertSnapshot .. => (.error e : Except Err (ℕ × ℤ))
  | .copyFiles _ => (.error e : Except Err Unit)

/-- A transaction on the database. -/
def Database.transaction {α : Type} (foreignKeys : Bool) (faults : Faults) (now : ℤ)
    (fn : Prog Query Query.Reply (Except Err α)) (db : Database) : Except Err α × Database :=
  runTx Query.error Conn.perform Conn.db faults fn ⟨db, foreignKeys, now⟩

/-! ### The operations of the store -/

/-- The function `CreateSnapshot` runs in its transaction. -/
def createSnapshotTx (rootHash comment : Bytes) :
    Prog Query Query.Reply (Except Err Snapshot) :=
  call .fileStats fun
    | (.error e : Except Err (ℕ × ℤ)) => ret (.error (.wrap "getting file stats" e))
    | .ok (fileCount, totalSize) =>
      call (.insertSnapshot rootHash fileCount totalSize comment) fun
        | (.error e : Except Err (ℕ × ℤ)) => ret (.error (.wrap "inserting snapshot" e))
        | .ok (id, createdAt) =>
          call (.copyFiles id) fun
            | (.error e : Except Err Unit) =>
              ret (.error (.wrap "copying files to snapshot" e))
            | .ok () =>
              ret (.ok ⟨id, rootHash, fileCount, totalSize, ofUnix createdAt, comment⟩)

def createSnapshot (foreignKeys : Bool) (faults : Faults) (now : ℤ) (rootHash comment : Bytes)
    (db : Database) : Except Err Snapshot × Database :=
  db.transaction foreignKeys faults now (createSnapshotTx rootHash comment)

/-- A row of `snapshots`, as the store returns it. -/
def SnapshotRow.snapshot (row : SnapshotRow) : Snapshot :=
  ⟨row.id, row.rootHash, row.fileCount, row.totalSize, ofUnix row.createdAt, row.comment⟩

/-- `GetSnapshot`, with what goes wrong with its query. -/
def getSnapshot (fault : Option Err) (db : Database) (id : ℕ) : Except Err (Option Snapshot) :=
  match fault with
  | some e => .error (.wrap ("getting snapshot " ++ toString id) e)
  | none => .ok ((db.snapshots.find? (·.id = id)).map SnapshotRow.snapshot)

/-- What goes wrong with a query of several rows: with the query, with a row, or at the end. -/
inductive RowsFault
  | query (e : Err)
  | scan (e : Err)
  | rows (e : Err)

/-- `ORDER BY file_path`. -/
def orderByPath (files : List SnapshotFile) : List SnapshotFile :=
  files.insertionSort fun a b => a.filePath ≤ b.filePath

/-- `GetSnapshotFiles`, with what goes wrong with its query. -/
def getSnapshotFiles (fault : Option RowsFault) (db : Database) (snapshotID : ℕ) :
    Except Err (List SnapshotFile) :=
  match fault with
  | some (.query e) => .error (.wrap "getting snapshot files" e)
  | some (.scan e) => .error (.wrap "scanning snapshot file" e)
  | some (.rows e) => .error e
  | none => .ok (orderByPath (db.snapshotFiles.filter (·.snapshotId = snapshotID)))

/-! ### Transactions on the files -/

/-- A program over the statements of `files` and `file_chunks`, as one on the database. -/
def fileTx {α : Type} (fn : Prog Stmt Reply (Except Err α)) :
    Prog Query Query.Reply (Except Err α) :=
  fn.embed Query.stmt fun _ r => r

/-- The part of a transaction that the statements of `files` and `file_chunks` see. -/
def Tx.session (tx : Tx Conn) : Tx Session := ⟨tx.state.session, tx.count, tx.fails⟩

/-- No statement turns foreign keys on or off. -/
theorem foreignKeys_perform (o : Stmt) (s : Session) :
    (Session.perform o s).2.foreignKeys = s.foreignKeys := by
  cases o with
  | insertChunk row =>
    rw [Session.perform]
    cases s.tables.insertChunk s.foreignKeys row <;> rfl
  | _ => rfl

theorem session_perform (o : Stmt) (c : Conn) :
    (Conn.perform (.stmt o) c).2.session = (Session.perform o c.session).2 := by
  have hkeys : c.foreignKeys = (Session.perform o c.session).2.foreignKeys :=
    (foreignKeys_perform o c.session).symm
  exact congrArg (Session.mk _) hkeys

theorem handle_stmt (o : Stmt) (tx : Tx Conn) :
    (Tx.handle Query.error Conn.perform (.stmt o) tx).1 =
        (Tx.handle Reply.error Session.perform o tx.session).1 ∧
      (Tx.handle Query.error Conn.perform (.stmt o) tx).2.session =
        (Tx.handle Reply.error Session.perform o tx.session).2 := by
  cases h : tx.fails tx.count with
  | some e =>
    have h' : tx.session.fails tx.session.count = some e := h
    rw [handle_of_fails h, handle_of_fails h']
    exact ⟨rfl, rfl⟩
  | none =>
    have h' : tx.session.fails tx.session.count = none := h
    rw [handle_of_spare h, handle_of_spare h']
    exact ⟨rfl, congrArg (fun s => Tx.mk s _ _) (session_perform o tx.state)⟩

/-- The tables of the snapshots are those of `db`. -/
def SameSnapshots (db : Database) (tx : Tx Conn) : Prop :=
  tx.state.db = { db with tables := tx.state.db.tables }

theorem handle_stmt_same {db : Database} (o : Stmt) (tx : Tx Conn) (h : SameSnapshots db tx) :
    SameSnapshots db (Tx.handle Query.error Conn.perform (.stmt o) tx).2 := by
  cases hf : tx.fails tx.count with
  | some e =>
    rw [handle_of_fails hf]
    exact h
  | none =>
    rw [handle_of_spare hf]
    exact congrArg
      (fun d : Database => { d with tables := (Session.perform o tx.state.session).2.tables }) h

/-- **A transaction on the files** does to the files and their chunks what it does without the
snapshots, and leaves the snapshots. -/
theorem fileTx_eq {α : Type} (foreignKeys : Bool) (faults : Faults) (now : ℤ)
    (fn : Prog Stmt Reply (Except Err α)) (db : Database) :
    db.transaction foreignKeys faults now (fileTx fn) =
      ((transaction foreignKeys faults fn db.tables).1,
        { db with tables := (transaction foreignKeys faults fn db.tables).2 }) := by
  obtain ⟨hres, hview⟩ := run_embed (g := fun _ r => r) (fun o tx => (handle_stmt o tx).1)
    (fun o tx => (handle_stmt o tx).2) fn ⟨⟨db, foreignKeys, now⟩, 0, faults.statement⟩
  have hsame := run_embed_invariant (g := fun _ r => r) (@handle_stmt_same db) fn
    (s := ⟨⟨db, foreignKeys, now⟩, 0, faults.statement⟩) rfl
  rw [← fileTx] at hres hview hsame
  rw [Database.transaction, transaction, runTx, runTx]
  cases faults.beginning with
  | some e => rfl
  | none =>
    dsimp only
    generalize (fileTx fn).run (Tx.handle Query.error Conn.perform)
      ⟨⟨db, foreignKeys, now⟩, 0, faults.statement⟩ = res at hres hview hsame
    generalize hrun : fn.run (Tx.handle Reply.error Session.perform)
      ⟨⟨db.tables, foreignKeys⟩, 0, faults.statement⟩ = res'
    obtain ⟨a, tx⟩ := res
    obtain ⟨a', tx'⟩ := res'
    obtain rfl : a = a' := hres.trans (congrArg Prod.fst hrun)
    have htables : tx.state.db.tables = tx'.state.tables :=
      congrArg (fun x : Tx Session => x.state.tables) (hview.trans (congrArg Prod.snd hrun))
    cases a with
    | error e =>
      dsimp only
      cases faults.rollback <;> rfl
    | ok a =>
      dsimp only
      cases faults.commit with
      | some e => rfl
      | none =>
        dsimp only
        rw [hsame, htables]

/-! ### Creating a snapshot -/

theorem sumSize_eq_ok : ∀ {xs : List ℤ} {acc total : ℤ}, sumSize acc xs = .ok total →
    total = acc + xs.sum
  | [], acc, total, h => by
    obtain rfl := Except.ok.inj h
    simp
  | x :: xs, acc, total, h => by
    rw [sumSize] at h
    split at h
    · rw [sumSize_eq_ok h, List.sum_cons, Int.add_assoc]
    · cases h

/-- The database with a new snapshot of its files. -/
def Database.withSnapshot (rootHash comment : Bytes) (totalSize now : ℤ) (db : Database) :
    Database where
  tables := db.tables
  snapshots := db.snapshots ++
    [⟨db.snapshotSeq + 1, rootHash, db.tables.files.entries.length, totalSize, now, comment⟩]
  snapshotSeq := db.snapshotSeq + 1
  snapshotFiles := db.snapshotFiles ++ db.tables.snapshotRows (db.snapshotSeq + 1)

theorem copyFiles_eq_ok {foreignKeys : Bool} {snapshotID : ℕ} {db db' : Database}
    (h : db.copyFiles foreignKeys snapshotID = .ok db') :
    db' = { db with snapshotFiles := db.snapshotFiles ++ db.tables.snapshotRows snapshotID } := by
  rw [Database.copyFiles] at h
  split at h
  · cases h
  · split at h <;> cases h
    rfl

/-- The runs of the function of `CreateSnapshot` that return a snapshot. -/
theorem run_createSnapshotTx {rootHash comment : Bytes} {tx tx' : Tx Conn} {snap : Snapshot}
    (h : (createSnapshotTx rootHash comment).run (Tx.handle Query.error Conn.perform) tx =
      (.ok snap, tx')) :
    ∃ totalSize, sumSize 0 tx.state.db.tables.sizes = .ok totalSize ∧
      snap = ⟨tx.state.db.snapshotSeq + 1, rootHash, tx.state.db.tables.files.entries.length,
        totalSize, ofUnix tx.state.now, comment⟩ ∧
      tx'.state.db = tx.state.db.withSnapshot rootHash comment totalSize tx.state.now := by
  rw [createSnapshotTx, run_call] at h
  cases hf₀ : tx.fails tx.count with
  | some e =>
    rw [handle_of_fails hf₀] at h
    cases h
  | none =>
    rw [handle_of_spare hf₀] at h
    cases hsum : sumSize 0 tx.state.db.tables.sizes with
    | error e =>
      simp only [Conn.perform, Database.fileStats, hsum] at h
      cases h
    | ok totalSize =>
      simp only [Conn.perform, Database.fileStats, hsum, run_call] at h
      cases hf₁ : tx.fails (tx.count + 1) with
      | some e =>
        rw [handle_of_fails hf₁] at h
        cases h
      | none =>
        rw [handle_of_spare hf₁] at h
        simp only [Conn.perform, run_call] at h
        cases hf₂ : tx.fails (tx.count + 1 + 1) with
        | some e =>
          rw [handle_of_fails hf₂] at h
          cases h
        | none =>
          rw [handle_of_spare hf₂] at h
          generalize hdb : tx.state.db.insertSnapshot rootHash
            tx.state.db.tables.files.entries.length totalSize comment tx.state.now = db₁
            at h
          cases hcopy : db₁.copyFiles tx.state.foreignKeys
              (tx.state.db.snapshotSeq + 1) with
          | error e =>
            simp only [Conn.perform, hcopy] at h
            cases h
          | ok db₂ =>
            simp only [Conn.perform, hcopy] at h
            cases h
            refine ⟨totalSize, rfl, rfl, ?_⟩
            dsimp only
            rw [copyFiles_eq_ok hcopy, ← hdb]
            rfl

/-- **`CreateSnapshot`** fails and leaves the database, or takes a snapshot of its files. -/
theorem createSnapshot_cases (foreignKeys : Bool) (faults : Faults) (now : ℤ)
    (rootHash comment : Bytes) (db : Database) :
    (∃ e, createSnapshot foreignKeys faults now rootHash comment db = (.error e, db)) ∨
      ∃ totalSize, totalSize = db.tables.sizes.sum ∧
        createSnapshot foreignKeys faults now rootHash comment db =
          (.ok ⟨db.snapshotSeq + 1, rootHash, db.tables.files.entries.length, totalSize,
              ofUnix now, comment⟩,
            db.withSnapshot rootHash comment totalSize now) := by
  rcases runTx_cases Query.error Conn.perform Conn.db faults (createSnapshotTx rootHash comment)
    ⟨db, foreignKeys, now⟩ with he | ⟨snap, tx, hrun, heq⟩
  · exact .inl he
  · obtain ⟨totalSize, hsum, rfl, hdb⟩ := run_createSnapshotTx hrun
    refine .inr ⟨totalSize, by rw [sumSize_eq_ok hsum, Int.zero_add], ?_⟩
    rw [createSnapshot, Database.transaction, heq, hdb]

/-! ### Runs -/

/-- What is run on the database: a transaction over the files, that is any calls of `UpsertFile`,
`SetFileChunks` and `DeleteFile`, or `CreateSnapshot`; each on some connection, and with whatever
goes wrong. -/
inductive Change
  | files (foreignKeys : Bool) (faults : Faults) (now : ℤ)
      (fn : Prog Stmt Reply (Except Err Unit))
  | createSnapshot (foreignKeys : Bool) (faults : Faults) (now : ℤ) (rootHash comment : Bytes)

def Database.step (db : Database) : Change → Option Database
  | .files foreignKeys faults now fn =>
    some (db.transaction foreignKeys faults now (fileTx fn)).2
  | .createSnapshot foreignKeys faults now rootHash comment =>
    some (Db.createSnapshot foreignKeys faults now rootHash comment db).2

/-- The database after changes to a new one. -/
def Database.after (changes : List Change) : Option Database :=
  exec Database.step .empty changes

/-- One of the changes is a `CreateSnapshot` that returned `snap`; `db₀` is the database before
it. -/
def CreatedAt (changes : List Change) (db₀ : Database) (snap : Snapshot) : Prop :=
  ∃ before foreignKeys faults now rootHash comment after,
    changes = before ++ .createSnapshot foreignKeys faults now rootHash comment :: after ∧
    Database.after before = some db₀ ∧
    (createSnapshot foreignKeys faults now rootHash comment db₀).1 = .ok snap

/-- A change does nothing to the snapshots, or takes one. -/
inductive Moves (db : Database) : Change → Database → Prop
  | files (foreignKeys : Bool) (faults : Faults) (now : ℤ)
      (fn : Prog Stmt Reply (Except Err Unit)) (tables : Tables) :
      Moves db (.files foreignKeys faults now fn) { db with tables := tables }
  | failed (foreignKeys : Bool) (faults : Faults) (now : ℤ) (rootHash comment : Bytes) (e : Err)
      (h : createSnapshot foreignKeys faults now rootHash comment db = (.error e, db)) :
      Moves db (.createSnapshot foreignKeys faults now rootHash comment) db
  | taken (foreignKeys : Bool) (faults : Faults) (now : ℤ) (rootHash comment : Bytes)
      (h : createSnapshot foreignKeys faults now rootHash comment db =
        (.ok ⟨db.snapshotSeq + 1, rootHash, db.tables.files.entries.length, db.tables.sizes.sum,
            ofUnix now, comment⟩,
          db.withSnapshot rootHash comment db.tables.sizes.sum now)) :
      Moves db (.createSnapshot foreignKeys faults now rootHash comment)
        (db.withSnapshot rootHash comment db.tables.sizes.sum now)

theorem moves_of_step {db db' : Database} {change : Change} (h : db.step change = some db') :
    Moves db change db' := by
  cases change with
  | files foreignKeys faults now fn =>
    obtain rfl := Option.some.inj h
    rw [fileTx_eq]
    exact .files foreignKeys faults now fn _
  | createSnapshot foreignKeys faults now rootHash comment =>
    obtain rfl := Option.some.inj h
    rcases createSnapshot_cases foreignKeys faults now rootHash comment db with
      ⟨e, he⟩ | ⟨_, rfl, hok⟩
    · rw [he]
      exact .failed foreignKeys faults now rootHash comment e he
    · rw [hok]
      exact .taken foreignKeys faults now rootHash comment hok

/-- A creation among the changes is among the earlier ones, or the last of them. -/
theorem createdAt_concat {changes : List Change} {change : Change} {db₀ : Database}
    {snap : Snapshot} (h : CreatedAt (changes ++ [change]) db₀ snap) :
    CreatedAt changes db₀ snap ∨
      ∃ foreignKeys faults now rootHash comment,
        change = .createSnapshot foreignKeys faults now rootHash comment ∧
        Database.after changes = some db₀ ∧
        (createSnapshot foreignKeys faults now rootHash comment db₀).1 = .ok snap := by
  obtain ⟨before, foreignKeys, faults, now, rootHash, comment, after, heq, hdb₀, hsnap⟩ := h
  rcases List.eq_nil_or_concat after with rfl | ⟨after, last, rfl⟩
  · obtain ⟨rfl, hlast⟩ := List.append_inj' heq rfl
    exact .inr ⟨foreignKeys, faults, now, rootHash, comment, List.singleton_inj.1 hlast, hdb₀,
      hsnap⟩
  · rw [List.concat_eq_append, ← List.cons_append, ← List.append_assoc] at heq
    obtain ⟨rfl, -⟩ := List.append_inj' heq rfl
    exact .inl ⟨before, foreignKeys, faults, now, rootHash, comment, after, rfl, hdb₀, hsnap⟩

theorem CreatedAt.concat {changes : List Change} {db₀ : Database} {snap : Snapshot}
    (h : CreatedAt changes db₀ snap) (change : Change) :
    CreatedAt (changes ++ [change]) db₀ snap := by
  obtain ⟨before, foreignKeys, faults, now, rootHash, comment, after, rfl, hdb₀, hsnap⟩ := h
  refine ⟨before, foreignKeys, faults, now, rootHash, comment, after ++ [change], ?_, hdb₀, hsnap⟩
  rw [List.append_assoc, List.cons_append]

/-- The snapshot `snap` of the files of `t` is in the database. -/
structure Recorded (db : Database) (t : Tables) (snap : Snapshot) : Prop where
  id_le : snap.id ≤ db.snapshotSeq
  row : getSnapshot none db snap.id = .ok (some snap)
  files : db.snapshotFiles.filter (·.snapshotId = snap.id) = t.snapshotRows snap.id
  fileCount : snap.fileCount = t.files.entries.length
  totalSize : snap.totalSize = t.sizes.sum

/-- What holds after any changes: the numbers in use are not new, every snapshot was created, and
every snapshot that was created is recorded. -/
structure History (changes : List Change) (db : Database) : Prop where
  id_le : ∀ s ∈ db.snapshots, s.id ≤ db.snapshotSeq
  fileId_le : ∀ f ∈ db.snapshotFiles, f.snapshotId ≤ db.snapshotSeq
  created : ∀ s ∈ db.snapshots, ∃ db₀, CreatedAt changes db₀ s.snapshot
  recorded : ∀ db₀ snap, CreatedAt changes db₀ snap → Recorded db db₀.tables snap

theorem snapshotId_of_mem {t : Tables} {id : ℕ} {f : SnapshotFile} (h : f ∈ t.snapshotRows id) :
    f.snapshotId = id := by
  obtain ⟨e, -, rfl⟩ := List.mem_map.1 h
  rfl

theorem filter_snapshotRows_self (t : Tables) (id : ℕ) :
    (t.snapshotRows id).filter (·.snapshotId = id) = t.snapshotRows id :=
  List.filter_eq_self.2 fun f hf => by simpa using snapshotId_of_mem hf

theorem filter_snapshotRows_ne {id id' : ℕ} (h : id ≠ id') (t : Tables) :
    (t.snapshotRows id).filter (·.snapshotId = id') = [] :=
  List.filter_eq_nil_iff.2 fun f hf => by simpa [snapshotId_of_mem hf] using h

/-- A snapshot that is recorded stays so when another one is taken. -/
theorem Recorded.withSnapshot {db : Database} {t : Tables} {snap : Snapshot}
    (h : Recorded db t snap) (rootHash comment : Bytes) (totalSize now : ℤ) :
    Recorded (db.withSnapshot rootHash comment totalSize now) t snap where
  id_le := Nat.le_succ_of_le h.id_le
  row := by
    have hrow := Except.ok.inj h.row
    obtain ⟨s, hs, -⟩ := Option.map_eq_some_iff.1 hrow
    rw [getSnapshot, Database.withSnapshot]
    dsimp only
    rw [List.find?_append, hs, Option.some_or, ← hs, hrow]
  files := by
    have hne : db.snapshotSeq + 1 ≠ snap.id := (Nat.lt_succ_of_le h.id_le).ne'
    rw [Database.withSnapshot, List.filter_append, filter_snapshotRows_ne hne, List.append_nil,
      h.files]
  fileCount := h.fileCount
  totalSize := h.totalSize

/-- The snapshot that is taken is recorded. -/
theorem History.recorded_new {changes : List Change} {db : Database} (h : History changes db)
    (rootHash comment : Bytes) (now : ℤ) :
    Recorded (db.withSnapshot rootHash comment db.tables.sizes.sum now) db.tables
      ⟨db.snapshotSeq + 1, rootHash, db.tables.files.entries.length, db.tables.sizes.sum,
        ofUnix now, comment⟩ where
  id_le := le_rfl
  row := by
    have hnew : db.snapshots.find? (·.id = db.snapshotSeq + 1) = none := by
      rw [List.find?_eq_none]
      intro s hs
      simpa using (Nat.lt_succ_of_le (h.id_le s hs)).ne
    rw [getSnapshot, Database.withSnapshot]
    dsimp only
    rw [List.find?_append, hnew, Option.none_or]
    simp [SnapshotRow.snapshot]
  files := by
    have hnew : db.snapshotFiles.filter (·.snapshotId = db.snapshotSeq + 1) = [] := by
      rw [List.filter_eq_nil_iff]
      intro f hf
      simpa using (Nat.lt_succ_of_le (h.fileId_le f hf)).ne
    rw [Database.withSnapshot, List.filter_append, hnew, filter_snapshotRows_self, List.nil_append]
  fileCount := rfl
  totalSize := rfl

theorem history_empty : History [] .empty where
  id_le _ h := nomatch h
  fileId_le _ h := nomatch h
  created _ h := nomatch h
  recorded _ _ := by
    rintro ⟨before, _, _, _, _, _, after, heq, -⟩
    exact absurd heq.symm (List.append_ne_nil_of_right_ne_nil _ (List.cons_ne_nil _ _))

theorem History.created_concat {changes : List Change} {db : Database} (h : History changes db)
    (change : Change) {s : SnapshotRow} (hs : s ∈ db.snapshots) :
    ∃ db₀, CreatedAt (changes ++ [change]) db₀ s.snapshot := by
  obtain ⟨db₀, hc⟩ := h.created s hs
  exact ⟨db₀, hc.concat _⟩

/-- **Every change keeps the history.** -/
theorem History.step {changes : List Change} {db db' : Database} {change : Change}
    (hdb : Database.after changes = some db) (h : History changes db) (hm : Moves db change db') :
    History (changes ++ [change]) db' := by
  cases hm with
  | files foreignKeys faults now fn tables =>
    refine ⟨h.id_le, h.fileId_le, fun s => h.created_concat _, fun db₀ snap hc => ?_⟩
    rcases createdAt_concat hc with hc | ⟨_, _, _, _, _, heq, -⟩
    · have hr := h.recorded db₀ snap hc
      exact ⟨hr.id_le, hr.row, hr.files, hr.fileCount, hr.totalSize⟩
    · cases heq
  | failed foreignKeys faults now rootHash comment e herr =>
    refine ⟨h.id_le, h.fileId_le, fun s => h.created_concat _, fun db₀ snap hc => ?_⟩
    rcases createdAt_concat hc with hc | ⟨_, _, _, _, _, heq, hdb₀, hsnap⟩
    · exact h.recorded db₀ snap hc
    · cases heq
      obtain rfl : db = db₀ := Option.some.inj (hdb.symm.trans hdb₀)
      rw [herr] at hsnap
      cases hsnap
  | taken foreignKeys faults now rootHash comment hok =>
    refine ⟨?_, ?_, ?_, ?_⟩
    · intro s hs
      rcases List.mem_append.1 hs with hs | hs
      · exact Nat.le_succ_of_le (h.id_le s hs)
      · rw [List.mem_singleton.1 hs]
        exact le_rfl
    · intro f hf
      rcases List.mem_append.1 hf with hf | hf
      · exact Nat.le_succ_of_le (h.fileId_le f hf)
      · exact (snapshotId_of_mem hf).le
    · intro s hs
      rcases List.mem_append.1 hs with hs | hs
      · exact h.created_concat _ hs
      · rw [List.mem_singleton.1 hs]
        exact ⟨db, changes, foreignKeys, faults, now, rootHash, comment, [], rfl, hdb,
          congrArg Prod.fst hok⟩
    · intro db₀ snap hc
      rcases createdAt_concat hc with hc | ⟨_, _, _, _, _, heq, hdb₀, hsnap⟩
      · exact (h.recorded db₀ snap hc).withSnapshot rootHash comment _ now
      · cases heq
        obtain rfl : db = db₀ := Option.some.inj (hdb.symm.trans hdb₀)
        rw [hok] at hsnap
        obtain rfl := Except.ok.inj hsnap
        exact h.recorded_new rootHash comment now

/-- The history of any changes. -/
theorem history {changes : List Change} {db : Database} (h : Database.after changes = some db) :
    History changes db :=
  exec_history (Q := History) history_empty
    (fun _ _ _ _ hdb hist hs => hist.step hdb (moves_of_step hs)) h

/-! ### What is read back -/

/-- `files` are the files of `t`, under the number of a snapshot and in the order of their paths. -/
structure ShowsFiles (files : List SnapshotFile) (id : ℕ) (t : Tables) : Prop where
  ordered : files.Pairwise fun a b => a.filePath ≤ b.filePath
  nodup : (files.map (·.filePath)).Nodup
  mem : ∀ f, f ∈ files ↔ f.snapshotId = id ∧ ∃ row, t.files.lookup f.filePath = some row ∧
    row.merkleRoot = f.merkleRoot ∧ row.size = f.size

theorem perm_orderByPath (files : List SnapshotFile) : (orderByPath files).Perm files :=
  List.perm_insertionSort _ files

theorem ordered_orderByPath (files : List SnapshotFile) :
    (orderByPath files).Pairwise fun a b => a.filePath ≤ b.filePath := by
  have htotal : Std.Total fun a b : SnapshotFile => a.filePath ≤ b.filePath :=
    ⟨fun a b => List.le_total _ _⟩
  have htrans : IsTrans SnapshotFile fun a b => a.filePath ≤ b.filePath :=
    ⟨fun _ _ _ => List.le_trans⟩
  exact List.pairwise_insertionSort _ files

theorem mem_snapshotRows {t : Tables} {id : ℕ} {f : SnapshotFile} :
    f ∈ t.snapshotRows id ↔ f.snapshotId = id ∧ ∃ row, t.files.lookup f.filePath = some row ∧
      row.merkleRoot = f.merkleRoot ∧ row.size = f.size := by
  constructor
  · intro h
    obtain ⟨⟨path, row⟩, he, rfl⟩ := List.mem_map.1 h
    exact ⟨rfl, row, AList.mem_lookup_iff.2 he, rfl, rfl⟩
  · rintro ⟨rfl, row, hrow, hroot, hsize⟩
    refine List.mem_map.2 ⟨⟨f.filePath, row⟩, AList.mem_lookup_iff.1 hrow, ?_⟩
    dsimp only
    rw [hroot, hsize]

theorem nodup_snapshotRows (t : Tables) (id : ℕ) :
    ((t.snapshotRows id).map (·.filePath)).Nodup := by
  rw [Tables.snapshotRows, List.map_map]
  exact t.files.nodupKeys

theorem showsFiles_orderByPath (t : Tables) (id : ℕ) :
    ShowsFiles (orderByPath (t.snapshotRows id)) id t where
  ordered := ordered_orderByPath _
  nodup := (((perm_orderByPath _).map _).nodup_iff).2 (nodup_snapshotRows t id)
  mem _ := (perm_orderByPath _).mem_iff.trans mem_snapshotRows

/-- **Snapshots are consistent and do not change.**  After any changes to a new database, every
row of `snapshots` is a snapshot that one of them created.  And for every snapshot that was created,
whatever came later: `GetSnapshot` returns what `CreateSnapshot` did, its count and its total size
are those of its rows in `snapshot_files`, and `GetSnapshotFiles` returns, in the order of their
paths, the files the table held when it was created. -/
theorem snapshots_immutable {changes : List Change} {db : Database}
    (h : Database.after changes = some db) :
    (∀ s ∈ db.snapshots, ∃ db₀, CreatedAt changes db₀ s.snapshot) ∧
      ∀ db₀ snap, CreatedAt changes db₀ snap →
        getSnapshot none db snap.id = .ok (some snap) ∧
        snap.fileCount = (db.snapshotFiles.filter (·.snapshotId = snap.id)).length ∧
        snap.totalSize =
          ((db.snapshotFiles.filter (·.snapshotId = snap.id)).map (·.size)).sum ∧
        ∃ files, getSnapshotFiles none db snap.id = .ok files ∧
          ShowsFiles files snap.id db₀.tables := by
  have hist := history h
  refine ⟨hist.created, fun db₀ snap hc => ?_⟩
  have hr := hist.recorded db₀ snap hc
  refine ⟨hr.row, ?_, ?_, _, rfl, ?_⟩
  · rw [hr.files, hr.fileCount, Tables.snapshotRows, List.length_map]
  · rw [hr.files, hr.totalSize, Tables.snapshotRows, List.map_map]
    rfl
  · rw [hr.files]
    exact showsFiles_orderByPath db₀.tables snap.id

/-- A snapshot of one file, after which the file is deleted. -/
theorem snapshots_immutable_deleted :
    let update : Change := .files true {} 3 (updateTx ⟨0, [97], [1], 5, 0, 1⟩ [[1]] [5])
    let delete : Change := .files true {} 4 (deleteTx [97])
    ∃ db db₀ snap files, Database.after [update, .createSnapshot true {} 4 [2] [], delete] =
        some db ∧ db.tables.files.lookup [97] = none ∧
      CreatedAt [update, .createSnapshot true {} 4 [2] [], delete] db₀ snap ∧
      getSnapshotFiles none db snap.id = .ok files ∧ ShowsFiles files snap.id db₀.tables := by
  intro update delete
  have hc : ∃ db₀ snap, CreatedAt [update, .createSnapshot true {} 4 [2] [], delete] db₀ snap :=
    ⟨_, _, [update], true, {}, 4, [2], [], [delete], rfl, rfl, rfl⟩
  obtain ⟨db₀, snap, hc⟩ := hc
  obtain ⟨-, -, -, files, hfiles, hshows⟩ := (snapshots_immutable rfl).2 db₀ snap hc
  exact ⟨_, db₀, snap, files, rfl, rfl, hc, hfiles, hshows⟩

end FileSync.Db
