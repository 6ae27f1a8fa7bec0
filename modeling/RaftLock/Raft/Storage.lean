import RaftLock.Raft.Types

/-!
The files of one server: `raft_storage_manager.c` and the commit handler of
`server.c`, which writes the same directory.

A file system maps a directory and a name to contents, or to nothing when
there is no such file. Calls on it are taken to succeed. A directory is only
a part of a name, so `mkdir` and `rmdir` leave no trace here; what the
program can observe of a missing directory is that the files in it are
missing, and that is what the map says.
-/

namespace RaftLock

/-- `snapshot_<id>/` for an id, and the main directory for `-1`: the two
cases of `Raft_get_snapshot_path`. -/
inductive Dir
  | main
  | snapshot (id : ℤ)
  deriving DecidableEq, Repr

def getSnapshotPath (id : ℤ) : Dir := if id = -1 then .main else .snapshot id

abbrev FileSystem := Dir → Bytes → Option Bytes

def byteOfChar (c : Char) : UInt8 := c.toNat.toUInt8

/-- `sprintf(path, "file_%i", k)`. -/
def fileName (k : ℕ) : Bytes :=
  (['f', 'i', 'l', 'e', '_'] ++ Nat.toDigits 10 k).map byteOfChar

namespace FileSystem

def write (fs : FileSystem) (d : Dir) (name : Bytes) (content : Option Bytes) : FileSystem :=
  fun d' name' => if d' = d ∧ name' = name then content else fs d' name'

/-- `fopen(path, "a")`, `fprintf(f, "%s", buffer)`, `fclose(f)`. -/
def appendTo (fs : FileSystem) (d : Dir) (name buffer : Bytes) : FileSystem :=
  fs.write d (cstr name) (some ((fs d (cstr name)).getD [] ++ cstr buffer))

/-- One turn of the loop of `Raft_remove_snapshot`. -/
def removeFile (id : ℤ) (fs : FileSystem) (k : ℕ) : FileSystem :=
  fs.write (getSnapshotPath id) (fileName k) none

def removeSnapshot (fs : FileSystem) (id : ℤ) : FileSystem :=
  (List.range 100).foldl (removeFile id) fs

def cleanMainFiles (fs : FileSystem) : FileSystem :=
  (List.range 100).foldl (fun fs k => fs.write .main (fileName k) (some [])) fs

/-- One turn of the loop of `Raft_copy_snapshot`: a file the source does not
have leaves the destination as it is. -/
def copyFile (src dst : ℤ) (fs : FileSystem) (k : ℕ) : FileSystem :=
  match fs (getSnapshotPath src) (fileName k) with
  | none => fs
  | some content => fs.write (getSnapshotPath dst) (fileName k) (some content)

def copySnapshot (fs : FileSystem) (src dst : ℤ) : FileSystem :=
  (List.range 100).foldl (copyFile src dst) fs

def addToSnapshot (fs : FileSystem) (id : ℤ) (filename buffer : Bytes) : FileSystem :=
  fs.appendTo (getSnapshotPath id) filename buffer

/-- `handle_raft_commit` of `server.c`. -/
def handleRaftCommit (fs : FileSystem) (e : LogEntry) : FileSystem :=
  e.writes.foldl (fun fs d => fs.appendTo .main d.filename d.buffer) fs

end FileSystem

/-- `snapshot_iterator_t`. The open file is what is left to read of it: the
files of a finished snapshot are not written again while it is read. -/
structure SnapshotIterator where
  fileno : ℤ
  f : Option Bytes
  snapshotId : ℤ
  deriving DecidableEq, Repr

def snapshotItInit (snapshotId : ℤ) : SnapshotIterator := ⟨-1, none, snapshotId⟩

/-- The inner loop of `snapshot_it_get_next`: open the next file there is.
Each turn raises `fileno`, so at most a hundred turns are made. -/
def SnapshotIterator.openNext (fs : FileSystem) : ℕ → SnapshotIterator → SnapshotIterator
  | 0, it => it
  | turns + 1, it =>
    match it.f with
    | some _ => it
    | none =>
      let it := { it with fileno := it.fileno + 1 }
      if it.fileno ≥ 100 then it
      else openNext fs turns
        { it with f := fs (getSnapshotPath it.snapshotId) (fileName it.fileno.toNat) }

/-- `snapshot_it_get_next`: the next block of at most `BUFFER_SIZE` bytes,
padded with zeros, or nothing when every file has been read. -/
def SnapshotIterator.getNext (fs : FileSystem) (it : SnapshotIterator) :
    SnapshotIterator × Option (Bytes × Bytes) :=
  let it := it.openNext fs 101
  match it.f with
  | none => (it, none)
  | some rest =>
    let block := rest.take bufferSize
    let buffer := block ++ List.replicate (bufferSize - block.length) 0
    let f := if block.length < bufferSize then none else some (rest.drop bufferSize)
    ({ it with f }, some (fileName it.fileno.toNat, buffer))

end RaftLock
