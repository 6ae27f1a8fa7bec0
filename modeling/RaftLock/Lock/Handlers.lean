import RaftLock.Lock.Timed
import RaftLock.Raft.Handlers

/-!
The request handlers of `server.c`, one access to shared memory at a time.

All clients share one `current_log_entry`, and each has at most one handler
running here. A handler is between two calls of the timed lock or inside one of
them; the state of the Raft module is read where the source reads it. A string
that does not fit its array leaves the array, and such a step is not taken
here.
-/

namespace RaftLock

abbrev eTransactionLimit : ℤ := -6
abbrev eLost : ℤ := -9
abbrev fileNameSize : ℕ := 256

inductive LockRequest
  | acquire
  | release (term id : ℤ)
  | append (filename buffer : Bytes)
  deriving DecidableEq, Repr

/-- What a handler leaves in `message`: a text, or the term and the id of the
transaction. -/
inductive Message
  | text (s : String)
  | tag (term id : ℤ)
  deriving DecidableEq, Repr

structure Reply where
  rc : ℤ
  message : Message
  deriving DecidableEq, Repr

/-- Where the handler of a client stands. In `acquire`, `releasePause`,
`releaseReset`, `releaseUnlock`, `append` and `appendReset` it has called the
lock and waits for the call to return. -/
inductive HandlerPc
  | returned (reply : Reply)
  | acquire
  | acquireClear (k : ℕ)
  | acquireClient
  | acquireId
  | acquireTerm
  | acquireTag (term : ℤ)
  | release (term id : ℤ)
  | releasePause (term id : ℤ)
  | releaseAppend (term id : ℤ)
  | releaseReset (term id : ℤ)
  | releaseUnlock (term id : ℤ)
  | releasePoll (term id : ℤ)
  | append (filename buffer : Bytes)
  | appendSlot (filename buffer : Bytes) (i : ℕ)
  | appendReset (filename buffer : Bytes) (result : ℤ)
  deriving DecidableEq, Repr

/-- The operation of the lock a handler has called. -/
def HandlerPc.calls : HandlerPc → Option LockOp
  | .acquire => some .acquire
  | .releasePause _ _ | .append _ _ => some .pauseIfOwner
  | .releaseReset _ _ | .appendReset _ _ _ => some .resetIfOwner
  | .releaseUnlock _ _ => some .release
  | _ => none

/-- The globals of `server.c` and its running handlers. `acked` holds the
writes acknowledged to a client since its last successful acquire. -/
structure LockServer where
  lock : TimedLock
  currentLogEntry : LogEntry
  handler : ℤ → HandlerPc
  acked : ℤ → List TransactionEntry

def blank : TransactionEntry := ⟨[], []⟩

namespace LockServer

def init : LockServer :=
  { lock := .init
    currentLogEntry := ⟨0, 0, .clientLog, 0, 0, List.replicate maxTransactionEntries blank⟩
    handler := fun _ => .returned ⟨0, .text ""⟩
    acked := fun _ => [] }

def goto (s : LockServer) (c : ℤ) (pc : HandlerPc) : LockServer :=
  { s with handler := Function.update s.handler c pc }

/-- The handler calls the lock. -/
def enter (s : LockServer) (c : ℤ) (op : LockOp) (pc : HandlerPc) : LockServer :=
  { s.goto c pc with lock := s.lock.goto c (TimedLock.start op) }

@[simp] theorem goto_handler (s : LockServer) (c : ℤ) (p : HandlerPc) :
    (s.goto c p).handler c = p := by
  simp [goto]

@[simp] theorem goto_entry (s : LockServer) (c : ℤ) (p : HandlerPc) :
    (s.goto c p).currentLogEntry = s.currentLogEntry := rfl

@[simp] theorem enter_handler (s : LockServer) (c : ℤ) (op : LockOp) (p : HandlerPc) :
    (s.enter c op p).handler c = p := by
  simp [enter]

@[simp] theorem enter_pc (s : LockServer) (c : ℤ) (op : LockOp) (p : HandlerPc) :
    (s.enter c op p).lock.pc c = TimedLock.start op := by
  simp [enter]

/-- A handler is called for a client that has none running. `handle_packet` does
not ask for that; its threads are in `Lock/Threads`. -/
def accept (s : LockServer) (c : ℤ) (request : LockRequest) : Option LockServer :=
  match s.handler c with
  | .returned _ =>
    if c = -1 then none
    else some (match request with
      | .acquire => s.enter c .acquire .acquire
      | .release term id => s.goto c (.release term id)
      | .append filename buffer => s.enter c .pauseIfOwner (.append filename buffer))
  | _ => none

def setSlot (s : LockServer) (k : ℕ) (d : TransactionEntry) : LockServer :=
  { s with currentLogEntry :=
      { s.currentLogEntry with data := s.currentLogEntry.data.set k d } }

/-- The end of `handle_append_file`. -/
def endAppend (s : LockServer) (c : ℤ) (filename buffer : Bytes) (result : ℤ) : LockServer :=
  s.enter c .resetIfOwner (.appendReset filename buffer result)

/-- One turn of the loop of `handle_append_file`. -/
def appendTurn (s : LockServer) (c : ℤ) (filename buffer : Bytes) (i : ℕ) : Option LockServer :=
  if i < maxTransactionEntries then
    let d := s.currentLogEntry.data.getD i blank
    if cstr d.filename = [] then
      if (cstr filename).length < fileNameSize ∧ (cstr buffer).length < bufferSize then
        some ((s.setSlot i ⟨cstr filename, cstr buffer⟩).endAppend c filename buffer 0)
      else none
    else if cstr d.filename = cstr filename then
      if (cstr d.buffer).length + (cstr buffer).length < bufferSize then
        some ((s.setSlot i { d with buffer := cstr d.buffer ++ cstr buffer }).endAppend c
          filename buffer 0)
      else none
    else some (s.goto c (.appendSlot filename buffer (i + 1)))
  else some (s.endAppend c filename buffer eTransactionLimit)

/-- The next access of the handler of `c` outside the lock; `rc` is what its
last call of the lock returned. The second component is the entry handed to
`Raft_append_entry`. -/
def resume (s : LockServer) (raft : RaftState) (c rc : ℤ) :
    Option (LockServer × Option LogEntry) :=
  match s.handler c with
  | .returned _ => none
  | .acquire =>
    if rc < 0 then
      some (s.goto c (.returned ⟨eLock, .text "the client already has the lock\n"⟩), none)
    else some (s.goto c (.acquireClear 0), none)
  | .acquireClear k =>
    if k < maxTransactionEntries then
      some ((s.setSlot k blank).goto c (.acquireClear (k + 1)), none)
    else some (s.goto c .acquireClient, none)
  | .acquireClient =>
    some ({ s.goto c .acquireId with
      currentLogEntry := { s.currentLogEntry with client := c } }, none)
  | .acquireId =>
    some ({ s.goto c .acquireTerm with
      currentLogEntry := { s.currentLogEntry with id := s.currentLogEntry.id + 1 } }, none)
  | .acquireTerm => some (s.goto c (.acquireTag raft.currentTerm), none)
  | .acquireTag term =>
    some ({ s.goto c (.returned ⟨0, .tag term s.currentLogEntry.id⟩) with
      acked := Function.update s.acked c [] }, none)
  | .release term id =>
    if term = raft.currentTerm then
      some (s.enter c .pauseIfOwner (.releasePause term id), none)
    else some (s.goto c (.releasePoll term id), none)
  | .releasePause term id =>
    if rc = 0 then some (s.goto c (.releaseAppend term id), none)
    else some (s.enter c .release (.releaseUnlock term id), none)
  | .releaseAppend term id =>
    some (s.enter c .resetIfOwner (.releaseReset term id), some s.currentLogEntry)
  | .releaseReset term id => some (s.enter c .release (.releaseUnlock term id), none)
  | .releaseUnlock term id =>
    if rc < 0 then
      some (s.goto c (.returned ⟨eLockExp, .text "lock released before being acquired"⟩), none)
    else some (s.goto c (.releasePoll term id), none)
  | .releasePoll term id =>
    if isEntryCommitted raft term id = 0 then some (s, none)
    else if isEntryCommitted raft term id = 1 then
      some (s.goto c (.returned ⟨0, .text "lock released"⟩), none)
    else some (s.goto c (.returned ⟨eLost, .text "transaction lost"⟩), none)
  | .append filename buffer =>
    if rc < 0 then
      some (s.goto c (.returned
        ⟨eLockExp, .text "trying to write to file without holding a lock"⟩), none)
    else some (s.goto c (.appendSlot filename buffer 0), none)
  | .appendSlot filename buffer i => (s.appendTurn c filename buffer i).map fun s => (s, none)
  | .appendReset filename buffer result =>
    if result = eTransactionLimit then
      some (s.goto c (.returned
        ⟨result, .text "too many files modified within one transaction"⟩), none)
    else
      some ({ s.goto c (.returned ⟨result, .text "success"⟩) with
        acked := Function.update s.acked c (s.acked c ++ [⟨cstr filename, cstr buffer⟩]) }, none)

/-- The next access of the handler of `c`: inside the call of the lock it has
made, or after it. -/
def step (s : LockServer) (raft : RaftState) (c : ℤ) : Option (LockServer × Option LogEntry) :=
  match s.lock.pc c with
  | .outside rc => s.resume raft c rc
  | _ => (s.lock.advance c).map fun lock => ({ s with lock }, none)

end LockServer

/-- The steps of the handlers of one server. The state of the Raft module may
be any at each of them. -/
inductive HandlerAction
  | accept (c : ℤ) (request : LockRequest)
  | step (c : ℤ) (raft : RaftState)
  | fire

namespace LockServer

def exec (s : LockServer) : HandlerAction → Option LockServer
  | .accept c request => s.accept c request
  | .step c raft => (s.step raft c).map Prod.fst
  | .fire => s.lock.fire.map fun lock => { s with lock }

end LockServer

end RaftLock
