import Mathlib.Data.Finset.Card
import RaftLock.Lock.Isolation
import RaftLock.Recovery.Files

/-!
What the writes of one transaction come to.

`handle_append_file` collects the writes of a session in ten slots, one for
each file, in the order in which the files are first named;
`handle_raft_commit` goes through the slots up to the first one without a
name. Writing file by file comes to the same as writing call by call, because
the writes to one file keep their order and different files do not meet.

The buffer of a slot is an array of `BUFFER_SIZE` characters and every write
to its file is appended by `strcat`, which knows nothing of that.
-/

namespace RaftLock

open Appends

/-! ### The handler on the array -/

/-- The loop of `handle_append_file` from slot `i` on: the array it leaves and
its result. A string that does not fit its field runs out of it, and then there
is no result. -/
def appendFileFrom (data : List TransactionEntry) (filename buffer : Bytes) :
    ℕ → ℕ → Option (List TransactionEntry × ℤ)
  | 0, _ => some (data, eTransactionLimit)
  | turns + 1, i =>
    let d := data.getD i blank
    if cstr d.filename = [] then
      if (cstr filename).length < fileNameSize ∧ (cstr buffer).length < bufferSize then
        some (data.set i ⟨cstr filename, cstr buffer⟩, 0)
      else none
    else if cstr d.filename = cstr filename then
      if (cstr d.buffer).length + (cstr buffer).length < bufferSize then
        some (data.set i { d with buffer := cstr d.buffer ++ cstr buffer }, 0)
      else none
    else appendFileFrom data filename buffer turns (i + 1)

/-- `handle_append_file` of the client that has the lock. -/
def handleAppendFile (data : List TransactionEntry) (filename buffer : Bytes) :
    Option (List TransactionEntry × ℤ) :=
  appendFileFrom data filename buffer maxTransactionEntries 0

/-- The array after `handle_lock_acquire`. -/
def clearedData : List TransactionEntry := List.replicate maxTransactionEntries blank

/-- A call, after which the calls with the result `0` are listed too. -/
def appendCall (state : List TransactionEntry × List TransactionEntry) (w : TransactionEntry) :
    Option (List TransactionEntry × List TransactionEntry) :=
  (handleAppendFile state.1 w.filename w.buffer).map fun (data, rc) =>
    (data, if rc = 0 then state.2 ++ [w] else state.2)

/-- The calls of a session one after the other. -/
def appendCalls (ws : List TransactionEntry) :
    Option (List TransactionEntry × List TransactionEntry) :=
  ws.foldlM appendCall (clearedData, [])

section Handler

variable {s : LockServer} {c rc result : ℤ} {filename buffer : Bytes}
  {data : List TransactionEntry} {turns i : ℕ}

/-- A turn of the loop is a step of the server. -/
theorem appendTurn_steps {s' : LockServer} (hc : s.handler c = .appendSlot filename buffer i)
    (hl : s.lock.pc c = .outside rc) (h : s.appendTurn c filename buffer i = some s')
    (raft : RaftState) : s.exec (.step c raft) = some s' := by
  simp only [LockServer.exec, LockServer.step, hl, LockServer.resume, hc, h, Option.map_some]

/-- The handler of the server does to the shared entry, turn by turn, what the
function does to an array. -/
theorem appendFileFrom_reaches (hc : s.handler c = .appendSlot filename buffer i)
    (hl : s.lock.pc c = .outside rc) (hturns : turns + i = maxTransactionEntries)
    (h : appendFileFrom s.currentLogEntry.data filename buffer turns i = some (data, result)) :
    ∃ s' : LockServer, s'.currentLogEntry = { s.currentLogEntry with data } ∧
      s'.lock = s.lock ∧ Machine.Reaches LockServer.exec s
        (s'.endAppend c filename buffer result) := by
  have hstep := fun (s' : LockServer) (h : s.appendTurn c filename buffer i = some s') =>
    appendTurn_steps hc hl h (serverInit (fun i => i.val) 0)
  induction turns generalizing s i with
  | zero =>
      simp only [appendFileFrom, Option.some.injEq, Prod.mk.injEq] at h
      obtain ⟨rfl, rfl⟩ := h
      refine ⟨s, rfl, rfl, .single ⟨_, trivial, hstep _ ?_⟩⟩
      rw [LockServer.appendTurn, if_neg (by omega)]
  | succ turns ih =>
      have hi : i < maxTransactionEntries := by omega
      simp only [appendFileFrom] at h
      split_ifs at h with hname hfits hmatch hroom
      · simp only [Option.some.injEq, Prod.mk.injEq] at h
        obtain ⟨rfl, rfl⟩ := h
        refine ⟨s.setSlot i ⟨cstr filename, cstr buffer⟩, rfl, rfl,
          .single ⟨_, trivial, hstep _ ?_⟩⟩
        simp only [LockServer.appendTurn, if_pos hi, if_pos hname, if_pos hfits]
      · simp only [Option.some.injEq, Prod.mk.injEq] at h
        obtain ⟨rfl, rfl⟩ := h
        refine ⟨s.setSlot i { s.currentLogEntry.data.getD i blank with
          buffer := cstr (s.currentLogEntry.data.getD i blank).buffer ++ cstr buffer }, rfl, rfl,
          .single ⟨_, trivial, hstep _ ?_⟩⟩
        simp only [LockServer.appendTurn, if_pos hi, if_neg hname, if_pos hmatch, if_pos hroom]
      · have hnext : s.exec (.step c (serverInit (fun i => i.val) 0)) =
            some (s.goto c (.appendSlot filename buffer (i + 1))) := by
          refine hstep _ ?_
          simp only [LockServer.appendTurn, if_pos hi, if_neg hname, if_neg hmatch]
        have hc' := LockServer.goto_handler s c (.appendSlot filename buffer (i + 1))
        obtain ⟨s', hentry, hlock, hreach⟩ := ih (s := s.goto c _) hc' hl (by omega) h
          fun s'' h'' => appendTurn_steps hc' hl h'' _
        exact ⟨s', hentry, hlock, hreach.head ⟨_, trivial, hnext⟩⟩

end Handler

/-! ### The files of a transaction -/

/-- A call as the program reads it: two strings. -/
def text (w : TransactionEntry) : TransactionEntry := ⟨cstr w.filename, cstr w.buffer⟩

def named (ws : List TransactionEntry) : Finset Bytes := (ws.map TransactionEntry.filename).toFinset

def pairs (ws : List TransactionEntry) : List (Bytes × Bytes) :=
  ws.map fun w => (w.filename, w.buffer)

/-- What the calls write to a file. -/
def bytesFor (name : Bytes) (ws : List TransactionEntry) : Bytes := bytesTo name (pairs ws)

theorem mem_named {ws : List TransactionEntry} {name : Bytes} :
    name ∈ named ws ↔ ∃ w ∈ ws, w.filename = name := by
  simp [named]

theorem exists_mem_pairs {ws : List TransactionEntry} {name : Bytes} :
    (∃ w ∈ pairs ws, w.1 = name) ↔ ∃ w ∈ ws, w.filename = name := by
  simp [pairs]

theorem bytesFor_append (name : Bytes) (ws ws' : List TransactionEntry) :
    bytesFor name (ws ++ ws') = bytesFor name ws ++ bytesFor name ws' := by
  rw [bytesFor, pairs, List.map_append, bytesTo_append]
  rfl

theorem bytesFor_singleton (name : Bytes) (w : TransactionEntry) :
    bytesFor name [w] = if w.filename = name then w.buffer else [] := by
  simp [bytesFor, pairs, bytesTo]

theorem bytesFor_cons (name : Bytes) (d : TransactionEntry) (ds : List TransactionEntry) :
    bytesFor name (d :: ds) = (if d.filename = name then d.buffer else []) ++ bytesFor name ds := by
  rw [← List.singleton_append, bytesFor_append, bytesFor_singleton]

theorem bytesFor_of_notMem {ws : List TransactionEntry} {name : Bytes}
    (h : ∀ w ∈ ws, w.filename ≠ name) : bytesFor name ws = [] :=
  bytesTo_of_notMem (by simpa [pairs] using h)

section Transaction

variable {ds ws : List TransactionEntry} {d w : TransactionEntry}

theorem filenames_addWrite (ds : List TransactionEntry) (w : TransactionEntry) :
    (addWrite ds w).map TransactionEntry.filename =
      if w.filename ∈ ds.map TransactionEntry.filename then ds.map TransactionEntry.filename
      else ds.map TransactionEntry.filename ++ [w.filename] := by
  induction ds with
  | nil => rfl
  | cons d ds ih =>
      rw [addWrite]
      by_cases hd : d.filename = w.filename
      · simp [hd]
      · rw [if_neg hd, List.map_cons, ih]
        by_cases hw : w.filename ∈ ds.map TransactionEntry.filename
        · simp [hw]
        · rw [if_neg hw, if_neg]
          · rfl
          · rw [List.map_cons, List.mem_cons]
            exact fun h => h.elim (fun heq => hd heq.symm) hw

theorem nodup_transaction (ws : List TransactionEntry) :
    ((transaction ws).map TransactionEntry.filename).Nodup := by
  induction ws using List.reverseRecOn with
  | nil => exact List.nodup_nil
  | append_singleton ws w ih =>
      rw [transaction_append, filenames_addWrite]
      split_ifs with hw
      · exact ih
      · exact List.nodup_append.mpr ⟨ih, List.nodup_singleton _, by
          intro a ha b hb heq
          rw [List.mem_singleton] at hb
          exact hw (hb ▸ heq ▸ ha)⟩

theorem mem_filenames_addWrite {name : Bytes} :
    name ∈ (addWrite ds w).map TransactionEntry.filename ↔
      name ∈ ds.map TransactionEntry.filename ∨ name = w.filename := by
  rw [filenames_addWrite]
  split_ifs with hw
  · exact ⟨Or.inl, fun h => h.elim id fun heq => heq ▸ hw⟩
  · rw [List.mem_append, List.mem_singleton]

theorem named_transaction_eq (ws : List TransactionEntry) : named (transaction ws) = named ws := by
  ext name
  unfold named
  rw [List.mem_toFinset, List.mem_toFinset]
  induction ws using List.reverseRecOn with
  | nil => rfl
  | append_singleton ws w ih =>
      rw [transaction_append, mem_filenames_addWrite, ih, List.map_append, List.mem_append,
        List.map_singleton, List.mem_singleton]

/-- One slot for each file. -/
theorem length_transaction (ws : List TransactionEntry) :
    (transaction ws).length = (named ws).card := by
  rw [← named_transaction_eq, named, List.toFinset_card_of_nodup (nodup_transaction ws),
    List.length_map]

/-- In the buffer of a slot the writes to its file keep their order. -/
theorem bytesFor_addWrite (hds : (ds.map TransactionEntry.filename).Nodup) (name : Bytes) :
    bytesFor name (addWrite ds w) = bytesFor name ds ++ bytesFor name [w] := by
  induction ds with
  | nil => rfl
  | cons d ds ih =>
      rw [List.map_cons, List.nodup_cons] at hds
      rw [addWrite]
      split_ifs with hd
      · rw [bytesFor_cons, bytesFor_cons, bytesFor_singleton]
        by_cases hname : d.filename = name
        · have hrest : bytesFor name ds = [] := by
            refine bytesFor_of_notMem fun x hx heq => hds.1 ?_
            rw [hname, ← heq]
            exact List.mem_map_of_mem hx
          rw [if_pos hname, if_pos hname, if_pos (hd ▸ hname), hrest, List.append_nil,
            List.append_nil]
        · rw [if_neg hname, if_neg hname, if_neg (hd ▸ hname), List.append_nil]
      · rw [bytesFor_cons, bytesFor_cons, ih hds.2, List.append_assoc]

theorem bytesFor_transaction (name : Bytes) (ws : List TransactionEntry) :
    bytesFor name (transaction ws) = bytesFor name ws := by
  induction ws using List.reverseRecOn with
  | nil => rfl
  | append_singleton ws w ih =>
      rw [transaction_append, bytesFor_addWrite (nodup_transaction ws), ih, bytesFor_append]

/-- The buffer of a slot. -/
theorem buffer_eq (hd : d ∈ transaction ws) : d.buffer = bytesFor d.filename ws := by
  rw [← bytesFor_transaction]
  have hnodup := nodup_transaction ws
  generalize transaction ws = ds at hd hnodup
  induction ds with
  | nil => exact absurd hd (by simp)
  | cons x ds ih =>
      rw [List.map_cons, List.nodup_cons] at hnodup
      rw [bytesFor_cons]
      rcases List.mem_cons.mp hd with rfl | hd
      · rw [if_pos rfl, bytesFor_of_notMem, List.append_nil]
        exact fun y hy heq => hnodup.1 (heq ▸ List.mem_map_of_mem hy)
      · have hne : x.filename ≠ d.filename :=
          fun heq => hnodup.1 (heq ▸ List.mem_map_of_mem hd)
        rw [if_neg hne, List.nil_append]
        exact ih hd hnodup.2

end Transaction

/-! ### The slots -/

/-- A new file, and all slots are taken. -/
def Refused (cs : List TransactionEntry) (w : TransactionEntry) : Prop :=
  w.filename ∉ named cs ∧ maxTransactionEntries ≤ (named cs).card

instance (cs : List TransactionEntry) (w : TransactionEntry) : Decidable (Refused cs w) :=
  inferInstanceAs (Decidable (_ ∧ _))

/-- A call that writes has room in the buffer of its file. -/
def HasSpace (cs : List TransactionEntry) (w : TransactionEntry) : Prop :=
  Refused cs w ∨ (bytesFor w.filename cs).length + w.buffer.length < bufferSize

/-- The calls whose bytes are kept, after one more. A call that names no file
takes a free slot and leaves it free. -/
def keep (cs : List TransactionEntry) (w : TransactionEntry) : List TransactionEntry :=
  if w.filename = [] ∨ Refused cs w then cs else cs ++ [w]

def kept (ws : List TransactionEntry) : List TransactionEntry :=
  ws.foldl (fun cs w => keep cs (text w)) []

/-- The array holds the files of the transaction in its first slots, and no
name after them. -/
structure Slots (data cs : List TransactionEntry) : Prop where
  names : ∀ w ∈ cs, Named w
  length : data.length = maxTransactionEntries
  room : (transaction cs).length ≤ maxTransactionEntries
  used : ∀ (i : ℕ) (d : TransactionEntry), (transaction cs)[i]? = some d → data[i]? = some d
  free : ∀ i, (transaction cs).length ≤ i → cstr (data.getD i blank).filename = []

section Slots

variable {data cs : List TransactionEntry} {w : TransactionEntry} {i : ℕ}

theorem slots_cleared : Slots clearedData [] where
  names := by simp
  length := List.length_replicate
  room := by simp [transaction]
  used := by simp [transaction]
  free i _ := by
    have hblank : (padded []).getD i blank = blank := padded_getD i
    exact congrArg (fun d => cstr d.filename) hblank

theorem Slots.push (h : Slots data cs) (hw : Named w)
    (hlt : (transaction cs).length < maxTransactionEntries)
    (hother : ∀ d ∈ transaction cs, d.filename ≠ w.filename) :
    Slots (data.set (transaction cs).length w) (cs ++ [w]) := by
  have hnew : transaction (cs ++ [w]) = transaction cs ++ [w] := by
    rw [transaction_append, addWrite_new hother]
  have hlen : (transaction (cs ++ [w])).length = (transaction cs).length + 1 := by
    rw [hnew, List.length_append, List.length_singleton]
  refine ⟨List.forall_mem_append.mpr ⟨h.names, List.forall_mem_singleton.mpr hw⟩, ?_, by omega,
    fun i d hd => ?_, fun i hi => ?_⟩
  · rw [List.length_set, h.length]
  · rw [hnew] at hd
    rcases lt_trichotomy i (transaction cs).length with hi | rfl | hi
    · rw [List.getElem?_append_left hi] at hd
      rw [List.getElem?_set_ne (by omega)]
      exact h.used i d hd
    · rw [List.getElem?_concat_length] at hd
      rw [List.getElem?_set_self (by rw [h.length]; exact hlt)]
      exact hd
    · rw [List.getElem?_eq_none (by rw [List.length_append, List.length_singleton]; omega)] at hd
      exact absurd hd (by simp)
  · rw [List.getD_eq_getElem?_getD, List.getElem?_set_ne (by omega), ← List.getD_eq_getElem?_getD]
    exact h.free i (by omega)

theorem Slots.write (h : Slots data cs) (hw : Named w) {d : TransactionEntry}
    (hd : (transaction cs)[i]? = some d) (hname : d.filename = w.filename)
    (hother : ∀ x ∈ (transaction cs).take i, x.filename ≠ w.filename) :
    Slots (data.set i { d with buffer := d.buffer ++ w.buffer }) (cs ++ [w]) := by
  have hnew : transaction (cs ++ [w]) =
      (transaction cs).set i { d with buffer := d.buffer ++ w.buffer } := by
    rw [transaction_append, addWrite_set hother hd hname]
  have hlen : (transaction (cs ++ [w])).length = (transaction cs).length := by
    rw [hnew, List.length_set]
  have hi : i < (transaction cs).length := (List.getElem?_eq_some_iff.mp hd).1
  have hroom := h.room
  refine ⟨List.forall_mem_append.mpr ⟨h.names, List.forall_mem_singleton.mpr hw⟩, ?_, by omega,
    fun j x hx => ?_, fun j hj => ?_⟩
  · rw [List.length_set, h.length]
  · rw [hnew] at hx
    rcases eq_or_ne j i with rfl | hj
    · rw [List.getElem?_set_self hi] at hx
      rw [List.getElem?_set_self (by rw [h.length]; omega)]
      exact hx
    · rw [List.getElem?_set_ne hj.symm] at hx ⊢
      exact h.used j x hx
  · rw [List.getD_eq_getElem?_getD, List.getElem?_set_ne (by omega), ← List.getD_eq_getElem?_getD]
    exact h.free j (by omega)

/-- A call without a file name. -/
theorem Slots.scribble (h : Slots data cs) (hw : cstr w.filename = []) :
    Slots (data.set (transaction cs).length w) cs := by
  refine ⟨h.names, ?_, h.room, fun i d hd => ?_, fun i hi => ?_⟩
  · rw [List.length_set, h.length]
  · have hi := (List.getElem?_eq_some_iff.mp hd).1
    rw [List.getElem?_set_ne (by omega)]
    exact h.used i d hd
  · rw [List.getD_eq_getElem?_getD]
    rcases eq_or_ne i (transaction cs).length with rfl | hne
    · rcases Nat.lt_or_ge (transaction cs).length data.length with hlt | hge
      · rw [List.getElem?_set_self hlt]
        exact hw
      · rw [List.set_eq_of_length_le hge, List.getElem?_eq_none hge]
        rfl
    · rw [List.getElem?_set_ne hne.symm, ← List.getD_eq_getElem?_getD]
      exact h.free i hi

/-- What a call comes to: without space it runs out of a buffer; otherwise the
array holds what is to be kept, and a refusal has left it alone. -/
def Serves (data cs : List TransactionEntry) (w : TransactionEntry)
    (out : Option (List TransactionEntry × ℤ)) : Prop :=
  (¬ HasSpace cs (text w) ∧ out = none) ∨
  (HasSpace cs (text w) ∧ ∃ data', out =
      some (data', if Refused cs (text w) then eTransactionLimit else 0) ∧
    Slots data' (keep cs (text w)) ∧ (Refused cs (text w) → data' = data))

/-- All slots are taken by other files. -/
theorem Slots.refuse (h : Slots data cs) (hfull : maxTransactionEntries ≤ (transaction cs).length)
    (hother : ∀ d ∈ transaction cs, d.filename ≠ cstr w.filename) :
    Serves data cs w (some (data, eTransactionLimit)) := by
  have hrefused : Refused cs (text w) := by
    refine ⟨fun hmem => ?_, by rwa [← length_transaction]⟩
    rw [← named_transaction_eq, mem_named] at hmem
    obtain ⟨d, hd, hname⟩ := hmem
    exact hother d hd hname
  refine Or.inr ⟨Or.inl hrefused, data, ?_, ?_, fun _ => rfl⟩
  · rw [if_pos hrefused]
  · rwa [keep, if_pos (Or.inr hrefused)]

/-- The slot of the file. -/
theorem Slots.more (h : Slots data cs) {turns : ℕ} {d : TransactionEntry}
    (hd : (transaction cs)[i]? = some d) (hname : d.filename = cstr w.filename)
    (hother : ∀ x ∈ (transaction cs).take i, x.filename ≠ cstr w.filename) :
    Serves data cs w (appendFileFrom data w.filename w.buffer (turns + 1) i) := by
  have hmem := List.mem_of_getElem? hd
  have hdn : Named d := named_transaction h.names d hmem
  have hslot : data.getD i blank = d := by
    rw [List.getD_eq_getElem?_getD, h.used i d hd, Option.getD_some]
  have hopen : ¬ Refused cs (text w) := fun hr => by
    refine hr.1 ?_
    rw [← named_transaction_eq, mem_named]
    exact ⟨d, hmem, hname⟩
  have hbuffer : d.buffer = bytesFor (text w).filename cs := by
    rw [buffer_eq hmem, hname]
    rfl
  simp only [appendFileFrom, hslot, hdn.cstr_filename, hdn.cstr_buffer, if_neg hdn.filename]
  rw [if_pos hname, hbuffer]
  by_cases hfits : (bytesFor (text w).filename cs).length + (cstr w.buffer).length < bufferSize
  · have hnamed : Named (text w) :=
      ⟨fun hnone => hdn.filename (hname.trans hnone), cstr_cstr _, cstr_cstr _⟩
    refine Or.inr ⟨Or.inr hfits,
      data.set i { d with buffer := bytesFor (text w).filename cs ++ cstr w.buffer }, ?_, ?_,
      fun hr => absurd hr hopen⟩
    · rw [if_pos hfits, if_neg hopen]
    · rw [keep, if_neg (not_or.mpr ⟨hnamed.filename, hopen⟩), ← hbuffer]
      exact h.write hnamed hd hname hother
  · exact Or.inl ⟨fun hspace => hspace.elim hopen hfits, if_neg hfits⟩

/-- The first slot without a name, when no slot has the file. -/
theorem Slots.first (h : Slots data cs) {turns : ℕ}
    (hw : (cstr w.filename).length < fileNameSize)
    (hlt : (transaction cs).length < maxTransactionEntries)
    (hother : ∀ x ∈ transaction cs, x.filename ≠ cstr w.filename) :
    Serves data cs w
      (appendFileFrom data w.filename w.buffer (turns + 1) (transaction cs).length) := by
  have hopen : ¬ Refused cs (text w) := fun hr => by
    have := hr.2
    rw [← length_transaction] at this
    omega
  have hempty : bytesFor (text w).filename cs = [] := by
    rw [← bytesFor_transaction]
    exact bytesFor_of_notMem hother
  have hspace : HasSpace cs (text w) ↔ (cstr w.buffer).length < bufferSize := by
    unfold HasSpace
    rw [hempty, List.length_nil, zero_add]
    exact or_iff_right hopen
  simp only [appendFileFrom, if_pos (h.free _ le_rfl)]
  by_cases hfits : (cstr w.buffer).length < bufferSize
  · refine Or.inr ⟨hspace.mpr hfits, data.set (transaction cs).length (text w), ?_, ?_,
      fun hr => absurd hr hopen⟩
    · rw [if_pos ⟨hw, hfits⟩, if_neg hopen]
      rfl
    · by_cases hnone : (text w).filename = []
      · rw [keep, if_pos (Or.inl hnone)]
        exact h.scribble (by rw [hnone]; rfl)
      · rw [keep, if_neg (not_or.mpr ⟨hnone, hopen⟩)]
        exact h.push ⟨hnone, cstr_cstr _, cstr_cstr _⟩ hlt hother
  · exact Or.inl ⟨fun hsp => hfits (hspace.mp hsp), if_neg fun hboth => hfits hboth.2⟩

/-- The loop from slot `i` on, when the file is not in a slot below. -/
theorem Slots.loop (h : Slots data cs) (hw : (cstr w.filename).length < fileNameSize)
    {turns : ℕ} (hturns : turns + i = maxTransactionEntries) (hi : i ≤ (transaction cs).length)
    (hother : ∀ d ∈ (transaction cs).take i, d.filename ≠ cstr w.filename) :
    Serves data cs w (appendFileFrom data w.filename w.buffer turns i) := by
  induction turns generalizing i with
  | zero =>
      have hroom := h.room
      rw [List.take_of_length_le (by omega)] at hother
      exact h.refuse (by omega) hother
  | succ turns ih =>
      rcases hi.lt_or_eq with hlt | rfl
      · have hd := List.getElem?_eq_getElem hlt
        generalize (transaction cs)[i] = d at hd
        by_cases hname : d.filename = cstr w.filename
        · exact h.more hd hname hother
        · have hdn : Named d := named_transaction h.names d (List.mem_of_getElem? hd)
          have hslot : data.getD i blank = d := by
            rw [List.getD_eq_getElem?_getD, h.used i d hd, Option.getD_some]
          simp only [appendFileFrom, hslot, hdn.cstr_filename, if_neg hdn.filename]
          rw [if_neg hname]
          refine ih (by omega) hlt fun x hx => ?_
          rw [List.take_add_one, hd, Option.toList_some, List.mem_append,
            List.mem_singleton] at hx
          rcases hx with hx | rfl
          · exact hother x hx
          · exact hname
      · rw [List.take_length] at hother
        exact h.first hw (by omega) hother

theorem Slots.handleAppendFile (h : Slots data cs)
    (hw : (cstr w.filename).length < fileNameSize) :
    Serves data cs w (handleAppendFile data w.filename w.buffer) :=
  h.loop hw rfl (Nat.zero_le _) (by simp)

end Slots

/-! ### A session -/

section Session

variable {ws cs data : List TransactionEntry} {w : TransactionEntry}

theorem kept_concat (ws : List TransactionEntry) (w : TransactionEntry) :
    kept (ws ++ [w]) = keep (kept ws) (text w) := by
  rw [kept, List.foldl_append]
  rfl

theorem appendCalls_concat (ws : List TransactionEntry) (w : TransactionEntry) :
    appendCalls (ws ++ [w]) = (appendCalls ws).bind fun state => appendCall state w := by
  rw [appendCalls, List.foldlM_append]
  simp [appendCalls]

theorem bytesFor_le_keep (name : Bytes) :
    (bytesFor name cs).length ≤ (bytesFor name (keep cs w)).length := by
  unfold keep
  split_ifs
  · exact le_rfl
  · rw [bytesFor_append, List.length_append]
    exact Nat.le_add_right _ _

/-- The next call fits in when the buffers stay short with it. -/
theorem hasSpace_iff (hcs : ∀ x ∈ cs, Named x)
    (hshort : ∀ name, (bytesFor name cs).length < bufferSize)
    (hw : w.filename = [] → w.buffer.length < bufferSize) :
    HasSpace cs w ↔ ∀ name, (bytesFor name (keep cs w)).length < bufferSize := by
  unfold keep
  by_cases hnone : w.filename = []
  · have hempty : bytesFor w.filename cs = [] :=
      bytesFor_of_notMem fun x hx heq => (hcs x hx).filename (heq.trans hnone)
    rw [if_pos (Or.inl hnone)]
    refine iff_of_true (Or.inr ?_) hshort
    rw [hempty, List.length_nil, zero_add]
    exact hw hnone
  by_cases hrefused : Refused cs w
  · rw [if_pos (Or.inr hrefused)]
    exact iff_of_true (Or.inl hrefused) hshort
  rw [if_neg (not_or.mpr ⟨hnone, hrefused⟩)]
  constructor
  · intro hspace name
    rw [bytesFor_append, bytesFor_singleton, List.length_append]
    split_ifs with hname
    · exact hname ▸ hspace.resolve_left hrefused
    · rw [List.length_nil, add_zero]
      exact hshort name
  · intro hall
    have hlen := hall w.filename
    rw [bytesFor_append, bytesFor_singleton, if_pos rfl, List.length_append] at hlen
    exact Or.inr hlen

/-- Either every buffer has stayed short, and the array holds what is to be
kept, or one has run over. -/
theorem appendCalls_spec (ws : List TransactionEntry)
    (hws : ∀ w ∈ ws, (cstr w.filename).length < fileNameSize ∧
      (cstr w.filename = [] → (cstr w.buffer).length < bufferSize)) :
    ((∀ name, (bytesFor name (kept ws)).length < bufferSize) ∧ ∃ data acc,
      appendCalls ws = some (data, acc) ∧ Slots data (kept ws) ∧
      ((∀ w ∈ ws, cstr w.filename ≠ []) → kept ws = acc.map text)) ∨
    (appendCalls ws = none ∧ ∃ name, bufferSize ≤ (bytesFor name (kept ws)).length) := by
  induction ws using List.reverseRecOn with
  | nil =>
      exact Or.inl ⟨fun _ => Nat.zero_lt_succ _, clearedData, [], rfl, slots_cleared, fun _ => rfl⟩
  | append_singleton ws w ih =>
      have hw := hws w (by simp)
      rw [kept_concat, appendCalls_concat]
      rcases ih fun x hx => hws x (by simp [hx]) with
        ⟨hshort, data, acc, hcalls, hslots, hacc⟩ | ⟨hcalls, name, hname⟩
      swap
      · rw [hcalls]
        exact Or.inr ⟨rfl, name, hname.trans (bytesFor_le_keep name)⟩
      have hiff := hasSpace_iff (w := text w) hslots.names hshort hw.2
      rw [hcalls, Option.bind_some, appendCall]
      rcases hslots.handleAppendFile hw.1 with ⟨hspace, hout⟩ | ⟨hspace, data', hout, hslots', -⟩
      · rw [hout]
        rw [hiff] at hspace
        push Not at hspace
        exact Or.inr ⟨rfl, hspace⟩
      · rw [hout]
        refine Or.inl ⟨hiff.mp hspace, data', _, rfl, hslots', fun hnames => ?_⟩
        have hacc := hacc fun x hx => hnames x (by simp [hx])
        have hnamed : ¬ (text w).filename = [] := hnames w (by simp)
        by_cases hrefused : Refused (kept ws) (text w)
        · rw [keep, if_pos (Or.inr hrefused), if_pos hrefused, if_neg (by decide), hacc]
        · rw [keep, if_neg (not_or.mpr ⟨hnamed, hrefused⟩), if_neg hrefused, if_pos rfl, hacc,
            List.map_append]
          rfl

end Session

/-! ### Committing a session -/

section Commit

variable {data cs : List TransactionEntry} {fs : FileSystem}

/-- `handle_raft_commit` goes through the files of the transaction. -/
theorem Slots.writes (h : Slots data cs) (e : LogEntry) :
    ({ e with data } : LogEntry).writes = transaction cs := by
  have hlen := h.length
  have hroom := h.room
  have htake : data.take (transaction cs).length = transaction cs := by
    refine List.ext_getElem? fun i => ?_
    rcases Nat.lt_or_ge i (transaction cs).length with hi | hi
    · rw [List.getElem?_take_of_lt hi, h.used i _ (List.getElem?_eq_getElem hi),
        List.getElem?_eq_getElem hi]
    · rw [List.getElem?_eq_none hi, List.getElem?_eq_none]
      rw [List.length_take]
      omega
  have hrest : (data.drop (transaction cs).length).takeWhile
      (fun d => decide (cstr d.filename ≠ [])) = [] := by
    cases hdrop : data.drop (transaction cs).length with
    | nil => rfl
    | cons x xs =>
        have hx : data[(transaction cs).length]? = some x := by
          rw [← List.head?_drop, hdrop]
          rfl
        have hfree := h.free _ le_rfl
        rw [List.getD_eq_getElem?_getD, hx, Option.getD_some] at hfree
        exact List.takeWhile_cons_of_neg (by simp [hfree])
  have hsplit : data = transaction cs ++ data.drop (transaction cs).length := by
    conv_lhs => rw [← List.take_append_drop (transaction cs).length data, htake]
  unfold LogEntry.writes
  simp only
  rw [List.take_of_length_le (by omega), hsplit, List.takeWhile_append_of_pos, hrest,
    List.append_nil]
  intro d hd
  have hdn := named_transaction h.names d hd
  rw [decide_eq_true_eq, hdn.cstr_filename]
  exact hdn.filename

/-- Committing the transaction is writing call by call. -/
theorem Slots.commit (h : Slots data cs) (e : LogEntry) {acc : List TransactionEntry}
    (hacc : cs = acc.map text) : fs.handleRaftCommit { e with data } =
      acc.foldl (fun fs w => fs.appendTo .main w.filename w.buffer) fs := by
  have hcommitted : (transaction cs).map (fun d => (cstr d.filename, cstr d.buffer)) =
      pairs (transaction cs) := by
    refine List.map_congr_left fun d hd => ?_
    have hdn := named_transaction h.names d hd
    rw [hdn.cstr_filename, hdn.cstr_buffer]
  have hdirect : acc.map (fun w => (cstr w.filename, cstr w.buffer)) = pairs cs := by
    rw [hacc, pairs, List.map_map]
    rfl
  funext d
  by_cases hd : d = .main
  · subst hd
    rw [FileSystem.handleRaftCommit_main, h.writes, FileSystem.foldl_appendTo_main, hcommitted,
      hdirect]
    refine appendAll_congr (fun name => ?_) fun name => bytesFor_transaction name cs
    rw [exists_mem_pairs, exists_mem_pairs, ← mem_named, ← mem_named, named_transaction_eq]
  · rw [FileSystem.handleRaftCommit_of_ne hd, FileSystem.foldl_appendTo_of_ne hd]

end Commit

/-- A name that stands for a file of its own: not empty, without a slash, and
short enough for the path behind the directory `dir`. -/
structure PathName (dir name : Bytes) : Prop where
  nonempty : cstr name ≠ []
  slash : (47 : UInt8) ∉ cstr name
  path : dir.length + (cstr name).length < fileNameSize

instance (dir name : Bytes) : Decidable (PathName dir name) :=
  decidable_of_iff (cstr name ≠ [] ∧ (47 : UInt8) ∉ cstr name ∧
      dir.length + (cstr name).length < fileNameSize)
    ⟨fun h => ⟨h.1, h.2.1, h.2.2⟩, fun h => ⟨h.nonempty, h.slash, h.path⟩⟩

/-- For any calls of a session whose bytes for each file stay below the size of
a buffer: committing the array leaves the files as writing each accepted call
in its turn does; and the next call is refused exactly when it names a new file
and ten files are named, and then leaves the array as it was. -/
theorem batching_is_direct_writing (dir : Bytes) (ws : List TransactionEntry) (e : LogEntry)
    (fs : FileSystem) (hws : ∀ w ∈ ws, PathName dir w.filename)
    (hshort : ∀ name, (bytesFor name (kept ws)).length < bufferSize) :
    ∃ data acc, appendCalls ws = some (data, acc) ∧ kept ws = acc.map text ∧
      fs.handleRaftCommit { e with data } =
        acc.foldl (fun fs w => fs.appendTo .main w.filename w.buffer) fs ∧
      ∀ w : TransactionEntry, PathName dir w.filename →
        (handleAppendFile data w.filename w.buffer = some (data, eTransactionLimit) ↔
          cstr w.filename ∉ named (acc.map text) ∧
          (named (acc.map text)).card = maxTransactionEntries) ∧
        ∀ data', handleAppendFile data w.filename w.buffer = some (data', eTransactionLimit) →
          data' = data := by
  have hnames : ∀ w : TransactionEntry, PathName dir w.filename →
      (cstr w.filename).length < fileNameSize :=
    fun w hw => lt_of_le_of_lt (Nat.le_add_left _ _) hw.path
  rcases appendCalls_spec ws fun w hw =>
      ⟨hnames w (hws w hw), fun hnone => absurd hnone (hws w hw).nonempty⟩ with
    ⟨-, data, acc, hcalls, hslots, hacc⟩ | ⟨-, name, hname⟩
  swap
  · exact absurd (hshort name) (not_lt.mpr hname)
  have hacc := hacc fun w hw => (hws w hw).nonempty
  refine ⟨data, acc, hcalls, hacc, hslots.commit e hacc, fun w hw => ?_⟩
  have hcard : (named (kept ws)).card ≤ maxTransactionEntries := by
    rw [← length_transaction]
    exact hslots.room
  rw [← hacc]
  rcases hslots.handleAppendFile (hnames w hw) with ⟨hspace, hout⟩ | ⟨-, data', hout, -, hsame⟩
  · rw [hout]
    refine ⟨iff_of_false (by simp) fun hfull => hspace (Or.inl ⟨hfull.1, hfull.2.ge⟩), ?_⟩
    intro data' hdata'
    exact absurd hdata' (by simp)
  · rw [hout]
    by_cases hrefused : Refused (kept ws) (text w)
    · rw [if_pos hrefused, hsame hrefused]
      refine ⟨iff_of_true rfl ⟨hrefused.1, le_antisymm hcard hrefused.2⟩, fun data' hdata' => ?_⟩
      simp only [Option.some.injEq, Prod.mk.injEq] at hdata'
      exact hdata'.1.symm
    · rw [if_neg hrefused]
      have hne : (0 : ℤ) ≠ eTransactionLimit := by decide
      refine ⟨iff_of_false (by simp [hne]) fun hfull => hrefused ⟨hfull.1, hfull.2.ge⟩, ?_⟩
      intro data' hdata'
      simp only [Option.some.injEq, Prod.mk.injEq] at hdata'
      exact absurd hdata'.2 hne

/-- Writes to two files in turn. -/
def twoFiles : List TransactionEntry :=
  [⟨fileName 0, [97]⟩, ⟨fileName 1, [98]⟩, ⟨fileName 0, [99]⟩]

theorem twoFiles_short (name : Bytes) : (bytesFor name (kept twoFiles)).length < bufferSize := by
  have hkept : kept twoFiles = twoFiles := by decide
  rw [hkept, twoFiles, bytesFor_cons, bytesFor_cons, bytesFor_singleton]
  split_ifs <;> exact Nat.lt_of_lt_of_le (by decide : _ < 4) (by decide)

set_option maxRecDepth 10000 in
theorem twoFiles_bytes : (appendCalls twoFiles).any (fun p =>
    let fs := (FileSystem.cleanMainFiles fun _ _ => none).handleRaftCommit
      { (default : LogEntry) with data := p.1 }
    decide (fs .main (fileName 0) = some [97, 99] ∧ fs .main (fileName 1) = some [98])) = true := by
  decide +kernel

theorem twoFiles_written : ∃ data acc fs, appendCalls twoFiles = some (data, acc) ∧
    (FileSystem.cleanMainFiles fun _ _ => none).handleRaftCommit
        { (default : LogEntry) with data } = fs ∧
    acc.foldl (fun fs w => FileSystem.appendTo fs .main w.filename w.buffer)
      (FileSystem.cleanMainFiles fun _ _ => none) = fs ∧
    fs .main (fileName 0) = some [97, 99] ∧ fs .main (fileName 1) = some [98] := by
  obtain ⟨data, acc, hcalls, -, hcommit, -⟩ := batching_is_direct_writing [100, 47] twoFiles
    default (FileSystem.cleanMainFiles fun _ _ => none) (by decide) twoFiles_short
  have hbytes := twoFiles_bytes
  rw [hcalls, Option.any_some] at hbytes
  exact ⟨data, acc, _, hcalls, rfl, hcommit.symm, of_decide_eq_true hbytes⟩

/-! ### Running over -/

/-- Every string is terminated inside its field. -/
def Inside (data : List TransactionEntry) : Prop :=
  ∀ d ∈ data, (cstr d.filename).length < fileNameSize ∧ (cstr d.buffer).length < bufferSize

/-- Sessions one after the other: each begins with a cleared array. -/
def appendSessions (wss : List (List TransactionEntry)) : Option (List TransactionEntry) :=
  wss.foldlM (fun _ ws => (appendCalls ws).map Prod.fst) clearedData

section Sessions

variable {data data' ws : List TransactionEntry} {wss : List (List TransactionEntry)}
  {acc acc' : List TransactionEntry} {w : TransactionEntry} {rc : ℤ}

theorem Inside.set (h : Inside data) {d : TransactionEntry}
    (hd : (cstr d.filename).length < fileNameSize ∧ (cstr d.buffer).length < bufferSize) (i : ℕ) :
    Inside (data.set i d) := by
  intro x hx
  rcases List.mem_or_eq_of_mem_set hx with hx | rfl
  · exact h x hx
  · exact hd

theorem Inside.filename_getD (h : Inside data) (i : ℕ) :
    (cstr (data.getD i blank).filename).length < fileNameSize := by
  rw [List.getD_eq_getElem?_getD]
  cases hd : data[i]? with
  | none => exact Nat.zero_lt_succ _
  | some d => exact (h d (List.mem_of_getElem? hd)).1

theorem Inside.appendFileFrom (h : Inside data) {filename buffer : Bytes} {turns i : ℕ}
    (hout : appendFileFrom data filename buffer turns i = some (data', rc)) : Inside data' := by
  induction turns generalizing i with
  | zero =>
      simp only [RaftLock.appendFileFrom, Option.some.injEq, Prod.mk.injEq] at hout
      exact hout.1 ▸ h
  | succ turns ih =>
      simp only [RaftLock.appendFileFrom] at hout
      split_ifs at hout with hname hfits hmatch hroom
      · simp only [Option.some.injEq, Prod.mk.injEq] at hout
        rw [← hout.1]
        exact h.set (by rwa [cstr_cstr, cstr_cstr]) i
      · simp only [Option.some.injEq, Prod.mk.injEq] at hout
        rw [← hout.1]
        have hbuffer : (cstr (cstr (data.getD i blank).buffer ++ cstr buffer)).length <
            bufferSize := by
          rw [cstr_append (cstr_cstr _) (cstr_cstr _), List.length_append]
          exact hroom
        exact h.set (d := { data.getD i blank with
          buffer := cstr (data.getD i blank).buffer ++ cstr buffer })
          ⟨h.filename_getD i, hbuffer⟩ i
      · exact ih hout

theorem inside_cleared : Inside clearedData := by
  intro d hd
  rw [List.eq_of_mem_replicate hd]
  exact ⟨Nat.zero_lt_succ _, Nat.zero_lt_succ _⟩

/-- As long as the calls have a result they stay inside the array. -/
theorem inside_appendCalls (h : appendCalls ws = some (data, acc)) : Inside data := by
  induction ws using List.reverseRecOn generalizing data acc with
  | nil =>
      simp only [appendCalls, List.foldlM_nil, Option.pure_def, Option.some.injEq,
        Prod.mk.injEq] at h
      exact h.1 ▸ inside_cleared
  | append_singleton ws w ih =>
      rw [appendCalls_concat] at h
      obtain ⟨state, hstate, hcall⟩ := Option.bind_eq_some_iff.mp h
      obtain ⟨⟨data', rc⟩, hout, heq⟩ := Option.map_eq_some_iff.mp hcall
      simp only [Prod.mk.injEq] at heq
      rw [← heq.1]
      exact (ih hstate).appendFileFrom hout

theorem appendSessions_concat (wss : List (List TransactionEntry)) (ws : List TransactionEntry) :
    appendSessions (wss ++ [ws]) =
      (appendSessions wss).bind fun _ => (appendCalls ws).map Prod.fst := by
  rw [appendSessions, List.foldlM_append]
  simp [appendSessions]

theorem inside_appendSessions (h : appendSessions wss = some data) : Inside data := by
  induction wss using List.reverseRecOn with
  | nil =>
      simp only [appendSessions, List.foldlM_nil, Option.pure_def, Option.some.injEq] at h
      exact h ▸ inside_cleared
  | append_singleton wss ws _ =>
      rw [appendSessions_concat] at h
      obtain ⟨-, -, hlast⟩ := Option.bind_eq_some_iff.mp h
      obtain ⟨state, hstate, rfl⟩ := Option.map_eq_some_iff.mp hlast
      exact inside_appendCalls hstate

theorem appendSessions_isSome :
    (appendSessions wss).isSome = true ↔ ∀ ws ∈ wss, (appendCalls ws).isSome = true := by
  induction wss using List.reverseRecOn with
  | nil => simp [appendSessions]
  | append_singleton wss ws ih =>
      have hall : (∀ x ∈ wss ++ [ws], (appendCalls x).isSome = true) ↔
          (∀ x ∈ wss, (appendCalls x).isSome = true) ∧ (appendCalls ws).isSome = true := by
        simp only [List.mem_append, List.mem_singleton, or_imp, forall_and, forall_eq]
      rw [hall, ← ih, appendSessions_concat]
      cases appendSessions wss with
      | none => simp
      | some data => simp

end Sessions

/-- For any sessions with names and buffers that fit their fields: every call
leaves all strings inside the array exactly when in each session the bytes for
each file that are kept stay below the size of a buffer. -/
theorem buffers_inside_iff (wss : List (List TransactionEntry))
    (hwss : ∀ ws ∈ wss, ∀ w ∈ ws, (cstr w.filename).length < fileNameSize ∧
      (cstr w.buffer).length < bufferSize) :
    (∃ data, appendSessions wss = some data ∧ Inside data) ↔
      ∀ ws ∈ wss, ∀ name, (bytesFor name (kept ws)).length < bufferSize := by
  have hiff : ∀ ws ∈ wss, (appendCalls ws).isSome = true ↔
      ∀ name, (bytesFor name (kept ws)).length < bufferSize := by
    intro ws hws
    rcases appendCalls_spec ws fun w hw => ⟨(hwss ws hws w hw).1, fun _ => (hwss ws hws w hw).2⟩
      with ⟨hshort, data, acc, hcalls, -⟩ | ⟨hcalls, name, hname⟩
    · rw [hcalls]
      exact iff_of_true rfl hshort
    · rw [hcalls]
      exact iff_of_false (by simp) fun hall => absurd (hall name) (not_lt.mpr hname)
  rw [← forall₂_congr hiff, ← appendSessions_isSome, Option.isSome_iff_exists]
  exact exists_congr fun data => and_iff_left_of_imp inside_appendSessions

/-- A thousand characters for one file. -/
def thousand : TransactionEntry := ⟨fileName 0, List.replicate 1000 97⟩

theorem twoFiles_inside : ∃ data, appendSessions [twoFiles] = some data ∧ Inside data :=
  (buffers_inside_iff [twoFiles] (by decide)).mpr fun ws hws name => by
    rw [List.mem_singleton.mp hws]
    exact twoFiles_short name

/-- The second thousand characters run over the buffer of the first. -/
theorem second_thousand_runs_over :
    (cstr thousand.filename).length < fileNameSize ∧ (cstr thousand.buffer).length < bufferSize ∧
    appendSessions [[thousand]] ≠ none ∧ appendSessions [[thousand, thousand]] = none := by
  decide +kernel

end RaftLock
