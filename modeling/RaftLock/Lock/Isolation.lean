import Mathlib.Data.List.TakeWhile
import RaftLock.Lock.Exclusion

/-!
Transactions do not mix: what a release hands to `Raft_append_entry`.

The shared entry is written by a client whose `handle_lock_acquire` has taken
the lock and not returned, and by a client that has paused the timer. A pause
keeps the lock, so the second kind is safe. The first kind writes with the
timer armed; the condition on runs is that the timer does not fire on it.
-/

namespace RaftLock

/-! ### The writes of a transaction -/

/-- A write is added to the file it names, or to a new one. -/
def addWrite : List TransactionEntry → TransactionEntry → List TransactionEntry
  | [], w => [w]
  | d :: ds, w =>
    if d.filename = w.filename then { d with buffer := d.buffer ++ w.buffer } :: ds
    else d :: addWrite ds w

def transaction (ws : List TransactionEntry) : List TransactionEntry := ws.foldl addWrite []

/-- The array of a transaction: its files, then unused slots. -/
def padded (ds : List TransactionEntry) : List TransactionEntry :=
  ds ++ List.replicate (maxTransactionEntries - ds.length) blank

@[simp] theorem cstr_cstr (b : Bytes) : cstr (cstr b) = cstr b := by
  exact List.takeWhile_idem

theorem cstr_append {a b : Bytes} (ha : cstr a = a) (hb : cstr b = b) : cstr (a ++ b) = a ++ b := by
  unfold cstr at ha hb ⊢
  rw [List.takeWhile_append_of_pos (fun x hx => ?_), hb]
  exact List.takeWhile_eq_self_iff.mp ha x hx

/-- A write that names a file, as the arrays hold it. -/
structure Named (d : TransactionEntry) : Prop where
  filename : d.filename ≠ []
  cstr_filename : cstr d.filename = d.filename
  cstr_buffer : cstr d.buffer = d.buffer

theorem named_addWrite {ds : List TransactionEntry} {w : TransactionEntry}
    (hds : ∀ d ∈ ds, Named d) (hw : Named w) : ∀ d ∈ addWrite ds w, Named d := by
  induction ds with
  | nil => simpa [addWrite] using hw
  | cons d ds ih =>
      have hd := hds d (by simp)
      unfold addWrite
      split
      · intro x hx
        rcases List.mem_cons.mp hx with rfl | hx
        · exact ⟨hd.filename, hd.cstr_filename, cstr_append hd.cstr_buffer hw.cstr_buffer⟩
        · exact hds x (by simp [hx])
      · intro x hx
        rcases List.mem_cons.mp hx with rfl | hx
        · exact hd
        · exact ih (fun y hy => hds y (by simp [hy])) x hx

theorem named_transaction {ws : List TransactionEntry} (hws : ∀ w ∈ ws, Named w) :
    ∀ d ∈ transaction ws, Named d := by
  induction ws using List.reverseRecOn with
  | nil => simp [transaction]
  | append_singleton ws w ih =>
      rw [transaction, List.foldl_append]
      exact named_addWrite (ih fun x hx => hws x (by simp [hx])) (hws w (by simp))

theorem transaction_append (ws : List TransactionEntry) (w : TransactionEntry) :
    transaction (ws ++ [w]) = addWrite (transaction ws) w := by
  simp [transaction]

theorem addWrite_set {ds : List TransactionEntry} {w d : TransactionEntry} {i : ℕ}
    (hother : ∀ x ∈ ds.take i, x.filename ≠ w.filename) (hd : ds[i]? = some d)
    (hname : d.filename = w.filename) :
    addWrite ds w = ds.set i { d with buffer := d.buffer ++ w.buffer } := by
  induction ds generalizing i with
  | nil => simp at hd
  | cons x ds ih =>
      cases i with
      | zero =>
          simp only [List.getElem?_cons_zero, Option.some.injEq] at hd
          subst hd
          simp [addWrite, hname]
      | succ i =>
          rw [List.take_succ_cons] at hother
          have hrest := ih (fun y hy => hother y (List.mem_cons_of_mem x hy)) (by simpa using hd)
          rw [addWrite, if_neg (hother x (by simp)), List.set_cons_succ, hrest]

theorem addWrite_new {ds : List TransactionEntry} {w : TransactionEntry}
    (hother : ∀ x ∈ ds, x.filename ≠ w.filename) : addWrite ds w = ds ++ [w] := by
  induction ds with
  | nil => rfl
  | cons x ds ih =>
      rw [addWrite, if_neg (hother x (by simp)), ih fun y hy => hother y (by simp [hy])]
      rfl

theorem padded_set {ds : List TransactionEntry} {i : ℕ} (hi : i < ds.length)
    (d : TransactionEntry) : (padded ds).set i d = padded (ds.set i d) := by
  simp [padded, List.set_append_left, hi]

theorem padded_push {ds : List TransactionEntry} (hds : ds.length < maxTransactionEntries)
    (d : TransactionEntry) : (padded ds).set ds.length d = padded (ds ++ [d]) := by
  obtain ⟨n, hn⟩ : ∃ n, maxTransactionEntries - ds.length = n + 1 :=
    ⟨maxTransactionEntries - ds.length - 1, by omega⟩
  have hn' : maxTransactionEntries - (ds ++ [d]).length = n := by
    rw [List.length_append, List.length_singleton]
    omega
  rw [padded, padded, hn, hn', List.set_append_right _ _ le_rfl]
  simp [List.replicate_succ]

theorem padded_getD {ds : List TransactionEntry} (i : ℕ) :
    (padded ds).getD i blank = ds.getD i blank := by
  by_cases hi : i < ds.length
  · simp [padded, List.getElem?_append_left hi]
  · simp [padded, List.getElem?_append_right (not_lt.mp hi), List.getElem?_replicate,
      List.getElem?_eq_none (not_lt.mp hi)]
    split <;> rfl

/-! ### The shared entry -/

/-- The file of a write has a name. -/
def HandlerPc.Names : HandlerPc → Prop
  | .append filename _ | .appendSlot filename _ _ | .appendReset filename _ _ => cstr filename ≠ []
  | _ => True

/-- The entry is that of client `c`, with the writes `ws`. -/
def Carries (c : ℤ) (e : LogEntry) (ws : List TransactionEntry) : Prop :=
  e.client = c ∧ e.data = padded (transaction ws)

/-- The shared entry while `c` holds the lock, with the writes `ws`
acknowledged to it. -/
def Drafts (c : ℤ) (e : LogEntry) (ws : List TransactionEntry) : HandlerPc → LockPc → Prop
  | .acquire, .acquireCheck => Carries c e ws
  | .acquire, .outside rc => rc < 0 → Carries c e ws
  | .acquire, _ => True
  | .acquireClear k, _ => ∀ i < k, e.data.getD i blank = blank
  | .acquireClient, _ => e.data = padded []
  | .acquireId, _ | .acquireTerm, _ | .acquireTag _, _ => Carries c e []
  | .appendSlot filename _ i, _ =>
    Carries c e ws ∧ i ≤ (transaction ws).length ∧
      ∀ d ∈ (transaction ws).take i, d.filename ≠ cstr filename
  | .appendReset filename buffer result, _ =>
    if result = eTransactionLimit then Carries c e ws
    else Carries c e (ws ++ [⟨cstr filename, cstr buffer⟩])
  | _, _ => Carries c e ws

namespace LockServer

structure Content (s : LockServer) (c : ℤ) : Prop where
  names : (s.handler c).Names
  acked : ∀ w ∈ s.acked c, Named w
  entry : c ≠ -1 → s.lock.holderId = c →
    Drafts c s.currentLogEntry (s.acked c) (s.handler c) (s.lock.pc c)

structure Isolated (s : LockServer) : Prop extends s.Exclusive where
  length : s.currentLogEntry.data.length = maxTransactionEntries
  content : ∀ c, s.Content c

/-- The condition on runs: the timer does not fire on a client whose
`handle_lock_acquire` is under way, and a write names its file. -/
def Undisturbed (s : LockServer) : HandlerAction → Prop
  | .accept _ (.append filename _) => cstr filename ≠ []
  | x => s.Unexpired x

theorem isolated_init : init.Isolated where
  toExclusive := exclusive_init
  length := by simp [init]
  content c :=
    { names := trivial
      acked := by simp [init]
      entry := fun hc h => absurd h.symm hc }

variable {s s' : LockServer} {c rc : ℤ}

theorem Isolated.fire (h : s.Isolated) (hok : s.Unexpired .fire) {l : TimedLock}
    (hfire : s.lock.fire = some l) : { s with lock := l }.Isolated := by
  obtain ⟨hpc, -, hholder⟩ := TimedLock.fire_frame hfire
  refine ⟨h.toExclusive.fire hok hfire, h.length, fun c => ?_⟩
  have hc := h.content c
  refine ⟨hc.names, hc.acked, fun hne hid => ?_⟩
  simp only at hid
  simp only [hpc]
  rcases hholder with hsame | hgone
  · exact hc.entry hne (hsame ▸ hid)
  · exact absurd (hgone ▸ hid) (Ne.symm hne)

/-- Only an acquire makes a client the holder, and then nothing is said of the
entry yet. -/
theorem drafts_advance {l l' : TimedLock} {p : HandlerPc} {op : LockOp} (hclient : c ≠ -1)
    (hstep : l.Advances c l') (hop : p.calls = some op)
    (hcalls : TimedLock.within op (l.pc c) = true) (hid : l'.holderId = c) {e : LogEntry}
    {ws : List TransactionEntry} (hold : l.holderId = c → Drafts c e ws p (l.pc c)) :
    Drafts c e ws p (l'.pc c) := by
  cases p with
  | acquire =>
      simp only [HandlerPc.calls, Option.some.injEq] at hop
      subst hop
      cases hstep <;> simp_all [TimedLock.within, Drafts]
  | _ =>
      have hsame : l.holderId = c := by
        rcases hstep.holder with hsame | ⟨hgone, -⟩ | ⟨-, hpc⟩
        · exact hsame.symm.trans hid
        · exact absurd (hid.symm.trans hgone) hclient
        · rw [hpc] at hcalls
          cases op <;> simp_all [TimedLock.within, HandlerPc.calls]
      simpa only [Drafts] using hold hsame

theorem Isolated.advance (h : s.Isolated) {l : TimedLock} (hstep : s.lock.Advances c l) :
    { s with lock := l }.Isolated := by
  obtain ⟨op, hop, hwithin⟩ := (h.placed c).seated.waits hstep.inside
  refine ⟨h.toExclusive.advance hstep, h.length, fun j => ?_⟩
  have hj := h.content j
  refine ⟨hj.names, hj.acked, fun hne hid => ?_⟩
  by_cases hother : j = c
  · subst hother
    exact drafts_advance hne hstep hop hwithin hid (hj.entry hne)
  · simp only [(hstep.other hother).1]
    exact hj.entry hne ((hstep.holder_other h.lock hother hne).mp hid)

/-! ### The accesses outside the lock -/

/-- A step of the handler of `c` outside the lock, which writes the shared
entry only for the holder. -/
structure Locally (s : LockServer) (c : ℤ) (s' : LockServer) : Prop where
  handler : ∀ j ≠ c, s'.handler j = s.handler j
  acked : ∀ j ≠ c, s'.acked j = s.acked j
  holderId : s'.lock.holderId = s.lock.holderId
  pc : ∀ j ≠ c, s'.lock.pc j = s.lock.pc j
  entry : s'.currentLogEntry = s.currentLogEntry ∨ s.lock.holderId = c
  length : s'.currentLogEntry.data.length = s.currentLogEntry.data.length

theorem Isolated.locally (h : s.Isolated) (hex : s'.Exclusive) (hl : s.Locally c s')
    (hc : s'.Content c) : s'.Isolated := by
  refine ⟨hex, hl.length.trans h.length, fun j => ?_⟩
  by_cases hj : j = c
  · exact hj ▸ hc
  · have hs := h.content j
    refine ⟨?_, ?_, ?_⟩
    · rw [hl.handler j hj]
      exact hs.names
    · rw [hl.acked j hj]
      exact hs.acked
    · rw [hl.handler j hj, hl.pc j hj, hl.holderId, hl.acked j hj]
      intro hne hid
      rcases hl.entry with hsame | hmine
      · rw [hsame]
        exact hs.entry hne hid
      · exact absurd (hid.symm.trans hmine) hj

theorem Locally.goto (p : HandlerPc) : s.Locally c (s.goto c p) where
  handler j hj := by simp [LockServer.goto, hj]
  acked _ _ := rfl
  holderId := rfl
  pc _ _ := rfl
  entry := .inl rfl
  length := rfl

theorem Locally.enter (op : LockOp) (p : HandlerPc) : s.Locally c (s.enter c op p) where
  handler j hj := by simp [LockServer.enter, LockServer.goto, hj]
  acked _ _ := rfl
  holderId := rfl
  pc j hj := by simp [LockServer.enter, hj]
  entry := .inl rfl
  length := rfl

/-- The holder writes the entry as well. -/
theorem Locally.write (hl : s.Locally c s') (hid : s.lock.holderId = c) {e : LogEntry}
    (hlen : e.data.length = s.currentLogEntry.data.length) :
    s.Locally c { s' with currentLogEntry := e } :=
  { hl with entry := .inr hid, length := hlen }

theorem Locally.ack (hl : s.Locally c s') (ws : List TransactionEntry) :
    s.Locally c { s' with acked := Function.update s'.acked c ws } :=
  { hl with acked := fun j hj => by simp [hj, hl.acked j hj] }

theorem Content.at (p : HandlerPc) {q : LockPc} (hp : s'.handler c = p) (hpc : s'.lock.pc c = q)
    (hnames : p.Names) (hacked : ∀ w ∈ s'.acked c, Named w)
    (hentry : s'.lock.holderId = c → Drafts c s'.currentLogEntry (s'.acked c) p q) :
    s'.Content c := by
  subst hp hpc
  exact ⟨hnames, hacked, fun _ => hentry⟩

/-- The handler goes on, and nothing else changes. -/
theorem Isolated.goes (h : s.Isolated) {p : HandlerPc} (hex : (s.goto c p).Exclusive)
    (hrc : s.lock.pc c = .outside rc) (hnames : p.Names)
    (hentry : s.lock.holderId = c →
      Drafts c s.currentLogEntry (s.acked c) p (.outside rc)) : (s.goto c p).Isolated :=
  h.locally hex (.goto p)
    (.at p (goto_handler s c p) hrc hnames (h.content c).acked hentry)

/-- The handler calls the lock. -/
theorem Isolated.asks (h : s.Isolated) {p : HandlerPc} {op : LockOp}
    (hex : (s.enter c op p).Exclusive) (hnames : p.Names)
    (hentry : s.lock.holderId = c →
      Drafts c s.currentLogEntry (s.acked c) p (TimedLock.start op)) : (s.enter c op p).Isolated :=
  h.locally hex (.enter op p)
    (.at p (enter_handler s c op p) (enter_pc s c op p) hnames (h.content c).acked hentry)

section appendTurn

variable {e : LogEntry} {ws : List TransactionEntry} {w : TransactionEntry} {i : ℕ}

/-- A slot with a name is one of the transaction. -/
theorem slot_of_named (h : Carries c e ws)
    (hname : cstr (e.data.getD i blank).filename ≠ []) :
    (transaction ws)[i]? = some (e.data.getD i blank) := by
  rw [h.2, padded_getD] at hname ⊢
  rw [List.getD_eq_getElem?_getD] at hname ⊢
  cases hd : (transaction ws)[i]? with
  | none =>
      rw [hd] at hname
      exact absurd rfl hname
  | some d => rfl

/-- The first slot without a name is the first one after the transaction. -/
theorem slot_of_unnamed (h : Carries c e ws) (hws : ∀ w ∈ ws, Named w)
    (hi : i ≤ (transaction ws).length) (hname : cstr (e.data.getD i blank).filename = []) :
    i = (transaction ws).length := by
  by_contra hne
  have hlt : i < (transaction ws).length := by omega
  have hd := named_transaction hws _ (List.getElem_mem hlt)
  rw [h.2, padded_getD, List.getD_eq_getElem?_getD, List.getElem?_eq_getElem hlt,
    Option.getD_some, hd.cstr_filename] at hname
  exact hd.filename hname

theorem carries_new (h : Carries c e ws) (hws : ∀ w ∈ ws, Named w)
    (hi : i ≤ (transaction ws).length) (hlt : i < maxTransactionEntries)
    (hother : ∀ d ∈ (transaction ws).take i, d.filename ≠ w.filename)
    (hname : cstr (e.data.getD i blank).filename = []) :
    Carries c { e with data := e.data.set i w } (ws ++ [w]) := by
  have hlast := slot_of_unnamed h hws hi hname
  refine ⟨h.1, ?_⟩
  rw [hlast, List.take_length] at hother
  rw [hlast] at hlt
  rw [transaction_append, addWrite_new hother, ← padded_push hlt, hlast]
  simp only [h.2]

theorem carries_more (h : Carries c e ws) (hws : ∀ w ∈ ws, Named w)
    (hother : ∀ d ∈ (transaction ws).take i, d.filename ≠ w.filename) (hw : Named w)
    (hname : cstr (e.data.getD i blank).filename = w.filename) :
    Carries c { e with data := (e.data.set i
      { e.data.getD i blank with
        buffer := cstr (e.data.getD i blank).buffer ++ w.buffer }) } (ws ++ [w]) := by
  have hslot := slot_of_named h (hname.trans_ne hw.filename)
  have hd := named_transaction hws _ (List.mem_of_getElem? hslot)
  rw [hd.cstr_filename] at hname
  obtain ⟨hlt, -⟩ := List.getElem?_eq_some_iff.mp hslot
  refine ⟨h.1, ?_⟩
  rw [transaction_append, addWrite_set hother hslot hname, ← padded_set hlt, hd.cstr_buffer, ← h.2]

theorem slot_next (h : Carries c e ws) (hws : ∀ w ∈ ws, Named w)
    (hother : ∀ d ∈ (transaction ws).take i, d.filename ≠ w.filename)
    (hname : cstr (e.data.getD i blank).filename ≠ [])
    (hnew : cstr (e.data.getD i blank).filename ≠ w.filename) :
    i + 1 ≤ (transaction ws).length ∧
      ∀ d ∈ (transaction ws).take (i + 1), d.filename ≠ w.filename := by
  have hslot := slot_of_named h hname
  have hd := named_transaction hws _ (List.mem_of_getElem? hslot)
  obtain ⟨hlt, -⟩ := List.getElem?_eq_some_iff.mp hslot
  refine ⟨hlt, fun d hmem => ?_⟩
  rw [List.take_add_one, hslot, Option.toList_some, List.mem_append, List.mem_singleton] at hmem
  rcases hmem with hmem | rfl
  · exact hother d hmem
  · rwa [hd.cstr_filename] at hnew

end appendTurn

theorem Isolated.appendTurn (h : s.Isolated) (hex : s'.Exclusive) {filename buffer : Bytes} {i : ℕ}
    (hp : s.handler c = .appendSlot filename buffer i) (hrc : s.lock.pc c = .outside rc)
    (hstep : s.appendTurn c filename buffer i = some s') : s'.Isolated := by
  have hs := h.content c
  have hplaced := h.placed c
  have hid := h.lock.holder_of_guarded (hplaced.paused (by simp [hp, HandlerPc.Paused]))
  have hnamed : cstr filename ≠ [] := by simpa [hp, HandlerPc.Names] using hs.names
  have hentry := hs.entry (hplaced.client (by simp [hp])) hid
  simp only [hp, Drafts] at hentry
  obtain ⟨hcarries, hi, hother⟩ := hentry
  have hcall : ∀ result, s.Locally c (s.endAppend c filename buffer result) := fun result =>
    .enter .resetIfOwner _
  simp only [LockServer.appendTurn] at hstep
  split_ifs at hstep with hlt hname hfits hmatch hroom <;>
    simp only [Option.some.injEq] at hstep <;> subst hstep
  · refine h.locally hex ((hcall 0).write hid List.length_set) (.at
      (.appendReset filename buffer 0) (enter_handler _ _ _ _) (enter_pc _ _ _ _) hnamed hs.acked
      fun _ => ?_)
    simp only [Drafts]
    exact carries_new (w := ⟨cstr filename, cstr buffer⟩) hcarries hs.acked hi hlt hother hname
  · refine h.locally hex ((hcall 0).write hid List.length_set) (.at
      (.appendReset filename buffer 0) (enter_handler _ _ _ _) (enter_pc _ _ _ _) hnamed hs.acked
      fun _ => ?_)
    simp only [Drafts]
    exact carries_more (w := ⟨cstr filename, cstr buffer⟩) hcarries hs.acked hother
      ⟨hnamed, cstr_cstr _, cstr_cstr _⟩ hmatch
  · exact h.goes hex hrc hnamed fun _ => ⟨hcarries,
      slot_next (w := ⟨cstr filename, cstr buffer⟩) hcarries hs.acked hother hname hmatch⟩
  · refine h.asks hex hnamed fun _ => ?_
    simp only [Drafts, if_true]
    exact hcarries

/-- The slots below `k` are blank, and slot `k` is made so. -/
theorem blank_set {data : List TransactionEntry} {k : ℕ}
    (h : ∀ i < k, data.getD i blank = blank) :
    ∀ i < k + 1, (data.set k blank).getD i blank = blank := by
  intro i hi
  have hold : i ≠ k → data.getD i blank = blank := fun hne => h i (by omega)
  simp only [List.getD_eq_getElem?_getD, List.getElem?_set] at hold ⊢
  split_ifs with hk hlt
  · rfl
  · rfl
  · exact hold fun heq => hk heq.symm

theorem eq_padded_nil {data : List TransactionEntry} (hlen : data.length = maxTransactionEntries)
    (h : ∀ i < maxTransactionEntries, data.getD i blank = blank) : data = padded [] := by
  apply List.ext_getElem?
  intro i
  by_cases hi : i < maxTransactionEntries
  · have := h i hi
    rw [List.getD_eq_getElem?_getD, List.getElem?_eq_getElem (hlen ▸ hi), Option.getD_some] at this
    rw [List.getElem?_eq_getElem (hlen ▸ hi), this]
    simp [padded, hi]
  · rw [List.getElem?_eq_none (by omega), List.getElem?_eq_none (by simp [padded]; omega)]

theorem Isolated.resume (h : s.Isolated) {raft : RaftState} (hrc : s.lock.pc c = .outside rc)
    {out : Option LogEntry} (hstep : s.resume raft c rc = some (s', out)) : s'.Isolated := by
  have hex := h.toExclusive.resume hrc hstep
  have hs := h.content c
  have hnames := hs.names
  have hc : c ≠ -1 := by
    refine (h.placed c).client fun reply hret => ?_
    simp [LockServer.resume, hret] at hstep
  have hentry := hs.entry hc
  have hacq := (h.placed c).acquired
  rw [hrc] at hentry hacq
  unfold LockServer.resume at hstep
  cases hp : s.handler c with
  | returned reply => simp [hp] at hstep
  | acquire =>
      simp only [hp] at hstep hentry
      split_ifs at hstep with hneg <;> simp only [Option.some.injEq, Prod.mk.injEq] at hstep <;>
        obtain ⟨rfl, -⟩ := hstep
      · exact h.goes hex hrc trivial fun hid => hentry hid hneg
      · exact h.goes hex hrc trivial fun _ i hi => absurd hi (by omega)
  | acquireClear k =>
      simp only [hp] at hstep hacq hentry
      obtain ⟨hid, -⟩ := hacq rfl
      split_ifs at hstep with hk <;> simp only [Option.some.injEq, Prod.mk.injEq] at hstep <;>
        obtain ⟨rfl, -⟩ := hstep
      · exact h.locally hex ((Locally.goto _).write hid List.length_set)
          (.at (.acquireClear (k + 1)) (goto_handler _ _ _) hrc trivial hs.acked
            fun _ => blank_set (hentry hid))
      · exact h.goes hex hrc trivial
          fun _ => eq_padded_nil h.length fun i hi => hentry hid i (by omega)
  | acquireClient =>
      simp only [hp, Option.some.injEq, Prod.mk.injEq] at hstep hacq hentry
      obtain ⟨rfl, -⟩ := hstep
      obtain ⟨hid, -⟩ := hacq rfl
      exact h.locally hex ((Locally.goto _).write hid rfl)
        (.at .acquireId (goto_handler _ _ _) hrc trivial hs.acked fun _ => ⟨rfl, hentry hid⟩)
  | acquireId =>
      simp only [hp, Option.some.injEq, Prod.mk.injEq] at hstep hacq hentry
      obtain ⟨rfl, -⟩ := hstep
      obtain ⟨hid, -⟩ := hacq rfl
      exact h.locally hex ((Locally.goto _).write hid rfl)
        (.at .acquireTerm (goto_handler _ _ _) hrc trivial hs.acked fun _ => hentry hid)
  | acquireTerm =>
      simp only [hp, Option.some.injEq, Prod.mk.injEq] at hstep hentry
      obtain ⟨rfl, -⟩ := hstep
      exact h.goes hex hrc trivial hentry
  | acquireTag term =>
      simp only [hp, Option.some.injEq, Prod.mk.injEq] at hstep hentry
      obtain ⟨rfl, -⟩ := hstep
      refine h.locally hex ((Locally.goto _).ack []) (.at (.returned _) (goto_handler _ _ _) hrc
        trivial (by simp) fun hid => ?_)
      simpa [Drafts] using hentry hid
  | release term id =>
      simp only [hp] at hstep hentry
      split_ifs at hstep with hterm <;> simp only [Option.some.injEq, Prod.mk.injEq] at hstep <;>
        obtain ⟨rfl, -⟩ := hstep
      · exact h.asks hex trivial hentry
      · exact h.goes hex hrc trivial hentry
  | releasePause term id =>
      simp only [hp] at hstep hentry
      split_ifs at hstep with hzero <;> simp only [Option.some.injEq, Prod.mk.injEq] at hstep <;>
        obtain ⟨rfl, -⟩ := hstep
      · exact h.goes hex hrc trivial hentry
      · exact h.asks hex trivial hentry
  | releaseAppend term id | releaseReset term id =>
      simp only [hp, Option.some.injEq, Prod.mk.injEq] at hstep hentry
      obtain ⟨rfl, -⟩ := hstep
      exact h.asks hex trivial hentry
  | releaseUnlock term id =>
      simp only [hp] at hstep hentry
      split_ifs at hstep with hneg <;> simp only [Option.some.injEq, Prod.mk.injEq] at hstep <;>
        obtain ⟨rfl, -⟩ := hstep <;> exact h.goes hex hrc trivial hentry
  | releasePoll term id =>
      simp only [hp] at hstep hentry
      split_ifs at hstep <;> simp only [Option.some.injEq, Prod.mk.injEq] at hstep <;>
        obtain ⟨rfl, -⟩ := hstep
      · exact h
      all_goals exact h.goes hex hrc trivial hentry
  | append filename buffer =>
      simp only [hp] at hstep hnames hentry
      split_ifs at hstep with hneg <;> simp only [Option.some.injEq, Prod.mk.injEq] at hstep <;>
        obtain ⟨rfl, -⟩ := hstep
      · exact h.goes hex hrc trivial hentry
      · exact h.goes hex hrc hnames fun hid => ⟨hentry hid, Nat.zero_le _, by simp⟩
  | appendSlot filename buffer i =>
      simp only [hp, Option.map_eq_some_iff, Prod.mk.injEq] at hstep
      obtain ⟨s₁, hturn, rfl, -⟩ := hstep
      exact h.appendTurn hex hp hrc hturn
  | appendReset filename buffer result =>
      simp only [hp] at hstep hnames hentry
      split_ifs at hstep with hlimit <;> simp only [Option.some.injEq, Prod.mk.injEq] at hstep <;>
        obtain ⟨rfl, -⟩ := hstep
      · refine h.goes hex hrc trivial fun hid => ?_
        simpa [Drafts, hlimit] using hentry hid
      · refine h.locally hex ((Locally.goto _).ack _) (.at (.returned _) (goto_handler _ _ _) hrc
          trivial ?_ fun hid => ?_)
        · simp only [Function.update_self, List.mem_append, List.mem_singleton]
          rintro w (hw | rfl)
          · exact hs.acked w hw
          · exact ⟨hnames, cstr_cstr _, cstr_cstr _⟩
        · simpa [Drafts, hlimit] using hentry hid

theorem Isolated.accept (h : s.Isolated) {request : LockRequest}
    (hok : s.Undisturbed (.accept c request)) (hstep : s.accept c request = some s') :
    s'.Isolated := by
  have hex := h.toExclusive.accept hstep
  have hcalls := (h.placed c).calls
  unfold LockServer.accept at hstep
  split at hstep
  · rename_i reply hp
    split_ifs at hstep with hc
    simp only [Option.some.injEq] at hstep
    subst hstep
    have hentry := (h.content c).entry hc
    simp only [HandlerPc.Calls, HandlerPc.calls, hp] at hcalls hentry
    obtain ⟨rc, hrc⟩ := hcalls
    cases request with
    | acquire => exact h.asks hex trivial hentry
    | release term id => exact h.goes hex hrc trivial hentry
    | append filename buffer => exact h.asks hex hok hentry
  · exact absurd hstep (by simp)

theorem Isolated.step (h : s.Isolated) {raft : RaftState} {out : Option LogEntry}
    (hstep : s.step raft c = some (s', out)) : s'.Isolated := by
  unfold LockServer.step at hstep
  split at hstep
  · rename_i rc hrc
    exact h.resume hrc hstep
  · simp only [Option.map_eq_some_iff, Prod.mk.injEq] at hstep
    obtain ⟨l, hl, rfl, -⟩ := hstep
    exact h.advance (TimedLock.advance_cases hl)

theorem Isolated.exec (h : s.Isolated) {x : HandlerAction} (hok : s.Undisturbed x)
    (hx : s.exec x = some s') : s'.Isolated := by
  cases x with
  | accept c request => exact h.accept hok hx
  | step c raft =>
      simp only [LockServer.exec, Option.map_eq_some_iff] at hx
      obtain ⟨⟨s₁, out⟩, hstep, rfl⟩ := hx
      exact h.step hstep
  | fire =>
      simp only [LockServer.exec, Option.map_eq_some_iff] at hx
      obtain ⟨l, hl, rfl⟩ := hx
      exact h.fire hok hl

/-- Only a release hands out an entry, and only after its pause. -/
theorem step_some {raft : RaftState} {e : LogEntry} (hstep : s.step raft c = some (s', some e)) :
    ∃ term id rc, s.handler c = .releaseAppend term id ∧ s.lock.pc c = .outside rc ∧
      e = s.currentLogEntry := by
  unfold LockServer.step at hstep
  split at hstep
  · rename_i rc hrc
    unfold LockServer.resume at hstep
    split at hstep <;> (try split_ifs at hstep) <;> simp_all
  · simp at hstep

end LockServer

/-- The entry a release hands to `Raft_append_entry` is that of its client,
with the writes acknowledged to it since its last successful acquire and no
others. -/
theorem released_entry_own {s : LockServer}
    (hrun : Machine.Steps LockServer.exec LockServer.Undisturbed .init s) (raft : RaftState)
    (c : ℤ) (s' : LockServer) (e : LogEntry) (hstep : s.step raft c = some (s', some e)) :
    e.client = c ∧ e.data = padded (transaction (s.acked c)) := by
  have h : s.Isolated := hrun.invariant (fun _ _ _ h hok hx => h.exec hok hx)
    LockServer.isolated_init
  obtain ⟨term, id, rc, hp, hrc, rfl⟩ := LockServer.step_some hstep
  have hplaced := h.placed c
  have hid := h.lock.holder_of_guarded (hplaced.paused (by simp [hp, HandlerPc.Paused]))
  have hentry := (h.content c).entry (hplaced.client (by simp [hp])) hid
  simp only [hp, Drafts] at hentry
  exact hentry

instance (s : LockServer) (x : HandlerAction) : Decidable (s.Undisturbed x) :=
  match x with
  | .accept _ (.append filename _) => inferInstanceAs (Decidable (cstr filename ≠ []))
  | .accept _ .acquire | .accept _ (.release _ _) | .step _ _ => inferInstanceAs (Decidable True)
  | .fire => inferInstanceAs (Decidable (_ → _))

/-- A server in its first term. -/
def firstTerm : RaftState := { serverInit (fun i => i.val) 0 with currentTerm := 1 }

def handlerSteps (c : ℤ) (n : ℕ) : List HandlerAction := List.replicate n (.step c firstTerm)

/-- Client `1` acquires the lock, writes to a file and is about to append its
entry. -/
def firstTransaction : List HandlerAction :=
  .accept 1 .acquire :: handlerSteps 1 20 ++ .accept 1 (.append [97] [98, 0]) :: handlerSteps 1 8 ++
    .accept 1 (.release 1 1) :: handlerSteps 1 5

/-- The entry that the next step of `c` hands out passes the test. -/
def handsOut (s : LockServer) (c : ℤ) (p : LogEntry → Bool) : Bool :=
  match s.step firstTerm c with
  | some (_, some e) => p e
  | _ => false

theorem exists_of_handsOut {s : LockServer} {c : ℤ} {p : LogEntry → Bool}
    (h : handsOut s c p = true) :
    ∃ s' e, s.step firstTerm c = some (s', some e) ∧ p e = true := by
  unfold handsOut at h
  split at h
  · exact ⟨_, _, ‹_›, h⟩
  · exact absurd h (by simp)

set_option maxRecDepth 10000 in
theorem firstTransaction_runs : (Machine.execWhile LockServer.exec
    (fun s x => decide (s.Undisturbed x)) .init firstTransaction).any
    (fun s => handsOut s 1 fun _ => decide (s.acked 1 = [⟨[97], [98]⟩])) = true := by
  decide +kernel

theorem first_entry_own : ∃ s : LockServer,
    Machine.Steps LockServer.exec LockServer.Undisturbed .init s ∧
    ∃ s' e, s.step firstTerm 1 = some (s', some e) ∧ e.client = 1 ∧
      e.data = padded [⟨[97], [98]⟩] := by
  obtain ⟨s, hrun, htest⟩ := Machine.exists_of_execWhile LockServer.Undisturbed
    (fun _ _ h => of_decide_eq_true h) firstTransaction_runs
  obtain ⟨s', e, hstep, hacked⟩ := exists_of_handsOut htest
  obtain ⟨hclient, hdata⟩ := released_entry_own hrun firstTerm 1 s' e hstep
  rw [of_decide_eq_true hacked] at hdata
  exact ⟨s, hrun, s', e, hstep, hclient, hdata⟩

/-- The timer fires on client `1` in its `handle_lock_acquire`, client `2`
acquires the lock, and then the handler of client `1` goes on to its end. -/
def lateAcquire : List HandlerAction :=
  .accept 1 .acquire :: handlerSteps 1 4 ++ List.replicate 4 .fire ++
    .accept 2 .acquire :: handlerSteps 2 20 ++
    handlerSteps 1 16 ++ .accept 2 (.release 1 1) :: handlerSteps 2 5

set_option maxRecDepth 10000 in
theorem lateAcquire_runs : (Machine.execAll LockServer.exec .init lateAcquire).any
    (fun s => handsOut s 2 fun e => decide (e.client = 1)) = true := by
  decide +kernel

/-- The entry of client `2` goes to the log as one of client `1`. -/
theorem released_entry_of_another : ∃ s : LockServer, Machine.Reaches LockServer.exec .init s ∧
    ∃ s' e, s.step firstTerm 2 = some (s', some e) ∧ e.client ≠ 2 := by
  obtain ⟨s, hrun, htest⟩ := Machine.exists_of_execAll lateAcquire_runs
  obtain ⟨s', e, hstep, hclient⟩ := exists_of_handsOut htest
  refine ⟨s, hrun, s', e, hstep, ?_⟩
  rw [of_decide_eq_true hclient]
  decide

end RaftLock
