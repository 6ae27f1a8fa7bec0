import RaftLock.Raft.Verdict
import RaftLock.Safety.Provenance
import RaftLock.Safety.Windows
import RaftLock.Transfer.Fields

/-!
What takes an entry out of a server's log.

A request of another leader writes over its slot or cuts the log off before
it; the last request of a transfer puts a snapshot in the place of the log; and
a snapshot of the server's own moves the start of the log past it. Every other
section leaves an entry where it is, but for the count of its replicas.
-/

namespace RaftLock

open Outcome

section Sections

variable {r r' : RaftState} {addr : Server} {packet : Packet} {es : List Effect}
  {p p' : LogEntry → Prop}

/-- The log holds an entry that meets `p`, whatever its count of replicas. -/
def Bears (r : RaftState) (p : LogEntry → Prop) : Prop :=
  ∃ i e, getLog r i = some e ∧ p e.core

instance (r : RaftState) (p : LogEntry → Prop) [DecidablePred p] : Decidable (Bears r p) :=
  decidable_of_iff
    (∃ k ∈ List.range (r.logCount - r.startLogIndex).toNat, p (r.log k).core) <| by
    constructor
    · rintro ⟨k, hk, hp⟩
      rw [List.mem_range] at hk
      refine ⟨r.startLogIndex + k, r.log k, ?_, hp⟩
      rw [getLog_of_mem (by omega) (by omega)]
      congr 2
      omega
    · rintro ⟨i, e, he, hp⟩
      obtain ⟨hlo, hhi, rfl⟩ := getLog_some he
      exact ⟨(i - r.startLogIndex).toNat, List.mem_range.mpr (by omega), hp⟩

theorem Bears.mono (h : Bears r p) (hp : ∀ e, p e → p' e) : Bears r p' := by
  obtain ⟨i, e, he, hpe⟩ := h
  exact ⟨i, e, he, hp _ hpe⟩

theorem Bears.of_window (h : Bears r p) (hlog : r'.log = r.log)
    (hstart : r'.startLogIndex = r.startLogIndex) (hcount : r'.logCount = r.logCount) :
    Bears r' p := by
  obtain ⟨i, e, he, hp⟩ := h
  exact ⟨i, e, by simpa only [getLog, hlog, hstart, hcount] using he, hp⟩

/-- A slot behind the window is written, and the window takes it in. -/
theorem Bears.of_push (h : Bears r p) {e' : LogEntry}
    (hlog : r'.log = Function.update r.log (r.logCount - r.startLogIndex).toNat e')
    (hstart : r'.startLogIndex = r.startLogIndex) (hcount : r'.logCount = r.logCount + 1) :
    Bears r' p := by
  obtain ⟨i, e, he, hp⟩ := h
  obtain ⟨hlo, hhi, heq⟩ := getLog_some he
  have hne : (i - r.startLogIndex).toNat ≠ (r.logCount - r.startLogIndex).toNat := by omega
  refine ⟨i, e, ?_, hp⟩
  rw [getLog_of_mem (by omega) (by omega), hlog, hstart, Function.update_of_ne hne, heq]

theorem bears_counted (i : ℤ) (h : Bears r p) : Bears (counted r i) p := by
  obtain ⟨j, e, he, hp⟩ := h
  have hcore := core_counted r i j
  rw [he] at hcore
  obtain ⟨e', he', heq⟩ := Option.map_eq_some_iff.mp hcore
  refine ⟨j, e', he', ?_⟩
  rw [heq]
  exact hp

/-! ### Requests of another leader -/

/-- Handling the packet takes the entry at `i` out of the log, or puts one in
its place that does not meet `p`. -/
def Replaces (r : RaftState) (p : LogEntry → Prop) (i : ℤ) : Packet → Prop
  | .append q => Stores r q ∧
      ((q.prevLogIndex + 1 < i ∧ getLogTerm r (q.prevLogIndex + 1) ≠ q.entry.term) ∨
        (q.prevLogIndex + 1 = i ∧ ¬ p q.entry.core))
  | .installSnapshot q => installable (arrived r (.installSnapshot q)) q ∧ q.done = true
  | .vote _ | .response _ => False

/-- No entry that meets `p` is replaced. -/
def Spares (r : RaftState) (p : LogEntry → Prop) (packet : Packet) : Prop :=
  ∀ i e, getLog r i = some e → p e.core → ¬ Replaces r p i packet

/-- An entry behind the one written stays where the log is not cut off. -/
theorem Bears.stored (h : Bears r p) {q : AppendRequest} (hs : Stores r q)
    (hlo : r.startLogIndex ≤ q.prevLogIndex + 1)
    (hhi : q.prevLogIndex + 1 < storedCount r q) (hspares : Spares r p (.append q)) :
    Bears (stored r q) p := by
  obtain ⟨i, e, he, hp⟩ := h
  have hkept := hspares i e he hp
  simp only [Replaces, not_and, not_or, not_not] at hkept
  obtain ⟨hbehind, hsame⟩ := hkept hs
  obtain ⟨hmem, hcount, heq⟩ := getLog_some he
  rcases eq_or_ne (q.prevLogIndex + 1) i with hi | hi
  · refine ⟨i, q.entry, ?_, hsame hi⟩
    rw [getLog_of_mem (r := RaftLock.stored r q) (by simp only [RaftLock.stored]; omega)
      (by simp only [RaftLock.stored]; omega)]
    simp only [RaftLock.stored, hi, Function.update_self]
  · have hlt : i < storedCount r q := by
      rcases lt_or_gt_of_ne hi with hlt | hgt
      · have hterm := hbehind hlt
        unfold storedCount
        rw [if_neg (fun h => h.2 hterm)]
        split_ifs <;> omega
      · omega
    have hne : (i - r.startLogIndex).toNat ≠ (q.prevLogIndex + 1 - r.startLogIndex).toNat := by
      omega
    refine ⟨i, e, ?_, hp⟩
    rw [getLog_of_mem (r := RaftLock.stored r q) hmem hlt]
    simp only [RaftLock.stored, Function.update_of_ne hne, heq]

theorem Handled.bears (h : Handled r addr packet r' es) (hspares : Spares r p packet)
    (hbears : Bears r p) : Bears r' p := by
  cases h with
  | entryStored q hterm hc hn hlo hhi hroom hcommit =>
      have hle : (Packet.append q).term ≤ r.currentTerm := hterm.le
      have hown : arrived r (.append q) = r := arrived_of_le hle
      have hs : Stores r q := ⟨by rwa [hown], hn⟩
      exact (hbears.stored hs hlo hhi hspares).of_window rfl rfl rfl
  | installDone q hterm hi hd es hes =>
      obtain ⟨i, e, he, hp⟩ := hbears
      have hle : (Packet.installSnapshot q).term ≤ r.currentTerm := hterm.le
      have hown : arrived r (.installSnapshot q) = r := arrived_of_le hle
      exact absurd ⟨by rwa [hown], hd⟩ (hspares i e he hp)
  | voteDecided q hterm hstate hs hmany hlo hroom _ hr' =>
      subst hr'
      exact hbears.of_push rfl rfl rfl
  | entryCounted q hterm hstate hid hnext hlt hs hnew hown hroom n hn hcommit _ hr' =>
      subst hr'
      exact (bears_counted _ hbears).of_window rfl rfl rfl
  | installChunk q hterm hi hd _ hr' =>
      subst hr'
      exact hbears.of_window rfl rfl rfl
  | installAnswered q hterm hstate hid hnext _ hr' =>
      subst hr'
      exact hbears.of_window rfl rfl rfl
  | appendAnswered q hterm hstate hid hnext next hans _ hr' =>
      subst hr'
      exact hbears.of_window rfl rfl rfl
  | entryAnswered q hterm hstate hid hnext hlt hs hskip _ hr' =>
      subst hr'
      exact hbears.of_window rfl rfl rfl
  | _ => exact hbears.of_window rfl rfl rfl

theorem bears_arrived (h : Bears r p) : Bears (arrived r packet) p :=
  h.of_window (arrived_log r packet) (arrived_startLogIndex r packet) (arrived_logCount r packet)

theorem spares_arrived (h : Spares r p packet) : Spares (arrived r packet) p packet := by
  intro i e he hp
  rw [getLog_arrived] at he
  have hle := le_arrived r packet
  have hkept := h i e he hp
  cases packet with
  | append q =>
      simp only [Replaces, Stores, getLogTerm_arrived, arrived_of_le hle] at hkept ⊢
      exact hkept
  | installSnapshot q =>
      simp only [Replaces, arrived_of_le hle] at hkept ⊢
      exact hkept
  | vote q => exact not_false
  | response q => exact not_false

theorem handlePacket_bears (hf : (handlePacket r addr packet).fault = false)
    (hspares : Spares r p packet) (hbears : Bears r p) :
    Bears (handlePacket r addr packet).raft p := by
  rcases handlePacket_cases hf with ⟨-, heq⟩ | ⟨es, h, -⟩
  · rw [heq]
    exact bears_arrived hbears
  · exact h.bears (spares_arrived hspares) (bears_arrived hbears)

/-! ### The other sections -/

theorem appendEntry_bears {e : LogEntry} (hf : (appendEntry r e).fault = false)
    (hbears : Bears r p) : Bears (appendEntry r e).raft p := by
  rcases appendEntry_ok hf with heq | ⟨r', heq, -, -, -, rfl⟩
  · rw [heq]
    exact hbears
  · rw [heq]
    exact hbears.of_push rfl rfl rfl

/-- An entry that `Raft_append_entry` stores is in the log, as the leader's
entry of a client. -/
theorem appendEntry_stores {e : LogEntry} (hs : Storing r) (hf : (appendEntry r e).fault = false)
    (hp : p { e with term := r.currentTerm, nServersReplicated := 0, type := .clientLog }) :
    Bears (appendEntry r e).raft p := by
  rcases appendEntry_ok hf with heq | ⟨r', heq, -, hlo, -, rfl⟩
  · have hcount := congrArg (fun o => o.raft.logCount) heq
    unfold appendEntry at hcount hf
    rw [if_neg (by push Not; exact hs)] at hcount hf
    simp only at hcount hf
    split at hcount
    · rename_i hm
      rw [hm] at hf
      exact absurd hf (by simp [die])
    · rename_i r₁ hm
      obtain ⟨-, -, -, rfl⟩ := modifyLog_some hm
      simp [saveState, emit, ret] at hcount
  · rw [heq]
    refine ⟨r.logCount, _, getLog_of_mem hlo ?_, ?_⟩
    · show r.logCount < r.logCount + 1
      omega
    · simpa [saveState, emit, LogEntry.core] using hp

/-- The entries of the window that lie before the new start of the log. -/
def leftBehind (r r' : RaftState) : List LogEntry :=
  (List.range (r'.startLogIndex - r.startLogIndex).toNat).filterMap fun j : ℕ =>
    getLog r (r.startLogIndex + j)

theorem mem_leftBehind {i : ℤ} {e : LogEntry} (he : getLog r i = some e)
    (hi : i < r'.startLogIndex) : e ∈ leftBehind r r' := by
  have hlo := (getLog_some he).1
  have hslot : r.startLogIndex + ((i - r.startLogIndex).toNat : ℤ) = i := by omega
  have hlt : (i - r.startLogIndex).toNat < (r'.startLogIndex - r.startLogIndex).toNat := by omega
  refine List.mem_filterMap.mpr ⟨(i - r.startLogIndex).toNat, List.mem_range.mpr hlt, ?_⟩
  rw [hslot, he]

/-- Shifting the log keeps the entries behind its new start. -/
theorem createSnapshotShift_bears {n : ℤ} (hf : (createSnapshotShift r n).fault = false)
    (hbears : Bears r p) : Bears (createSnapshotShift r n).raft p ∨
      ∃ e ∈ leftBehind r (createSnapshotShift r n).raft, p e.core := by
  obtain ⟨i, e, he, hp⟩ := hbears
  obtain ⟨hlo, hhi, heq⟩ := getLog_some he
  obtain ⟨hn, hshift⟩ := createSnapshotShift_ok hf
  rw [hshift]
  rcases Int.lt_or_le i n with hlt | hle
  · exact Or.inr ⟨e, mem_leftBehind he hlt, hp⟩
  · have hstart := (hn (by omega)).1
    refine Or.inl ⟨i, e, ?_, hp⟩
    have hslot : (i - n).toNat + (n - r.startLogIndex).toNat = (i - r.startLogIndex).toNat := by
      omega
    unfold getLog
    rw [if_neg (by simp only [saveState, emit]; omega)]
    simp only [saveState, emit]
    rw [copyDown_apply, if_pos (by omega), hslot, heq]

theorem snapshotStep_bears {pc : SnapshotPc} (hf : (snapshotStep r pc).1.fault = false)
    (hbears : Bears r p) : Bears (snapshotStep r pc).1.raft p ∨
      ∃ e ∈ leftBehind r (snapshotStep r pc).1.raft, p e.core := by
  have h := snapshotStep_section r pc
  generalize (snapshotStep r pc).1 = o at hf h ⊢
  cases h with
  | enter n hpc he => exact Or.inl (hbears.of_window rfl rfl rfl)
  | shift n prev hpc => exact createSnapshotShift_bears hf hbears
  | plain _ hraft hes =>
      rw [hraft]
      exact Or.inl hbears

theorem Sends.bears {t : LeaderThread} {pc : Option LeaderPc} (h : Sends r t r' es pc)
    (hbears : Bears r p) : Bears r' p := by
  cases h with
  | first hpc hfree q it hterm hid => exact hbears.of_window rfl rfl rfl
  | giveUp q it hpc => exact hbears.of_window rfl rfl rfl
  | finish q it hpc hid hres hdone => exact hbears.of_window rfl rfl rfl
  | _ => exact hbears

end Sections

/-! ### A step of the cluster -/

/-- The packet that the step delivers to `s` spares the entries that meet
`p`. -/
def Action.Spares (c : Cluster) (s : Server) (p : LogEntry → Prop) (x : Action) : Prop :=
  ∀ k d, x = .deliver k none → c.net[k]? = some d → d.dst = s →
    RaftLock.Spares (c.nodes s).raft p d.packet

/-- A server that is up before and after a step still has the entry, or has
just moved it into a snapshot. -/
theorem NodeTurn.bears {c : Cluster} {s : Server} {x : Action} {n' : Node} {p : LogEntry → Prop}
    (h : NodeTurn c s (c.nodes s) x n') (hup : (c.nodes s).up = true) (hon : n'.up = true)
    (hspares : x.Spares c s p) (hbears : Bears (c.nodes s).raft p) :
    Bears n'.raft p ∨ (∃ k, x = .snapshotThread s k none) ∧
      ∃ e ∈ leftBehind (c.nodes s).raft n'.raft, p e.core := by
  cases h with
  | down _ _ hdown _ => exact absurd (hon.symm.trans hdown) (by simp)
  | idle _ hx _ _ _ hraft => exact Or.inl (hraft ▸ hbears)
  | elect _ hx _ _ _ hraft =>
      rw [hraft, attemptToElect_eq]
      exact Or.inl (hbears.of_window rfl rfl rfl)
  | packet k d _ _ _ hd hs hf hraft =>
      rw [hraft]
      exact Or.inl (handlePacket_bears hf (hspares k d rfl hd hs) hbears)
  | append e _ _ _ hf hraft =>
      rw [hraft]
      exact Or.inl (appendEntry_bears hf hbears)
  | sender k t _ _ _ ht hf hraft =>
      rw [hraft]
      exact Or.inl ((leaderStep_sends hf).bears hbears)
  | snapshot k pc _ _ _ hpc hf hraft =>
      rw [hraft]
      exact (snapshotStep_bears hf hbears).imp_right fun h => ⟨⟨k, rfl⟩, h⟩
  | restart st _ hdown => exact absurd (hup.symm.trans hdown) (by simp)

/-- A server that is still up after a call of `Raft_append_entry` has run it
to its end. -/
theorem Cluster.exec_append {c c' : Cluster} {s : Server} {e : LogEntry} {crashAt : Option ℕ}
    (hx : c.exec (.append s e crashAt) = some c') (hon : (c'.nodes s).up = true) :
    crashAt = none ∧ (appendEntry (c.nodes s).raft e).fault = false ∧
      (c'.nodes s).raft = (appendEntry (c.nodes s).raft e).raft := by
  simp only [Cluster.exec] at hx
  split_ifs at hx
  simp only [Option.some.injEq] at hx
  subst hx
  rw [Cluster.settle_nodes, if_pos rfl] at hon ⊢
  obtain ⟨hnone, hf, hraft, -⟩ := Node.settle_threads hon
  exact ⟨hnone, hf, hraft⟩

end RaftLock
