import RaftLock.Library.Blocks
import RaftLock.Recovery.Snapshots

/-!
The blocks of a snapshot, and what is rebuilt from them.

`snapshot_it_get_next` reads a file in blocks of `BUFFER_SIZE` bytes until a
short one; `Raft_add_to_snapshot` appends the string that the block holds. The
two agree on a block that ends before the buffer does. A full block has no
terminating NUL, and `"%s"` goes on behind the buffer.
-/

namespace RaftLock

open Appends Blocks

/-! ### The sender -/

/-- The loop of `Raft_send_snapshot` over the iterator: the blocks it sends,
in order. -/
inductive Produces (fs : FileSystem) : SnapshotIterator → List (Bytes × Bytes) → Prop
  | done (it : SnapshotIterator) (h : (it.getNext fs).2 = none) : Produces fs it []
  | next (it it' : SnapshotIterator) (chunk : Bytes × Bytes) (chunks : List (Bytes × Bytes))
      (h : it.getNext fs = (it', some chunk)) (hrest : Produces fs it' chunks) :
      Produces fs it (chunk :: chunks)

/-- `bzero` and `fread`: the block, and zeros behind it. -/
def zeroFilled (block : Bytes) : Bytes := block ++ List.replicate (bufferSize - block.length) 0

/-- What is sent of the file `k`. -/
def fileChunks (k : ℕ) (c : Bytes) : List (Bytes × Bytes) :=
  (blocks bufferSize c).map fun b => (fileName k, zeroFilled b)

/-- What is sent of the `count` files from `k` on. -/
def chunksFrom (fs : FileSystem) (id : ℤ) : ℕ → ℕ → List (Bytes × Bytes)
  | _, 0 => []
  | k, count + 1 =>
    (match fs (getSnapshotPath id) (fileName k) with
      | none => []
      | some c => fileChunks k c) ++ chunksFrom fs id (k + 1) count

section Sender

variable {fs : FileSystem} {id : ℤ} {it : SnapshotIterator} {chunks chunks' : List (Bytes × Bytes)}

theorem Produces.unique (h : Produces fs it chunks) (h' : Produces fs it chunks') :
    chunks = chunks' := by
  induction h generalizing chunks' with
  | done it h =>
      cases h' with
      | done _ _ => rfl
      | next _ it' chunk rest hnext _ => exact absurd (congrArg Prod.snd hnext) (by simp [h])
  | next it it₁ chunk rest h _ ih =>
      cases h' with
      | done _ hdone => exact absurd (congrArg Prod.snd h) (by simp [hdone])
      | next _ it₂ chunk' rest' hnext hrest =>
          obtain ⟨rfl, hchunk⟩ := Prod.mk.inj (h.symm.trans hnext)
          rw [Option.some.inj hchunk, ih hrest]

/-- An open file is read on. -/
theorem openNext_some (turns : ℕ) {rest : Bytes} (h : it.f = some rest) :
    it.openNext fs turns = it := by
  cases turns with
  | zero => rfl
  | succ turns => rw [SnapshotIterator.openNext, h]

/-- The search for the next file comes to its end in the turns it has. -/
theorem openNext_succ {turns : ℕ} (h : 100 ≤ it.fileno + turns) (hturns : 0 < turns) :
    it.openNext fs (turns + 1) = it.openNext fs turns := by
  induction turns generalizing it with
  | zero => omega
  | succ turns ih =>
      rw [SnapshotIterator.openNext]
      conv_rhs => rw [SnapshotIterator.openNext]
      cases it.f with
      | some rest => rfl
      | none =>
          simp only
          split_ifs with hlast
          · rfl
          · refine ih ?_ ?_
            · simp only
              omega
            · omega

/-- A file that is not there is passed over. -/
theorem getNext_absent {k : ℕ} (hk : k < 100)
    (hfile : fs (getSnapshotPath id) (fileName k) = none) :
    (⟨(k : ℤ) - 1, none, id⟩ : SnapshotIterator).getNext fs =
      (⟨k, none, id⟩ : SnapshotIterator).getNext fs := by
  have hopen : (⟨(k : ℤ) - 1, none, id⟩ : SnapshotIterator).openNext fs 101 =
      (⟨k, none, id⟩ : SnapshotIterator).openNext fs 101 := by
    rw [openNext_succ
      (show 100 ≤ (⟨k, none, id⟩ : SnapshotIterator).fileno + (100 : ℕ) by simp only; omega)
        (by omega),
      SnapshotIterator.openNext]
    simp only [sub_add_cancel, Int.toNat_natCast, hfile]
    rw [if_neg (by omega)]
  simp only [SnapshotIterator.getNext, hopen]

/-- A file that is there is opened. -/
theorem getNext_present {k : ℕ} (hk : k < 100) {c : Bytes}
    (hfile : fs (getSnapshotPath id) (fileName k) = some c) :
    (⟨(k : ℤ) - 1, none, id⟩ : SnapshotIterator).getNext fs =
      (⟨k, some c, id⟩ : SnapshotIterator).getNext fs := by
  have hopen : (⟨(k : ℤ) - 1, none, id⟩ : SnapshotIterator).openNext fs 101 =
      (⟨k, some c, id⟩ : SnapshotIterator).openNext fs 101 := by
    rw [openNext_some 101 (show (⟨k, some c, id⟩ : SnapshotIterator).f = some c from rfl),
      SnapshotIterator.openNext]
    simp only [sub_add_cancel, Int.toNat_natCast, hfile]
    rw [if_neg (by omega), openNext_some _ rfl]
  simp only [SnapshotIterator.getNext, hopen]

theorem getNext_open (k : ℕ) (c : Bytes) :
    (⟨k, some c, id⟩ : SnapshotIterator).getNext fs =
      (⟨k, if c.length < bufferSize then none else some (c.drop bufferSize), id⟩,
        some (fileName k, zeroFilled (c.take bufferSize))) := by
  have hshort : (c.take bufferSize).length < bufferSize ↔ c.length < bufferSize := by
    rw [List.length_take]
    omega
  simp only [SnapshotIterator.getNext,
    openNext_some 101 (show (⟨k, some c, id⟩ : SnapshotIterator).f = some c from rfl), hshort,
    Int.toNat_natCast, zeroFilled]

theorem Produces.congr {it' : SnapshotIterator} (h : Produces fs it' chunks)
    (heq : it.getNext fs = it'.getNext fs) : Produces fs it chunks := by
  cases h with
  | done _ hdone => exact .done _ (heq ▸ hdone)
  | next _ it₁ chunk rest hnext hrest => exact .next _ it₁ chunk rest (heq.trans hnext) hrest

/-- An open file is sent block by block, and then the rest. -/
theorem produces_open {k : ℕ} (hrest : Produces fs ⟨k, none, id⟩ chunks) (c : Bytes) :
    Produces fs ⟨k, some c, id⟩ (fileChunks k c ++ chunks) := by
  induction c using block_induction (n := bufferSize) (by decide) with
  | hshort c h =>
      rw [fileChunks, blocks_short h, List.map_singleton, List.singleton_append]
      refine .next _ ⟨k, none, id⟩ _ _ ?_ hrest
      rw [getNext_open, if_pos h, List.take_of_length_le h.le]
  | hfull c h ih =>
      rw [fileChunks, blocks_full (by decide) h, List.map_cons, List.cons_append]
      refine .next _ ⟨k, some (c.drop bufferSize), id⟩ _ _ ?_ ih
      rw [getNext_open, if_neg (by omega)]

theorem produces_from {count k : ℕ} (h : k + count = 100) :
    Produces fs ⟨(k : ℤ) - 1, none, id⟩ (chunksFrom fs id k count) := by
  induction count generalizing k with
  | zero =>
      refine .done _ ?_
      obtain rfl : k = 100 := by omega
      rfl
  | succ count ih =>
      have hnext : Produces fs ⟨k, none, id⟩ (chunksFrom fs id (k + 1) count) := by
        have := ih (k := k + 1) (by omega)
        rwa [Nat.cast_succ, add_sub_cancel_right] at this
      rw [chunksFrom]
      cases hfile : fs (getSnapshotPath id) (fileName k) with
      | none => exact hnext.congr (getNext_absent (by omega) hfile)
      | some c => exact (produces_open hnext c).congr (getNext_present (by omega) hfile)

/-- The sender's loop ends, and what it has sent is determined. -/
theorem produces_snapshot (fs : FileSystem) (id : ℤ) :
    Produces fs (snapshotItInit id) (chunksFrom fs id 0 100) := by
  show Produces fs ⟨((0 : ℕ) : ℤ) - 1, none, id⟩ _
  exact produces_from rfl

/-- The search stops at a file, or behind the last number. -/
theorem openNext_stops {turns : ℕ} (hturns : 100 ≤ it.fileno + turns) :
    it.fileno ≤ (it.openNext fs turns).fileno ∧
      ((it.openNext fs turns).f = none → 100 ≤ (it.openNext fs turns).fileno) := by
  induction turns generalizing it with
  | zero =>
      simp only [Nat.cast_zero, add_zero] at hturns
      exact ⟨le_rfl, fun _ => hturns⟩
  | succ turns ih =>
      rw [SnapshotIterator.openNext]
      cases hf : it.f with
      | some rest => exact ⟨le_rfl, fun h => absurd (hf.symm.trans h) (by simp)⟩
      | none =>
          simp only
          split_ifs with hlast
          · exact ⟨by simp, fun _ => hlast⟩
          · push_cast at hturns
            let it' : SnapshotIterator := { it with
              fileno := it.fileno + 1
              f := fs (getSnapshotPath it.snapshotId) (fileName (it.fileno + 1).toNat) }
            have hnext := ih (show 100 ≤ it'.fileno + turns by simp only [it']; omega)
            simp only [it'] at hnext
            exact ⟨by omega, hnext.2⟩

/-- The number of the current file does not go down, and once the iterator has
come to its end it is past the last one. -/
theorem getNext_fileno (hlo : -1 ≤ it.fileno) :
    it.fileno ≤ (it.getNext fs).1.fileno ∧
      ((it.getNext fs).2 = none → (it.getNext fs).1.f = none ∧ 100 ≤ (it.getNext fs).1.fileno) := by
  have hstops := @openNext_stops fs it 101 (by push_cast; omega)
  unfold SnapshotIterator.getNext
  simp only
  cases hf : (it.openNext fs 101).f with
  | none => exact ⟨hstops.1, fun _ => ⟨hf, hstops.2 hf⟩⟩
  | some rest => exact ⟨hstops.1, fun h => absurd h (by simp)⟩

theorem mem_chunksFrom {count k : ℕ} {chunk : Bytes × Bytes}
    (h : chunk ∈ chunksFrom fs id k count) : ∃ j c, k ≤ j ∧ j < k + count ∧
      fs (getSnapshotPath id) (fileName j) = some c ∧ chunk ∈ fileChunks j c := by
  induction count generalizing k with
  | zero => exact absurd h (by simp [chunksFrom])
  | succ count ih =>
      rw [chunksFrom, List.mem_append] at h
      rcases h with h | h
      · cases hfile : fs (getSnapshotPath id) (fileName k) with
        | none => exact absurd h (by simp [hfile])
        | some c =>
            rw [hfile] at h
            exact ⟨k, c, le_rfl, by omega, hfile, h⟩
      · obtain ⟨j, c, hlo, hhi, hfile, hmem⟩ := ih h
        exact ⟨j, c, by omega, by omega, hfile, hmem⟩

theorem fileChunks_subset {count k j : ℕ} (hlo : k ≤ j) (hhi : j < k + count) {c : Bytes}
    (hfile : fs (getSnapshotPath id) (fileName j) = some c) :
    ∀ chunk ∈ fileChunks j c, chunk ∈ chunksFrom fs id k count := by
  intro chunk hchunk
  induction count generalizing k with
  | zero => omega
  | succ count ih =>
      rw [chunksFrom, List.mem_append]
      rcases eq_or_lt_of_le hlo with rfl | hlt
      · rw [hfile]
        exact Or.inl hchunk
      · exact Or.inr (ih hlt (by omega))

/-- What the call number `n` of `snapshot_it_get_next` returns. -/
def SnapshotIterator.returns (fs : FileSystem) : SnapshotIterator → ℕ → Option (Bytes × Bytes)
  | it, 0 => (it.getNext fs).2
  | it, n + 1 => returns fs (it.getNext fs).1 n

theorem getNext_ended (hf : it.f = none) (hlast : 100 ≤ it.fileno) :
    it.getNext fs = ({ it with fileno := it.fileno + 1 }, none) := by
  have hopen : it.openNext fs 101 = { it with fileno := it.fileno + 1 } := by
    rw [SnapshotIterator.openNext, hf]
    simp only
    rw [if_pos (by omega)]
  simp only [SnapshotIterator.getNext, hopen, hf]

/-- Past the last file it returns nothing for ever. -/
theorem returns_ended (hf : it.f = none) (hlast : 100 ≤ it.fileno) (n : ℕ) :
    it.returns fs n = none := by
  induction n generalizing it with
  | zero => rw [SnapshotIterator.returns, getNext_ended hf hlast]
  | succ n ih =>
      rw [SnapshotIterator.returns, getNext_ended hf hlast]
      exact ih hf (by simp only; omega)

theorem Produces.returns (h : Produces fs it chunks) (hlo : -1 ≤ it.fileno) (n : ℕ) :
    it.returns fs n = chunks[n]? := by
  induction h generalizing n with
  | done it h =>
      obtain ⟨hf, hlast⟩ := (getNext_fileno hlo).2 h
      cases n with
      | zero => exact h
      | succ n => exact returns_ended hf hlast n
  | next it it' chunk chunks h _ ih =>
      have hmono := (@getNext_fileno fs it hlo).1
      rw [h] at hmono
      cases n with
      | zero => exact congrArg Prod.snd h
      | succ n =>
          rw [SnapshotIterator.returns, h, List.getElem?_cons_succ]
          exact ih (hlo.trans hmono) n

/-- The blocks of the file `k`, if it is there. -/
def blocksOf (fs : FileSystem) (id : ℤ) (k : ℕ) : List Bytes :=
  match fs (getSnapshotPath id) (fileName k) with
  | none => []
  | some c => blocks bufferSize c

theorem chunksFrom_eq (fs : FileSystem) (id : ℤ) (k count : ℕ) :
    chunksFrom fs id k count =
      (List.range' k count).flatMap fun j =>
        (blocksOf fs id j).map fun b => (fileName j, zeroFilled b) := by
  induction count generalizing k with
  | zero => rfl
  | succ count ih =>
      rw [chunksFrom, List.range'_succ, List.flatMap_cons, ih]
      congr 1
      unfold blocksOf
      cases fs (getSnapshotPath id) (fileName k) with
      | none => rfl
      | some c => rfl

/-- For every snapshot the calls return the blocks of the files that are there,
in the order of their numbers, and then nothing for ever. A file of `c` bytes
comes in `c / BUFFER_SIZE + 1` blocks that make up its contents, each with
zeros behind it up to the end of the buffer. -/
theorem iterator_complete (fs : FileSystem) (id : ℤ) :
    ∃ read : ℕ → List Bytes,
      (∀ n, (snapshotItInit id).returns fs n =
        ((List.range 100).flatMap fun k => (read k).map fun b => (fileName k, zeroFilled b))[n]?) ∧
      ∀ k < 100,
        (fs (getSnapshotPath id) (fileName k) = none → read k = []) ∧
        ∀ c, fs (getSnapshotPath id) (fileName k) = some c →
          (read k).length = c.length / bufferSize + 1 ∧ (read k).flatten = c ∧
          ∀ b ∈ read k, (zeroFilled b).length = bufferSize := by
  refine ⟨blocksOf fs id, fun n => ?_, fun k _ => ⟨fun hnone => ?_, fun c hfile => ?_⟩⟩
  · rw [(produces_snapshot fs id).returns le_rfl n, chunksFrom_eq, List.range_eq_range']
  · rw [blocksOf, hnone]
  · rw [blocksOf, hfile]
    refine ⟨length_blocks (by decide) c, flatten_blocks (by decide) c, fun b hb => ?_⟩
    have hle := length_le_of_mem (by decide) hb
    rw [zeroFilled, List.length_append, List.length_replicate]
    omega

end Sender

/-! ### The receiver -/

/-- `Raft_add_to_snapshot` on a received block. In a buffer without a NUL the
string has no end, and what is written is not defined. -/
def receiveChunk (id : ℤ) (fs : FileSystem) (chunk : Bytes × Bytes) : Option FileSystem :=
  if (0 : UInt8) ∈ chunk.2 then some (fs.addToSnapshot id chunk.1 chunk.2) else none

section Receiver

variable {fs gs : FileSystem} {id : ℤ} {chunks : List (Bytes × Bytes)}

theorem receiveChunk_foldlM (h : ∀ chunk ∈ chunks, (0 : UInt8) ∈ chunk.2) :
    chunks.foldlM (receiveChunk id) gs =
      some (chunks.foldl (fun gs chunk => gs.addToSnapshot id chunk.1 chunk.2) gs) := by
  induction chunks generalizing gs with
  | nil => rfl
  | cons chunk chunks ih =>
      rw [List.foldlM_cons, receiveChunk, if_pos (h chunk List.mem_cons_self), List.foldl_cons]
      exact ih fun c hc => h c (List.mem_cons_of_mem chunk hc)

theorem foldl_addToSnapshot (chunks : List (Bytes × Bytes)) (gs : FileSystem) :
    chunks.foldl (fun gs chunk => gs.addToSnapshot id chunk.1 chunk.2) gs (getSnapshotPath id) =
      appendAll (gs (getSnapshotPath id)) (chunks.map fun c => (cstr c.1, cstr c.2)) := by
  induction chunks generalizing gs with
  | nil => rfl
  | cons chunk chunks ih =>
      rw [List.foldl_cons, ih, FileSystem.addToSnapshot, FileSystem.appendTo_self]
      rfl

theorem cstr_zeroFilled {b : Bytes} (h : (0 : UInt8) ∉ b) : cstr (zeroFilled b) = b := by
  have hall : ∀ x ∈ b, decide (x ≠ 0) = true := by
    intro x hx
    rw [decide_eq_true_eq]
    rintro rfl
    exact h hx
  rw [cstr, zeroFilled, List.takeWhile_append_of_pos hall]
  cases bufferSize - b.length <;> simp [List.replicate_succ]

/-- The buffer ends the string when the block is short. -/
theorem zero_mem_zeroFilled {b : Bytes} (h : (0 : UInt8) ∉ b) :
    (0 : UInt8) ∈ zeroFilled b ↔ b.length < bufferSize := by
  rw [zeroFilled, List.mem_append, List.mem_replicate]
  simp only [h, false_or, and_true]
  omega

theorem cstr_fileName {k : ℕ} (hk : k < 100) : cstr (fileName k) = fileName k := by
  have hall : ∀ j < 100, cstr (fileName j) = fileName j := by decide
  exact hall k hk

theorem fileNames_nodup : fileNames.Nodup := by decide +kernel

theorem fileName_notMem {k : ℕ} (hk : k < 100) : fileName k ∉ (List.range k).map fileName := by
  intro hmem
  obtain ⟨j, hj, heq⟩ := List.mem_map.mp hmem
  rw [List.mem_range] at hj
  have hinj := List.inj_on_of_nodup_map fileNames_nodup (List.mem_range.mpr (by omega))
    (List.mem_range.mpr hk) heq
  omega

/-- The blocks of one file make the file. -/
theorem appendAll_fileChunks {k : ℕ} (hk : k < 100) {g : Bytes → Option Bytes} {c : Bytes}
    (hfile : g (fileName k) = some c) (hnul : (0 : UInt8) ∉ c) :
    appendAll (firstFiles k g) ((fileChunks k c).map fun c => (cstr c.1, cstr c.2)) =
      firstFiles (k + 1) g := by
  have hstrings : (fileChunks k c).map (fun c => (cstr c.1, cstr c.2)) =
      (blocks bufferSize c).map (Prod.mk (fileName k)) := by
    rw [fileChunks, List.map_map]
    refine List.map_congr_left fun b hb => ?_
    have hb : (0 : UInt8) ∉ b := fun h => hnul (mem_of_mem_blocks (by decide) hb h)
    simp only [Function.comp_apply, cstr_fileName hk, cstr_zeroFilled hb]
  rw [hstrings, appendAll_map _ _ (blocks_ne_nil _ _), flatten_blocks (by decide)]
  funext name
  rw [firstFiles_succ, Function.update_apply]
  split_ifs with hname
  · have hnone : firstFiles k g (fileName k) = none := if_neg (fileName_notMem hk)
    rw [hname, hfile, hnone]
    rfl
  · rfl

theorem appendAll_chunksFrom {count k : ℕ} (h : k + count ≤ 100)
    (hnul : ∀ j < 100, ∀ c, fs (getSnapshotPath id) (fileName j) = some c → (0 : UInt8) ∉ c) :
    appendAll (firstFiles k (fs (getSnapshotPath id)))
        ((chunksFrom fs id k count).map fun c => (cstr c.1, cstr c.2)) =
      firstFiles (k + count) (fs (getSnapshotPath id)) := by
  induction count generalizing k with
  | zero => rfl
  | succ count ih =>
      have hrest := ih (k := k + 1) (by omega)
      rw [chunksFrom, List.map_append, appendAll_append]
      cases hfile : fs (getSnapshotPath id) (fileName k) with
      | none =>
          have hsame : firstFiles k (fs (getSnapshotPath id)) =
              firstFiles (k + 1) (fs (getSnapshotPath id)) := by
            funext name
            rw [firstFiles_succ]
            split_ifs with hname
            · rw [hname, hfile]
              exact if_neg (fileName_notMem (by omega))
            · rfl
          rw [hsame]
          exact hrest.trans (congrArg (firstFiles · _) (by omega))
      | some c =>
          simp only
          rw [appendAll_fileChunks (by omega) hfile (hnul k (by omega) c hfile)]
          exact hrest.trans (congrArg (firstFiles · _) (by omega))

/-- Every buffer ends its string when every file fits into one. -/
theorem terminated_iff
    (hnul : ∀ k < 100, ∀ c, fs (getSnapshotPath id) (fileName k) = some c → (0 : UInt8) ∉ c) :
    (∀ chunk ∈ chunksFrom fs id 0 100, (0 : UInt8) ∈ chunk.2) ↔
      ∀ k < 100, ∀ c, fs (getSnapshotPath id) (fileName k) = some c → c.length < bufferSize := by
  have hblock : ∀ k < 100, ∀ c, fs (getSnapshotPath id) (fileName k) = some c →
      ∀ b ∈ blocks bufferSize c, ((0 : UInt8) ∈ zeroFilled b ↔ b.length < bufferSize) :=
    fun k hk c hfile b hb =>
      zero_mem_zeroFilled fun h => hnul k hk c hfile (mem_of_mem_blocks (by decide) hb h)
  constructor
  · intro hall k hk c hfile
    refine (forall_short_iff (by decide)).mp fun b hb => (hblock k hk c hfile b hb).mp ?_
    refine hall (fileName k, zeroFilled b) (fileChunks_subset (Nat.zero_le k) (by omega) hfile _ ?_)
    exact List.mem_map_of_mem hb
  · intro hshort chunk hchunk
    obtain ⟨k, c, -, hk, hfile, hmem⟩ := mem_chunksFrom hchunk
    obtain ⟨b, hb, rfl⟩ := List.mem_map.mp hmem
    have hfits := (forall_short_iff (n := bufferSize) (by decide)).mpr
      (hshort k (by omega) c hfile) b hb
    exact (hblock k (by omega) c hfile b hb).mpr hfits

end Receiver

/-- Each received block is a string, and the receiver's directory comes to
hold the files of the sender's. -/
def Rebuilds (fs gs : FileSystem) (id : ℤ) (chunks : List (Bytes × Bytes)) : Prop :=
  (∀ chunk ∈ chunks, (0 : UInt8) ∈ chunk.2) ∧
  ∃ gs', chunks.foldlM (receiveChunk id) gs = some gs' ∧
    gs' (getSnapshotPath id) = firstFiles 100 (fs (getSnapshotPath id))

/-- A snapshot without NUL bytes is sent and rebuilt exactly when each of its
files is shorter than the buffer. -/
theorem transfer_rebuilds_iff {fs gs : FileSystem} {id : ℤ}
    (hnul : ∀ k < 100, ∀ c, fs (getSnapshotPath id) (fileName k) = some c → (0 : UInt8) ∉ c)
    (hempty : gs (getSnapshotPath id) = noFiles) :
    ∃ chunks, Produces fs (snapshotItInit id) chunks ∧
      (∀ chunks', Produces fs (snapshotItInit id) chunks' → chunks' = chunks) ∧
      (Rebuilds fs gs id chunks ↔ ∀ k < 100, ∀ c,
        fs (getSnapshotPath id) (fileName k) = some c → c.length < bufferSize) := by
  refine ⟨_, produces_snapshot fs id, fun _ h => h.unique (produces_snapshot fs id), ?_⟩
  rw [← terminated_iff hnul]
  refine ⟨fun h => h.1, fun h => ⟨h, _, receiveChunk_foldlM h, ?_⟩⟩
  rw [foldl_addToSnapshot, hempty]
  exact appendAll_chunksFrom (k := 0) le_rfl hnul

/-- A snapshot that has one file. -/
def oneFile (id : ℤ) (c : Bytes) : FileSystem :=
  fun d name => if d = .snapshot id ∧ name = fileName 0 then some c else none

theorem oneFile_some {id : ℤ} {c c' : Bytes} {d : Dir} {name : Bytes}
    (h : oneFile id c d name = some c') : c' = c := by
  unfold oneFile at h
  split_ifs at h
  exact (Option.some.inj h).symm

theorem short_file_rebuilt : ∃ chunks,
    Produces (oneFile 50 [65]) (snapshotItInit 50) chunks ∧
    Rebuilds (oneFile 50 [65]) (fun _ _ => none) 50 chunks := by
  obtain ⟨chunks, hsent, -, hiff⟩ := @transfer_rebuilds_iff (oneFile 50 [65]) (fun _ _ => none) 50
    (fun k _ c hc => by rw [oneFile_some hc]; decide) rfl
  exact ⟨chunks, hsent, hiff.mpr fun k _ c hc => by rw [oneFile_some hc]; decide⟩

/-- The first block of a file of `BUFFER_SIZE` bytes fills the buffer. -/
theorem full_file_unterminated :
    (0 : UInt8) ∉ List.replicate bufferSize (65 : UInt8) ∧
    ∃ chunks, Produces (oneFile 50 (List.replicate bufferSize 65)) (snapshotItInit 50) chunks ∧
      (∃ chunk ∈ chunks, (0 : UInt8) ∉ chunk.2) ∧
      ¬ Rebuilds (oneFile 50 (List.replicate bufferSize 65)) (fun _ _ => none) 50 chunks := by
  have hnul : (0 : UInt8) ∉ List.replicate bufferSize (65 : UInt8) := by
    rw [List.mem_replicate]
    exact fun h => absurd h.2 (by decide)
  have hopen : ¬ ∀ chunk ∈ chunksFrom (oneFile 50 (List.replicate bufferSize 65)) 50 0 100,
      (0 : UInt8) ∈ chunk.2 := by
    intro hall
    have hshort := (terminated_iff fun k _ c hc => oneFile_some hc ▸ hnul).mp hall 0 (by decide) _
      (if_pos ⟨rfl, rfl⟩)
    rw [List.length_replicate] at hshort
    exact lt_irrefl _ hshort
  refine ⟨hnul, _, produces_snapshot _ _, ?_, fun h => hopen h.1⟩
  push Not at hopen
  exact hopen

end RaftLock
