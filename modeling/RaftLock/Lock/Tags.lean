import RaftLock.Lock.Manager
import RaftLock.Safety.Election

/-!
Transaction tags: the pair of a term and a counter that an acquire returns.

The counter goes up with every acquire of a process, and only one client is
in the middle of an acquire. A process that leads a term does so once: it
comes back from a crash as a follower of that term at best. So two acquires
can return the same tag only when one of them reads the term of a server that
does not lead it.
-/

namespace RaftLock

open Consensus

/-! ### The counter -/

/-- The handler has raised the counter and has not returned the tag. -/
def HandlerPc.tagging : HandlerPc → Bool
  | .acquireTerm | .acquireTag _ => true
  | _ => false

namespace LockServer

/-- What a step of the handler of `c` does to the counter and to the tags in
the making. -/
inductive Tagging (s : LockServer) (raft : RaftState) (c : ℤ) (s' : LockServer) : Prop
  | counts (hp : s.handler c = .acquireId)
      (hhandler : s'.handler = Function.update s.handler c .acquireTerm)
      (hid : s'.currentLogEntry.id = s.currentLogEntry.id + 1)
  | reads (hp : s.handler c = .acquireTerm)
      (hhandler : s'.handler = Function.update s.handler c (.acquireTag raft.currentTerm))
      (hid : s'.currentLogEntry.id = s.currentLogEntry.id)
  | returns (term : ℤ) (hp : s.handler c = .acquireTag term)
      (hhandler : s'.handler =
        Function.update s.handler c (.returned ⟨0, .tag term s.currentLogEntry.id⟩))
      (hid : s'.currentLogEntry.id = s.currentLogEntry.id)
  | waits (hin : ∀ rc, s.lock.pc c ≠ .outside rc) (hhandler : s'.handler = s.handler)
      (hid : s'.currentLogEntry.id = s.currentLogEntry.id)
  | other (p : HandlerPc) (hhandler : s'.handler = Function.update s.handler c p)
      (hid : s'.currentLogEntry.id = s.currentLogEntry.id) (hp : p.tagging = false)
      (hreply : ∀ rc term id, p ≠ .returned ⟨rc, .tag term id⟩)

variable {s s' : LockServer} {raft : RaftState} {c rc : ℤ} {out : Option LogEntry}

theorem appendTurn_tagging {filename buffer : Bytes} {i : ℕ}
    (hstep : s.appendTurn c filename buffer i = some s') : s.Tagging raft c s' := by
  simp only [LockServer.appendTurn] at hstep
  split_ifs at hstep <;> simp only [Option.some.injEq] at hstep <;> subst hstep <;>
    exact .other _ rfl rfl rfl (by simp)

theorem resume_tagging (hstep : s.resume raft c rc = some (s', out)) : s.Tagging raft c s' := by
  unfold LockServer.resume at hstep
  cases hp : s.handler c with
  | acquireId =>
      simp only [hp, Option.some.injEq, Prod.mk.injEq] at hstep
      obtain ⟨rfl, -⟩ := hstep
      exact .counts hp rfl rfl
  | acquireTerm =>
      simp only [hp, Option.some.injEq, Prod.mk.injEq] at hstep
      obtain ⟨rfl, -⟩ := hstep
      exact .reads hp rfl rfl
  | acquireTag term =>
      simp only [hp, Option.some.injEq, Prod.mk.injEq] at hstep
      obtain ⟨rfl, -⟩ := hstep
      exact .returns term hp rfl rfl
  | releasePoll term id =>
      simp only [hp] at hstep
      split_ifs at hstep <;> simp only [Option.some.injEq, Prod.mk.injEq] at hstep <;>
        obtain ⟨rfl, -⟩ := hstep
      · exact .other (s.handler c) (Function.update_eq_self c s.handler).symm rfl (by rw [hp]; rfl)
          (by simp [hp])
      all_goals exact .other _ rfl rfl rfl (by simp)
  | appendSlot filename buffer i =>
      simp only [hp, Option.map_eq_some_iff, Prod.mk.injEq] at hstep
      obtain ⟨s₁, hturn, rfl, -⟩ := hstep
      exact appendTurn_tagging hturn
  | _ =>
      simp only [hp] at hstep
      (try split_ifs at hstep) <;>
        simp only [Option.some.injEq, Prod.mk.injEq, reduceCtorEq] at hstep <;>
        obtain ⟨rfl, -⟩ := hstep <;> exact .other _ rfl rfl rfl (by simp)

theorem step_tagging (hstep : s.step raft c = some (s', out)) : s.Tagging raft c s' := by
  unfold LockServer.step at hstep
  split at hstep
  · exact resume_tagging hstep
  · rename_i q hin
    simp only [Option.map_eq_some_iff, Prod.mk.injEq] at hstep
    obtain ⟨l, -, rfl, -⟩ := hstep
    exact .waits (fun rc hrc => hin rc hrc) rfl rfl

theorem accept_tagging {request : LockRequest} (hstep : s.accept c request = some s') :
    s.Tagging raft c s' := by
  unfold LockServer.accept at hstep
  split at hstep
  · split_ifs at hstep
    simp only [Option.some.injEq] at hstep
    subst hstep
    cases request <;> exact .other _ rfl rfl rfl (by simp)
  · exact absurd hstep (by simp)

theorem acquired_of_tagging {p : HandlerPc} (h : p.tagging = true) (q : LockPc) :
    p.acquired q = true := by
  cases p <;> simp_all [HandlerPc.tagging, HandlerPc.acquired]

end LockServer

/-! ### Followers stay followers of their term -/

/-- A server goes forward in terms, and does not leave the role of follower
within one. -/
def StaysFollower (r r' : RaftState) : Prop :=
  r.currentTerm ≤ r'.currentTerm ∧
    (r'.currentTerm = r.currentTerm → r.state = .follower → r'.state = .follower)

theorem StaysFollower.refl (r : RaftState) : StaysFollower r r := ⟨le_rfl, fun _ h => h⟩

theorem StaysFollower.trans {r r' r'' : RaftState} (h : StaysFollower r r')
    (h' : StaysFollower r' r'') : StaysFollower r r'' := by
  refine ⟨h.1.trans h'.1, fun hterm hf => ?_⟩
  have hle := h.1
  have hle' := h'.1
  exact h'.2 (by omega) (h.2 (by omega) hf)

theorem StaysFollower.of_eq {r r' : RaftState} (hterm : r'.currentTerm = r.currentTerm)
    (hstate : r'.state = r.state) : StaysFollower r r' :=
  ⟨le_of_eq hterm.symm, fun _ hf => hstate.trans hf⟩

theorem StaysFollower.update {w : World} {v : Server} {r' : RaftState}
    (h : StaysFollower (w.raft v) r') (s : Server) :
    StaysFollower (w.raft s) (Function.update w.raft v r' s) := by
  rw [Function.update_apply]
  split
  · rename_i hs
    exact hs ▸ h
  · exact .refl _

theorem Handled.stays {r r' : RaftState} {addr : Server} {packet : Packet} {es : List Effect}
    (h : Handled r addr packet r' es) : StaysFollower r r' := by
  cases h.elects with
  | granted q hterm hfree hr' =>
      subst hr'
      exact .of_eq rfl rfl
  | counted q hterm hstate hs hids hsame hvote hvoted hdone =>
      exact ⟨le_of_eq hsame.symm, fun _ hf => absurd (hstate.symm.trans hf) (by simp)⟩
  | other packet hids hsame hvote hrole =>
      exact ⟨le_of_eq hsame.symm, fun _ hf => hrole.elim id fun h => h.1.trans hf⟩

theorem World.Step.stays {g : Guard} {w w' : World} {v : Option (Server × ℤ × Server)}
    (h : World.Step g w v w') (s : Server) : StaysFollower (w.raft s) (w'.raft s) := by
  cases h with
  | stepDown x t ht =>
      have hf := convertToFollower_follows (w.raft x) t
      exact StaysFollower.update ⟨by rw [hf.currentTerm]; omega, fun _ _ => hf.state⟩ s
  | campaign x =>
      refine StaysFollower.update ⟨?_, fun hsame => ?_⟩ s
      · show (w.raft x).currentTerm ≤ (w.raft x).currentTerm + 1
        omega
      · have hterm : (w.raft x).currentTerm + 1 = (w.raft x).currentTerm := hsame
        omega
  | handle a b d r' es hnet hle hg hh => exact StaysFollower.update hh.stays s
  | turns d l hd hg hl =>
      refine StaysFollower.update ?_ s
      exact ⟨le_rfl, fun _ _ => rfl⟩
  | lose net hsub => exact .refl _
  | append x e hf =>
      refine StaysFollower.update ?_ s
      rcases appendEntry_ok hf with heq | ⟨r', heq, -, -, -, hr'⟩
      · rw [heq]
        exact .refl _
      · rw [heq, hr']
        exact .of_eq rfl rfl
  | sender x a b t r' es pc ht hg hs =>
      exact StaysFollower.update (.of_eq hs.same.1 hs.same.2.2.1) s
  | enter x n r' he =>
      obtain ⟨-, rfl⟩ := createSnapshotEnter_some he
      refine StaysFollower.update ?_ s
      exact .of_eq rfl rfl
  | shift x n hn hg hf =>
      refine StaysFollower.update ?_ s
      obtain ⟨-, heq⟩ := createSnapshotShift_ok hf
      rw [heq]
      exact .of_eq rfl rfl
  | crash x st hst =>
      refine StaysFollower.update ?_ s
      exact ⟨le_of_eq hst.currentTerm.symm, fun _ _ => rfl⟩
  | replay x l hl => exact .refl _

theorem World.Path.stays {g : Guard} {w w' : World} (h : World.Path g w w') (s : Server) :
    StaysFollower (w.raft s) (w'.raft s) := by
  induction h with
  | refl => exact .refl _
  | tail _ hstep ih =>
      obtain ⟨v, hv⟩ := hstep
      exact ih.trans (hv.stays s)

/-! ### Tags -/

namespace Manager

/-- The condition on runs: a server that reads the term of a tag leads it, the
timer does not fire on a client in the middle of an acquire, and a term has
one leader. -/
def LeadsItsTags (m : Manager) : ManagerAction → Prop
  | .raft x => rolesKept.allows m.cluster x
  | .accept _ _ _ => True
  | .step s c _ =>
    (m.server s).handler c = .acquireTerm → (m.cluster.nodes s).raft.state = .leader
  | .fire s => (m.server s).Unexpired .fire

/-- A tag of a process that has ended: its server will not lead the term
again, and no tag in the making is of that term. -/
structure Gone (r : RaftState) (l : LockServer) (term : ℤ) : Prop where
  le : term ≤ r.currentTerm
  follower : term = r.currentTerm → r.state = .follower
  later : ∀ c term', l.handler c = .acquireTag term' → term < term'

/-- A tag of the running process: the counter has reached it, and passed it
when another tag is in the making. -/
structure Recent (l : LockServer) (id : ℤ) : Prop where
  le : id ≤ l.currentLogEntry.id
  lt : ∀ c, (l.handler c).tagging = true → id < l.currentLogEntry.id

structure TagInv (config : Config) (m : Manager) (w : World) (V : Votes) : Prop where
  refines : Refines m.cluster w
  elect : ElectInv config w V
  exclusive : ∀ s, (m.server s).Exclusive
  led : ∀ s c term, (m.server s).handler c = .acquireTag term →
    term ≤ (w.raft s).currentTerm ∧ Majority (V.voters term s)
  tags : ∀ s term id, (s, term, id) ∈ m.tags → term ≤ (w.raft s).currentTerm ∧
    Majority (V.voters term s) ∧
    (Gone (w.raft s) (m.server s) term ∨ Recent (m.server s) id)
  nodup : (m.tags.map Prod.snd).Nodup

variable {config : Config} {m m' : Manager} {w w' : World} {V V' : Votes} {s : Server}
  {l : LockServer} {c : ℤ} {raft : RaftState}

/-- The Raft modules move. -/
theorem TagInv.moved (h : TagInv config m w V) {c' : Cluster} (hrefines : Refines c' w')
    (helect : ElectInv config w' V') (hstays : ∀ s, StaysFollower (w.raft s) (w'.raft s))
    (hsub : ∀ t x, V.voters t x ⊆ V'.voters t x) : TagInv config (m.move c') w' V' where
  refines := hrefines
  elect := helect
  exclusive s := by
    simp only [move]
    split
    · exact h.exclusive s
    · exact LockServer.exclusive_init
  led s c term hp := by
    simp only [move] at hp
    split at hp
    · obtain ⟨hle, hmaj⟩ := h.led s c term hp
      exact ⟨hle.trans (hstays s).1, hmaj.mono (hsub term s)⟩
    · exact absurd hp (by simp [LockServer.init])
  tags s term id htag := by
    obtain ⟨hle, hmaj, hkind⟩ := h.tags s term id htag
    have hle' := hle.trans (hstays s).1
    refine ⟨hle', hmaj.mono (hsub term s), ?_⟩
    simp only [move]
    cases hup : (c'.nodes s).up with
    | true =>
        simp only [if_true]
        refine hkind.imp_left fun hgone => ⟨hle', fun hterm => ?_, hgone.later⟩
        have := (hstays s).1
        exact (hstays s).2 (by omega) (hgone.follower (by omega))
    | false =>
        -- the process has ended, and its server comes back as a follower
        refine .inl ⟨hle', fun _ => ?_, fun c term' hp => ?_⟩
        · rw [(hrefines.node s).view, Node.view, hup]
          rfl
        · exact absurd hp (by simp [LockServer.init])
  nodup := h.nodup

/-- The handlers of one server move. -/
theorem TagInv.served (h : TagInv config m w V) (hex : l.Exclusive)
    (hled : ∀ c term, l.handler c = .acquireTag term →
      term ≤ (w.raft s).currentTerm ∧ Majority (V.voters term s))
    (hgone : ∀ term, Gone (w.raft s) (m.server s) term → Gone (w.raft s) l term)
    (hrecent : ∀ id, Recent (m.server s) id → Recent l id) :
    TagInv config (m.setServer s l) w V where
  refines := h.refines
  elect := h.elect
  exclusive v := by
    simp only [setServer, Function.update_apply]
    split
    · exact hex
    · exact h.exclusive v
  led v c term hp := by
    simp only [setServer, Function.update_apply] at hp
    split at hp
    · rename_i hv
      exact hv ▸ hled c term hp
    · exact h.led v c term hp
  tags v term id htag := by
    obtain ⟨hle, hmaj, hkind⟩ := h.tags v term id htag
    refine ⟨hle, hmaj, ?_⟩
    simp only [setServer, Function.update_apply]
    split
    · rename_i hv
      subst hv
      exact hkind.imp (hgone term) (hrecent id)
    · exact hkind
  nodup := h.nodup

/-- Handlers that have no more tags in the making, with the same counter. -/
theorem TagInv.quiet (h : TagInv config m w V) (hex : l.Exclusive)
    (hhandler : ∀ c, (l.handler c).tagging = true → l.handler c = (m.server s).handler c)
    (hid : l.currentLogEntry.id = (m.server s).currentLogEntry.id) :
    TagInv config (m.setServer s l) w V := by
  refine h.served hex (fun c term hp => ?_) (fun term hgone => ⟨hgone.le, hgone.follower, ?_⟩)
    fun id hrecent => ⟨hid ▸ hrecent.le, fun c hp => ?_⟩
  · exact h.led s c term ((hhandler c (by simp [hp, HandlerPc.tagging])).symm.trans hp)
  · intro c term' hp
    exact hgone.later c term' ((hhandler c (by simp [hp, HandlerPc.tagging])).symm.trans hp)
  · rw [hid]
    exact hrecent.lt c (hhandler c hp ▸ hp)

theorem TagInv.stepped (h : TagInv config m w V) (hup : (m.cluster.nodes s).up = true)
    (ht : (m.server s).Tagging (m.cluster.nodes s).raft c l) (hex : l.Exclusive)
    (hlead : (m.server s).handler c = .acquireTerm →
      (m.cluster.nodes s).raft.state = .leader) : TagInv config (m.setServer s l) w V := by
  cases ht with
  | counts hp hhandler hid =>
      have hkeep : ∀ c' term, l.handler c' = .acquireTag term →
          (m.server s).handler c' = .acquireTag term := by
        intro c' term hp'
        rw [hhandler, Function.update_apply] at hp'
        split_ifs at hp'
        exact hp'
      refine h.served hex (fun c' term hp' => h.led s c' term (hkeep c' term hp'))
        (fun term hgone => ⟨hgone.le, hgone.follower,
          fun c' term' hp' => hgone.later c' term' (hkeep c' term' hp')⟩)
        fun id hrecent => ⟨?_, fun _ _ => ?_⟩
      · have := hrecent.le
        omega
      · have := hrecent.le
        omega
  | reads hp hhandler hid =>
      have hraft := (h.refines.node s).raft_eq hup
      have hleader := hlead hp
      rw [← hraft] at hleader hhandler
      refine h.served hex (fun c' term hp' => ?_)
        (fun term hgone => ⟨hgone.le, hgone.follower, fun c' term' hp' => ?_⟩)
        fun id hrecent => ⟨hid ▸ hrecent.le, fun c' hp' => ?_⟩
      · rw [hhandler, Function.update_apply] at hp'
        split_ifs at hp'
        · simp only [HandlerPc.acquireTag.injEq] at hp'
          subst hp'
          exact ⟨le_rfl, h.elect.leader s hleader⟩
        · exact h.led s c' term hp'
      · rw [hhandler, Function.update_apply] at hp'
        split_ifs at hp'
        · simp only [HandlerPc.acquireTag.injEq] at hp'
          subst hp'
          refine lt_of_le_of_ne hgone.le fun hterm => ?_
          exact absurd (hleader.symm.trans (hgone.follower hterm)) (by simp)
        · exact hgone.later c' term' hp'
      · rw [hid]
        rw [hhandler, Function.update_apply] at hp'
        split_ifs at hp'
        · exact hrecent.lt c (by simp [hp, HandlerPc.tagging])
        · exact hrecent.lt c' hp'
  | returns term hp hhandler hid =>
      refine h.quiet hex (fun c' hp' => ?_) hid
      rw [hhandler, Function.update_apply] at hp' ⊢
      split_ifs at hp' ⊢
      · exact absurd hp' (by simp [HandlerPc.tagging])
      · rfl
  | waits hin hhandler hid => exact h.quiet hex (fun c' _ => by rw [hhandler]) hid
  | other p hhandler hid hp hreply =>
      refine h.quiet hex (fun c' hp' => ?_) hid
      rw [hhandler, Function.update_apply] at hp' ⊢
      split_ifs at hp' ⊢
      · exact absurd hp' (by simp [hp])
      · rfl

/-- A tag is returned that no other acquire has returned. -/
theorem TagInv.handed (h : TagInv config m w V) (ht : (m.server s).Tagging raft c l)
    (h' : TagInv config (m.setServer s l) w V) :
    TagInv config { m.setServer s l with tags := m.tags ++ handed s l c } w V := by
  have hempty : Manager.handed s l c = [] →
      TagInv config { m.setServer s l with tags := m.tags ++ Manager.handed s l c } w V := by
    intro hnil
    rw [hnil, List.append_nil]
    exact h'
  cases ht with
  | counts hp hhandler hid => exact hempty (by simp [Manager.handed, hhandler])
  | reads hp hhandler hid => exact hempty (by simp [Manager.handed, hhandler])
  | waits hin hhandler hid =>
      obtain ⟨op, hop, -⟩ := ((h.exclusive s).placed c).seated.waits hin
      refine hempty ?_
      unfold Manager.handed
      rw [hhandler]
      split
      · rename_i hret
        simp [hret, HandlerPc.calls] at hop
      · rfl
  | other p hhandler hid hp hreply =>
      refine hempty ?_
      unfold Manager.handed
      rw [hhandler, Function.update_self]
      split
      · exact absurd rfl (hreply _ _ _)
      · rfl
  | returns term hp hhandler hid =>
      have hnew : Manager.handed s l c = [(s, term, l.currentLogEntry.id)] := by
        simp [Manager.handed, hhandler, hid]
      obtain ⟨hle, hmaj⟩ := h.led s c term hp
      have htagging : ((m.server s).handler c).tagging = true := by simp [hp, HandlerPc.tagging]
      rw [hnew]
      refine ⟨h'.refines, h'.elect, h'.exclusive, h'.led, fun v t i htag => ?_, ?_⟩
      · rcases List.mem_append.mp htag with htag | htag
        · exact h'.tags v t i htag
        · simp only [List.mem_singleton, Prod.mk.injEq] at htag
          obtain ⟨rfl, rfl, rfl⟩ := htag
          refine ⟨hle, hmaj, .inr ⟨?_, fun c' hc' => ?_⟩⟩
          · simp [setServer]
          · -- nobody else is in the middle of an acquire
            simp only [setServer, Function.update_self, hhandler, Function.update_apply] at hc'
            split_ifs at hc' with heq
            · exact absurd hc' (by simp [HandlerPc.tagging])
            · exact absurd ((h.exclusive v).acquired_unique
                (LockServer.acquired_of_tagging hc' _)
                (LockServer.acquired_of_tagging htagging _)) heq
      · show (((m.tags ++ [(s, term, l.currentLogEntry.id)]).map Prod.snd)).Nodup
        rw [List.map_append, List.nodup_append]
        refine ⟨h.nodup, by simp, fun x hx y hy hxy => ?_⟩
        obtain ⟨⟨v, t, i⟩, htag, rfl⟩ := List.mem_map.mp hx
        simp only [List.map_cons, List.map_nil, List.mem_singleton] at hy
        subst hy
        simp only [Prod.mk.injEq] at hxy
        obtain ⟨rfl, rfl⟩ := hxy
        obtain ⟨-, hmaj', hkind⟩ := h.tags v t _ htag
        -- two majorities meet in a server, which has one vote
        obtain ⟨u, hu, hu'⟩ := hmaj.inter hmaj'
        rw [Votes.mem_voters] at hu hu'
        rw [hu, Option.some.injEq] at hu'
        subst hu'
        rcases hkind with hgone | hrecent
        · exact absurd (hgone.later c t hp) (lt_irrefl t)
        · have := hrecent.lt c htagging
          omega

theorem TagInv.stores (h : TagInv config m w V) (stored : List LogEntry) :
    TagInv config { m with stored } w V :=
  ⟨h.refines, h.elect, h.exclusive, h.led, h.tags, h.nodup⟩

theorem TagInv.raft_step (h : TagInv config m w V) (hvalid : ∀ v, config v ≠ -1) {x : Action}
    (hok : rolesKept.allows m.cluster x) {c' : Cluster} (hx : m.cluster.exec x = some c') :
    ∃ w' V', TagInv config (m.move c') w' V' := by
  obtain ⟨w', hpath, hrefines⟩ := h.refines.exec hok hx
  obtain ⟨V', helect, hsub⟩ := h.elect.path (fun _ _ h => h) hvalid hpath
  exact ⟨w', V', h.moved hrefines helect (fun s => World.Path.stays hpath s) hsub⟩

theorem TagInv.exec (h : TagInv config m w V) (hvalid : ∀ v, config v ≠ -1) {x : ManagerAction}
    (hok : m.LeadsItsTags x) (hx : m.exec x = some m') : ∃ w' V', TagInv config m' w' V' := by
  cases exec_cases hx with
  | raft a c' ha hc' => exact h.raft_step hvalid hok hc'
  | accept s c request l hup hl =>
      obtain ⟨-, ⟨reply, hret⟩, -⟩ := LockServer.accept_moves hl
      exact ⟨w, V, h.stepped hup (LockServer.accept_tagging hl) ((h.exclusive s).accept hl)
        fun hp => absurd (hret.symm.trans hp) (by simp)⟩
  | serve s c crashAt l hup hstep =>
      have ht := LockServer.step_tagging hstep
      exact ⟨w, V, h.handed ht (h.stepped hup ht ((h.exclusive s).step hstep) hok)⟩
  | append s c crashAt l e c' hup hstep hc' =>
      have h' := h.stepped hup (LockServer.step_tagging hstep) ((h.exclusive s).step hstep) hok
      exact (h'.stores _).raft_step (x := .append s e crashAt) hvalid trivial hc'
  | fire s lock hup hfire =>
      exact ⟨w, V, h.quiet ((h.exclusive s).fire hok hfire) (fun _ _ => rfl) rfl⟩

end Manager

instance (l : LockServer) : Decidable (l.Unexpired .fire) := inferInstanceAs (Decidable (_ → _))

instance (m : Manager) (x : ManagerAction) : Decidable (m.LeadsItsTags x) :=
  match x with
  | .raft x => inferInstanceAs (Decidable (rolesKept.allows m.cluster x))
  | .accept _ _ _ => inferInstanceAs (Decidable True)
  | .step s c _ => inferInstanceAs (Decidable ((m.server s).handler c = .acquireTerm → _))
  | .fire s => inferInstanceAs (Decidable ((m.server s).Unexpired .fire))

/-- Client `c` acquires the free lock of server `s`. -/
def acquires (s : Server) (c : ℤ) : List ManagerAction :=
  .accept s c .acquire :: List.replicate 20 (.step s c none)

/-- The lock of server `s` expires. -/
def expires (s : Server) : List ManagerAction := List.replicate 4 (.fire s)

end RaftLock
