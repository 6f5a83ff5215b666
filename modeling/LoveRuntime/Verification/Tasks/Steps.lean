import LoveRuntime.Verification.Tasks.Switch

/-! The ledger against the rings: every task of it has one node, and every node is a task of it. -/

namespace LoveRuntime.Tasks

open Rings

variable {s s' : Sched} {L : Ledger} {t P t' P' : List ℕ} {n : ℕ}

/-- What a node says of its task: a node at its exit holds the task's value. -/
def Node.entry (n : Node) : ℤ × Option Word := (n.pid, if n.ip.ap = .exit then some n.top else none)

def Sched.entry (s : Sched) (a : ℕ) : ℤ × Option Word := (s.task a).entry

/-- The running task's, whose node is out of date. -/
def Sched.mine (s : Sched) : ℤ × Option Word := ((s.task s.tasks).pid, none)

/-- The ledger is what the nodes say. -/
structure Accounts (s : Sched) (L : Ledger) (t P : List ℕ) : Prop where
  laid : Laid s t P
  ledger : L.Perm (s.mine :: (t ++ P).map s.entry)
  pids : (L.map Prod.fst).Nodup
  minted : ∀ pid ∈ L.map Prod.fst, pid ≤ s.nextSerial
  unfinished : ∀ n ∈ P, (s.entry n).2 = none

/-! ## Lists of entries -/

section Entries

variable {e : ℤ × Option Word} {E : List (ℤ × Option Word)}

/-- A task struck off by its pid. -/
theorem filter_pid (hpids : ((e :: E).map Prod.fst).Nodup) : (e :: E).filter (fun x => x.1 != e.1) = E := by
  rw [List.filter_cons_of_neg (by simp)]
  refine List.filter_eq_self.mpr fun x hx => ?_
  have hmem : x.1 ∈ E.map Prod.fst := List.mem_map_of_mem hx
  rw [List.map_cons, List.nodup_cons] at hpids
  simpa using ne_of_mem_of_not_mem hmem hpids.1

/-- A task given its value by its pid. -/
theorem close_pid {v : Word} (hpids : ((e :: E).map Prod.fst).Nodup) :
    Ledger.close (e :: E) e.1 v = (e.1, some v) :: E := by
  rw [Ledger.close, List.map_cons, if_pos rfl]
  refine congrArg _ ((List.map_congr_left fun x hx => if_neg ?_).trans (List.map_id _))
  have hmem : x.1 ∈ E.map Prod.fst := List.mem_map_of_mem hx
  rw [List.map_cons, List.nodup_cons] at hpids
  exact ne_of_mem_of_not_mem hmem hpids.1

theorem close_fst (L : Ledger) (me : ℤ) (v : Word) : (L.close me v).map Prod.fst = L.map Prod.fst := by
  rw [Ledger.close, List.map_map]
  refine List.map_congr_left fun e _ => ?_
  by_cases he : e.1 = me
  · simp [he]
  · simp [he]

end Entries

/-- A task that has not ended says no value. -/
theorem entry_none (h : (s.task n).ip.ap ≠ .exit) : (s.entry n).2 = none := if_neg h

theorem left_entry (s : Sched) (y : Build) (myWake : ℕ) (myEvents : ℤ) :
    (s.left y myWake myEvents).entry =
      (s.mine.1, if s.ip.ap = .exit then some (s.sp.headD .point) else none) := rfl

namespace Accounts

/-- Whatever moves nodes about and tells nothing new of them. -/
theorem keep (h : Accounts s L t P) (hlaid : Laid s' t' P') (hmine : s'.mine = s.mine)
    (hentry : s'.entry = s.entry) (hperm : (t' ++ P').Perm (t ++ P)) (hsub : P' ⊆ P)
    (hserial : s'.nextSerial = s.nextSerial) : Accounts s' L t' P' where
  laid := hlaid
  ledger := by
    rw [hmine, hentry]
    exact h.ledger.trans ((hperm.map s.entry).symm.cons s.mine)
  pids := h.pids
  minted := hserial ▸ h.minted
  unfinished := by
    rw [hentry]
    exact fun n hn => h.unfinished n (hsub hn)

theorem moved (h : Accounts s L t P) (hm : Moved s s' t P t' P') : Accounts s' L t' P' := by
  refine h.keep hm.laid ?_ ?_ hm.perm hm.sub hm.same.serial
  · rw [Sched.mine, hm.same.tasks, hm.same.task, Sched.mine]
  · exact congrArg (fun f a => (f a).entry) hm.same.task

/-- Registers that no ring and no node holds. -/
theorem registers (h : Accounts s L t P) (hnode : s'.node = s.node) (htasks : s'.tasks = s.tasks)
    (hparked : s'.parked = s.parked) (hhp : s'.hp = s.hp) (hserial : s'.nextSerial = s.nextSerial) :
    Accounts s' L t P := by
  have hnext : s'.next = s.next := by
    funext a
    rw [Sched.next, hnode]
    rfl
  have htask : s'.task = s.task := by
    funext a
    rw [Sched.task, hnode]
    rfl
  refine h.keep (h.laid.congr hnext htasks hparked hhp) ?_ ?_ (.refl _) (List.Subset.refl _) hserial
  · rw [Sched.mine, htasks, htask, Sched.mine]
  · exact congrArg (fun f a => (f a).entry) htask

/-- A node written over with the same link, of which it says the same. -/
theorem write (h : Accounts s L t P) (a : ℕ) {n : Node} (hnext : n.next = s.next a) (hpid : n.pid = (s.task a).pid)
    (hentry : n.task.entry = s.entry a) : Accounts (s.write a n) L t P := by
  have hnext : (s.write a n).next = s.next := by rw [Sched.next_write, hnext, Function.update_eq_self]
  refine h.keep (h.laid.congr hnext rfl rfl rfl) ?_ ?_ (.refl _) (List.Subset.refl _) rfl
  · have hsame : ((s.write a n).task s.tasks).pid = (s.task s.tasks).pid := by
      rw [Sched.task_write]
      by_cases ha : s.tasks = a
      · rw [ha, Function.update_self, ← hpid]
        rfl
      · rw [Function.update_of_ne ha]
    exact congrArg (·, none) hsame
  · funext c
    rw [Sched.entry, Sched.task_write]
    by_cases hc : c = a
    · rw [hc, Function.update_self, hentry]
    · rw [Function.update_of_ne hc, Sched.entry]

/-- The running task leaves its entry, and the next one's is unsaid. -/
theorem switchTo {L' : Ledger} {nx : ℕ} (h : Accounts s L t P) (hnx : nx ∈ t) (hruns : (s.entry nx).2 = none)
    (y : Build) (myWake : ℕ) (myFd myEvents : ℤ) (hfd : ¬myFd < 0 → s.ip.ap ≠ .exit)
    (hL : L'.Perm ((s.left y myWake myEvents).entry :: (t ++ P).map s.entry))
    (hpids : L'.map Prod.fst = L.map Prod.fst) :
    ∃ t' P', Accounts (s.switchTo y nx myWake myFd myEvents) L' t' P' := by
  obtain ⟨t₁, t₂, rfl⟩ := List.append_of_mem hnx
  obtain ⟨t', P', hlaid, hperm, hpark⟩ := h.laid.switchTo y myWake myEvents myFd
  have hsw := switchTo_switched s y nx myWake myFd myEvents
  have hfree := h.laid.hp_not_mem
  rw [List.cons_append, List.mem_cons, not_or] at hfree
  have hold : ∀ a ∈ t₁ ++ nx :: t₂ ++ P,
      (s.switchTo y nx myWake myFd myEvents).entry a = s.entry a := by
    intro a ha
    rw [Sched.entry, hsw.task, Function.update_of_ne (ne_of_mem_of_not_mem ha hfree.2), Sched.entry]
  have hnew : (s.switchTo y nx myWake myFd myEvents).entry s.hp = (s.left y myWake myEvents).entry := by
    rw [Sched.entry, hsw.task, Function.update_self]
  have hmine : (s.switchTo y nx myWake myFd myEvents).mine = (s.switchTo y nx myWake myFd myEvents).entry nx := by
    rw [Sched.mine, hsw.tasks]
    refine Prod.ext rfl ?_
    rw [hold nx (by simp), hruns]
  refine ⟨t', P', hlaid, ?_, hpids ▸ h.pids, ?_, ?_⟩
  · rw [hmine, ← List.map_cons, ← List.cons_append]
    refine hL.trans (List.Perm.trans ?_ (hperm.map _).symm)
    rw [List.map_cons, hnew, List.map_congr_left hold]
  · rw [hpids, hsw.serial]
    exact h.minted
  · intro n hn
    rcases hpark n hn with hn | ⟨rfl, hparks⟩
    · rw [hold n (List.mem_append_right _ hn)]
      exact h.unfinished n hn
    · rw [hnew]
      exact if_neg (hfd hparks)

/-- A task struck off with its node. -/
theorem struck (h : Accounts s L t P) (hlaid : Laid s' t' P') (hsame : SameRegs s s')
    (hperm : (t ++ P).Perm (n :: (t' ++ P'))) (hsub : P' ⊆ P) :
    Accounts s' (L.filter fun e => e.1 != (s.task n).pid) t' P' := by
  have hledger : L.Perm (s.entry n :: s.mine :: (t' ++ P').map s.entry) := by
    refine h.ledger.trans (((hperm.map s.entry).cons s.mine).trans ?_)
    exact List.Perm.swap _ _ _
  have hpids := ((hledger.map Prod.fst).nodup_iff).mp h.pids
  have hentry : s'.entry = s.entry := congrArg (fun f a => (f a).entry) hsame.task
  have hmine : s'.mine = s.mine := by rw [Sched.mine, hsame.tasks, hsame.task, Sched.mine]
  refine ⟨hlaid, ?_, ?_, ?_, ?_⟩
  · rw [hmine, hentry]
    have hfilter := hledger.filter fun e => e.1 != (s.entry n).1
    rwa [filter_pid hpids] at hfilter
  · exact h.pids.sublist (List.filter_sublist.map _)
  · rw [hsame.serial]
    exact fun pid hpid => h.minted pid ((List.filter_sublist.map _).subset hpid)
  · rw [hentry]
    exact fun n hn => h.unfinished n (hsub hn)

end Accounts

/-! ## Linking and unlinking -/

/-- A node at the top of the heap, linked behind the running task. -/
def Sched.spawn (s : Sched) (N : Node) (serial : ℕ) : Sched :=
  Sched.link { s.write s.hp N with hp := s.hp + 1, nextSerial := serial } s.tasks s.hp

theorem spawn_task (s : Sched) (N : Node) (serial : ℕ) :
    (s.spawn N serial).task = Function.update s.task s.hp N.task :=
  (SameRegs.link _ _ _).task.trans (s.task_write s.hp N)

namespace Laid

variable {t₁ t₂ : List ℕ}

theorem unlink (h : Laid s (t₁ ++ n :: t₂) P) :
    Laid (s.link ((s.tasks :: t₁).getLast (by simp)) (s.next n)) (t₁ ++ t₂) P := by
  have hring : Ring s.next (s.tasks :: t₁ ++ n :: t₂) := h.run
  have hlast : (s.tasks :: t₁).getLast (by simp) ∈ s.tasks :: (t₁ ++ n :: t₂) :=
    List.mem_append_left (n :: t₂) (List.getLast_mem _)
  rw [← List.dropLast_append_getLast (l := s.tasks :: t₁) (by simp), ← List.append_cons] at hring
  have hrun := hring.erase
  rw [List.append_cons, List.dropLast_append_getLast, ← Sched.next_link] at hrun
  have hsub : (s.tasks :: (t₁ ++ t₂) ++ P).Sublist (s.tasks :: (t₁ ++ n :: t₂) ++ P) :=
    (((List.sublist_cons_self n t₂).append_left t₁).cons_cons s.tasks).append_right P
  refine ⟨hrun, ?_, h.nodup.sublist hsub, fun m hm => h.below m (hsub.subset hm)⟩
  rcases h.park with ⟨hnil, hnone⟩ | ⟨hpark, hsome⟩
  · exact .inl ⟨hnil, hnone⟩
  · refine .inr ⟨?_, hsome⟩
    rw [Sched.next_link]
    exact hpark.congr fun m hm =>
      Function.update_of_ne (ne_of_mem_of_not_mem hlast (h.not_mem_run hm)).symm _ _

theorem spawn {N : Node} (h : Laid s t P) (hnext : N.next = s.next s.tasks) (serial : ℕ) :
    Laid (s.spawn N serial) (s.hp :: t) P := by
  have hfree := h.hp_not_mem
  have hsnext : (s.spawn N serial).next =
      Function.update (Function.update s.next s.hp (s.next s.tasks)) s.tasks s.hp := by
    rw [← hnext, ← Sched.next_write]
    exact Sched.next_link _ _ _
  rw [List.mem_append, not_or] at hfree
  have hperm : (s.tasks :: s.hp :: t ++ P).Perm (s.hp :: (s.tasks :: t ++ P)) := List.Perm.swap _ _ _
  refine ⟨?_, ?_, ?_, ?_⟩
  · rw [hsnext]
    exact h.run.insert hfree.1
  · rcases h.park with ⟨hnil, hnone⟩ | ⟨hpark, hsome⟩
    · exact .inl ⟨hnil, hnone⟩
    · refine .inr ⟨?_, hsome⟩
      rw [hsnext]
      refine hpark.congr fun m hm => ?_
      rw [Function.update_of_ne (ne_of_mem_of_not_mem List.mem_cons_self (h.not_mem_run hm)).symm,
        Function.update_of_ne (ne_of_mem_of_not_mem hm hfree.2)]
  · exact hperm.nodup_iff.mpr (List.nodup_cons.mpr ⟨by simpa [and_assoc] using hfree, h.nodup⟩)
  · intro m hm
    rcases List.mem_cons.mp (hperm.mem_iff.mp hm) with rfl | hm
    · exact Nat.lt_succ_self _
    · exact Nat.lt_succ_of_lt (h.below m hm)

end Laid

/-- A new task, of the next serial. -/
theorem Accounts.spawn {N : Node} (h : Accounts s L t P) (hnext : N.next = s.next s.tasks)
    (hpid : N.pid = s.nextSerial + 1) (hcode : N.ip.ap = .code) :
    Accounts (s.spawn N (s.nextSerial + 1)) ((N.pid, none) :: L) (s.hp :: t) P := by
  have hfree := h.laid.hp_not_mem
  have hold : ∀ a ∈ s.tasks :: t ++ P, (s.spawn N (s.nextSerial + 1)).task a = s.task a := by
    intro a ha
    rw [spawn_task, Function.update_of_ne (ne_of_mem_of_not_mem ha hfree)]
  have holdEntry : ∀ a ∈ t ++ P, (s.spawn N (s.nextSerial + 1)).entry a = s.entry a := fun a ha =>
    congrArg Node.entry (hold a (List.mem_cons_of_mem _ ha))
  have hnew : (s.spawn N (s.nextSerial + 1)).entry s.hp = (N.pid, none) := by
    rw [Sched.entry, spawn_task, Function.update_self]
    refine Prod.ext rfl (if_neg ?_)
    have hap : N.task.ip.ap = .code := hcode
    rw [hap]
    decide
  have hmine : (s.spawn N (s.nextSerial + 1)).mine = s.mine :=
    congrArg (fun n : Node => (n.pid, none)) (hold s.tasks List.mem_cons_self)
  refine ⟨h.laid.spawn hnext _, ?_, ?_, ?_, ?_⟩
  · rw [hmine, List.cons_append, List.map_cons, hnew, List.map_congr_left holdEntry]
    exact (h.ledger.cons _).trans (List.Perm.swap _ _ _)
  · rw [List.map_cons, List.nodup_cons]
    refine ⟨fun hmem => ?_, h.pids⟩
    have := h.minted _ hmem
    omega
  · have hserial : ((s.spawn N (s.nextSerial + 1)).nextSerial : ℤ) = s.nextSerial + 1 := by
      simp [Sched.spawn, Sched.link, Sched.write]
    rw [hserial]
    intro pid hmem
    rcases List.mem_cons.mp hmem with rfl | hmem
    · omega
    · have := h.minted pid hmem
      omega
  · intro a ha
    rw [holdEntry a (List.mem_append_right t ha)]
    exact h.unfinished a ha

end LoveRuntime.Tasks

/-! What each operation makes of the ledger. -/

namespace LoveRuntime.Tasks

open Rings

variable {s s' : Sched} {L : Ledger} {t P : List ℕ} {n : ℕ} {y : Build} {w : Weather}

/-- The rings hold the ledger. -/
def Sound (s : Sched) (L : Ledger) : Prop := ∃ t P, Accounts s L t P

namespace Accounts

theorem raise (h : Accounts s L t P) : Sound s.raise.1 L := by
  rw [Sched.raise]
  split_ifs
  · exact ⟨t, P, h⟩
  · exact ⟨t, P, h.registers rfl rfl rfl rfl rfl⟩

theorem answer (h : Accounts s L t P) (v : Word) : Sound (s.answer v).1 L :=
  ⟨t, P, h.registers rfl rfl rfl rfl rfl⟩

end Accounts

/-! ## Yields -/

theorem Accounts.stayed {t' P' : List ℕ} (h : Accounts s L t P)
    (hm : Moved s { s' with nextWaitFd := s.nextWaitFd } t P t' P') : Sound s' L :=
  ⟨t', P', (h.moved hm).registers rfl rfl rfl rfl rfl⟩

/-- A yield of a task that goes on. -/
theorem Accounts.yields {r : Sched × Outcome} (h : Accounts s L t P) (hcode : s.ip.ap ≠ .exit)
    (hr : Yields y s t P r) : Sound r.1 L := by
  cases hr with
  | stayed hm => exact h.stayed hm
  | raised hm => exact (h.moved hm).raise
  | switched hm hnx hruns =>
      rename_i s₁ _ _ nx
      have h₁ := h.moved hm
      have hcode₁ : s₁.ip.ap ≠ .exit := hm.same.ip.symm ▸ hcode
      have hleft : (s₁.left y s.nextWakeAt s.nextWaitEvents).entry = s₁.mine := by
        rw [left_entry, if_neg hcode₁]
        rfl
      exact h₁.switchTo hnx (entry_none hruns) y _ _ _ (fun _ => hcode₁) (hleft ▸ h₁.ledger) rfl

theorem raise_ne (s : Sched) : s.raise.2 ≠ .switched := by
  rw [Sched.raise]
  split_ifs
  · exact nofun
  · exact nofun

/-- What a yield at the exit does to the ledger. -/
def closed (L : Ledger) (me : ℤ) (ret : Word) : Outcome → Ledger
  | .switched => L.close me ret
  | _ => L

theorem closed_of_ne {ret : Word} {me : ℤ} {o : Outcome} (h : o ≠ .switched) : closed L me ret o = L := by
  cases o with
  | switched => exact absurd rfl h
  | answered v => rfl
  | stayed => rfl
  | raised => rfl
  | stopped => rfl

/-- The exit of a task over its value, with no fd to wait on. -/
theorem Accounts.exits {r : Sched × Outcome} {ret : Word} (h : Accounts s L t P) (hexit : s.ip.ap = .exit)
    (hsp : s.sp = [ret]) (hfd : s.nextWaitFd < 0) (hr : Yields y s t P r) :
    Sound r.1 (closed L (s.node s.tasks).pid ret r.2) := by
  cases hr with
  | stayed hm => exact h.stayed hm
  | raised hm =>
      rw [closed_of_ne (raise_ne _)]
      exact (h.moved hm).raise
  | switched hm hnx hruns =>
      rename_i s₁ t₁ P₁ nx
      have h₁ := h.moved hm
      have hmine : s₁.mine = s.mine := by rw [Sched.mine, Sched.mine, hm.same.tasks, hm.same.task]
      have hleft : (s₁.left y s.nextWakeAt s.nextWaitEvents).entry = (s₁.mine.1, some ret) := by
        rw [left_entry, hm.same.ip, hm.same.sp, if_pos hexit, hsp]
        rfl
      have hpids := (h₁.ledger.map Prod.fst).nodup_iff.mp h₁.pids
      have hclose : (L.close s₁.mine.1 ret).Perm
          (Ledger.close (s₁.mine :: (t₁ ++ P₁).map s₁.entry) s₁.mine.1 ret) := h₁.ledger.map _
      rw [close_pid hpids, ← hleft, hmine] at hclose
      exact h₁.switchTo hnx (entry_none hruns) y _ _ _ (fun hpark => absurd hfd hpark) hclose
        (close_fst _ _ _)

/-! ## Operations -/

theorem pid_of_pidIs {pid : ℤ} (h : s.pidIs pid n = true) : (s.task n).pid = pid := eq_of_beq h

namespace Sound

theorem hear (h : Sound s L) : Sound s.hear.1 L := by
  obtain ⟨t, P, h⟩ := h
  exact (h.write (n := { s.node s.tasks with help := s.arg }) s.tasks rfl rfl rfl).answer _

theorem flipWake (h : Sound s L) (a : ℕ) : Sound (s.flipWake a) L := by
  obtain ⟨t, P, h⟩ := h
  exact ⟨t, P, h.write (n := { s.node a with wakeAt := -(s.node a).wakeAt - 1 }) a rfl rfl rfl⟩

theorem answer (h : Sound s L) (v : Word) : Sound (s.answer v).1 L := by
  obtain ⟨t, P, h⟩ := h
  exact h.answer v

theorem pause (h : Sound s L) : Sound s.lvmPause.1 L := by
  rw [Sched.lvmPause]
  split
  next a heq =>
    split_ifs
    · exact (h.flipWake a).answer _
    · exact h.answer _
  next => exact h.answer _

theorem resume (h : Sound s L) : Sound s.lvmResume.1 L := by
  rw [Sched.lvmResume]
  split
  next a heq =>
    split_ifs
    · exact (h.flipWake a).answer _
    · exact h.answer _
  next => exact h.answer _

theorem donep (h : Sound s L) : Sound (s.lvmDonep y).1 L := by
  rw [Sched.lvmDonep]
  split
  next => exact h.answer _
  next => exact h.answer _

theorem raise (h : Sound s L) : Sound s.raise.1 L := by
  obtain ⟨t, P, h⟩ := h
  exact h.raise

end Sound

/-- The node of a task struck off the run ring. -/
theorem Accounts.unlink {t₁ t₂ : List ℕ} (h : Accounts s L (t₁ ++ n :: t₂) P) :
    Accounts (s.link ((s.tasks :: t₁).getLast (by simp)) (s.next n))
      (L.filter fun e => e.1 != (s.task n).pid) (t₁ ++ t₂) P := by
  refine h.struck h.laid.unlink (SameRegs.link _ _ _) ?_ (List.Subset.refl _)
  rw [List.append_assoc, List.append_assoc]
  exact List.perm_middle

theorem Sound.scoop (h : Sound s L) (me : ℤ) :
    Sound (s.lvmScoop true).1 (L.after y me s.arg (.scoop true) (s.lvmScoop true).2) := by
  obtain ⟨t, P, h⟩ := h
  rw [Sched.lvmScoop, if_neg (by decide)]
  rcases h.laid.runFind_spec fun a => (s.node a).ip.ap == .exit with
    ⟨hnone, -⟩ | ⟨t₁, n, t₂, rfl, -, -, hsome, hnext⟩
  · rw [hnone]
    exact h.answer _
  · rw [hsome]
    dsimp only
    rw [hnext]
    exact h.unlink.answer _

theorem Sound.hush (h : Sound s L) (me : ℤ) :
    Sound (s.lvmHush y).1 (L.after y me s.arg .hush (s.lvmHush y).2) := by
  obtain ⟨t, P, h⟩ := h
  rw [Sched.lvmHush]
  rcases h.laid.runFind_spec (s.pidIs (y.getcharm s.arg)) with
    ⟨hnone, -⟩ | ⟨t₁, n, t₂, rfl, -, hpid, hsome, hnext⟩
  · rw [hnone]
    dsimp only
    rcases h.laid.parkedFind_spec (y.getcharm s.arg) with ⟨hnone, -⟩ | ⟨prev, hsome, hpid, Q, hQ, hperm⟩
    · rw [hnone]
      exact h.answer _
    · have hmem := (hQ.parked_ring List.mem_cons_self).next_mem List.mem_cons_self
      have hstruck := h.struck hQ.parkedDrop (Laid.parkedDrop_regs s prev (s.next prev))
        (((hperm.symm.trans (List.perm_cons_erase hmem)).append_left t).trans List.perm_middle)
        (List.Subset.trans List.erase_subset hperm.subset)
      rw [pid_of_pidIs hpid] at hstruck
      rw [hsome]
      exact hstruck.answer (.charm 1)
  · have hstruck := h.unlink
    rw [pid_of_pidIs hpid] at hstruck
    rw [hsome]
    dsimp only
    rw [hnext]
    exact hstruck.answer (.charm 1)

theorem Sound.twirl (h : Sound s L) (me : ℤ) :
    Sound (s.lvmTwirl true).1 (L.after y me s.arg (.twirl true) (s.lvmTwirl true).2) := by
  obtain ⟨t, P, h⟩ := h
  rw [Sched.lvmTwirl, if_neg (by decide)]
  have hspawn := h.spawn (N := {
    next := (s.node s.tasks).next, ip := ⟨.code, 0⟩, pid := ((s.nextSerial + 1 : ℕ) : ℤ), wakeAt := 0,
    waitFd := -1, events := waitIn, help := (s.node s.tasks).help, stdio := (s.node s.tasks).stdio,
    stack := [s.sp.tail.headD .point, s.arg] }) rfl (by simp) rfl
  exact ⟨_, _, hspawn.registers rfl rfl rfl rfl rfl⟩

end LoveRuntime.Tasks

/-! Waiting on a task: a value is handed over once the task has one, and struck off; a task that
still works is yielded to. -/

namespace LoveRuntime.Tasks

open Rings

variable {s s' : Sched} {L : Ledger} {t P : List ℕ} {n : ℕ} {y : Build} {w : Weather} {pid : ℤ} {r : Word}

namespace Accounts

theorem entry_mem (h : Accounts s L t P) (hn : n ∈ t ++ P) : s.entry n ∈ L :=
  h.ledger.mem_iff.mpr (List.mem_cons_of_mem _ (List.mem_map_of_mem hn))

/-- A task has one entry. -/
theorem entry_unique (h : Accounts s L t P) {a b : ℤ × Option Word} (ha : a ∈ L) (hb : b ∈ L)
    (hab : a.1 = b.1) : a = b :=
  List.inj_on_of_nodup_map h.pids ha hb hab

/-- A task that has ended is on the run ring. -/
theorem finished_mem (h : Accounts s L t P) (hmem : (pid, some r) ∈ L) : ∃ n ∈ t, s.entry n = (pid, some r) := by
  rcases List.mem_cons.mp (h.ledger.mem_iff.mp hmem) with heq | hmem
  · exact absurd (congrArg Prod.snd heq) nofun
  · obtain ⟨n, hn, hentry⟩ := List.mem_map.mp hmem
    rcases List.mem_append.mp hn with hn | hn
    · exact ⟨n, hn, hentry⟩
    · exact absurd (h.unfinished n hn) (by simp [hentry])

end Accounts

theorem pid_of_entry (h : s.entry n = (pid, some r)) : s.pidIs pid n = true :=
  beq_iff_eq.mpr (congrArg Prod.fst h)

theorem exit_of_entry (h : s.entry n = (pid, some r)) : (s.node n).ip.ap = .exit ∧ (s.node n).top = r := by
  have hsnd : (if (s.node n).ip.ap = .exit then some (s.node n).top else none) = some r := congrArg Prod.snd h
  split_ifs at hsnd with hexit
  exact ⟨hexit, Option.some.inj hsnd⟩

theorem Laid.before_cell {t₁ t₂ : List ℕ} (h : Laid s (t₁ ++ n :: t₂) P) :
    before s.next n s.hp n = (s.tasks :: t₁).getLast (by simp) := by
  have hring : Ring s.next (s.tasks :: t₁ ++ n :: t₂) := h.run
  have hback : Ring s.next (n :: (t₂ ++ s.tasks :: t₁)) := hring.comm
  have hlen := h.length_run
  rw [before_spec hback.path (List.nodup_cons.mp hback.nodup).1 (by simp at hlen ⊢; omega)]
  simp

/-- No parked task has the pid. -/
theorem Laid.waitParked_none (h : Laid s t P) (hpid : ∀ m ∈ P, s.pidIs pid m = false) :
    s.waitParked y w pid r = s.answer r := by
  rw [Sched.waitParked]
  rcases h.parkedFind_spec pid with ⟨hnone, -⟩ | ⟨prev, -, hfound, Q, hQ, hperm⟩
  · rw [hnone]
  · have hmem := (hQ.parked_ring List.mem_cons_self).next_mem List.mem_cons_self
    rw [hpid _ (hperm.mem_iff.mp hmem)] at hfound
    cases hfound

/-- A value is handed over, and its task struck off. -/
theorem Accounts.wait_finished (h : Accounts s L t P) (hmem : (y.getcharm s.arg, some r) ∈ L) :
    ∃ s₁ t₁, s.lvmWait y w = s₁.answer r ∧
      Accounts s₁ (L.filter fun e => e.1 != y.getcharm s.arg) t₁ P := by
  have hat : Accounts (s.atInstr .wait) L t P := h.registers rfl rfl rfl rfl rfl
  obtain ⟨m, hm, hentry⟩ := hat.finished_mem hmem
  rw [Sched.lvmWait]
  rcases hat.laid.runFind_spec ((s.atInstr .wait).pidIs (y.getcharm s.arg)) with
    ⟨-, hall⟩ | ⟨t₁, n, t₂, rfl, -, hpid, hsome, hnext⟩
  · have hpid := pid_of_entry hentry
    rw [hall m hm] at hpid
    cases hpid
  · have hn : (s.atInstr .wait).entry n = (y.getcharm s.arg, some r) :=
      hat.entry_unique (hat.entry_mem (by simp)) hmem (pid_of_pidIs hpid)
    obtain ⟨hexit, htop⟩ := exit_of_entry hn
    have hlink := hat.unlink
    rw [pid_of_pidIs hpid] at hlink
    have hgone : ∀ m ∈ P, (Sched.link (s.atInstr .wait)
        (((s.atInstr .wait).tasks :: t₁).getLast (by simp)) ((s.atInstr .wait).next n)).pidIs
          (y.getcharm s.arg) m = false := by
      intro m hm
      have hleft := (List.mem_filter.mp (hlink.entry_mem (List.mem_append_right _ hm))).2
      rw [Bool.eq_false_iff]
      intro hfound
      have hpid : _ = y.getcharm s.arg := pid_of_pidIs hfound
      simp only [bne_iff_ne, ne_eq] at hleft
      exact hleft hpid
    refine ⟨_, t₁ ++ t₂, ?_, hlink⟩
    rw [hsome]
    dsimp only
    rw [hnext, if_pos hexit, hat.laid.before_cell, htop]
    exact hlink.laid.waitParked_none hgone

/-- While the task has no value, its waiter yields; where there is none to wait for, or it is
held, the wait is answered. -/
theorem Accounts.wait_unfinished (h : Accounts s L t P) (hnone : ∀ r, (y.getcharm s.arg, some r) ∉ L) :
    s.lvmWait y w = (s.atInstr .wait).answer (.charm 0) ∨
      s.lvmWait y w = Sched.lvmYieldSw { s.atInstr .wait with nextWakeAt := 0, nextWaitFd := -1 } y w := by
  have hat : Accounts (s.atInstr .wait) L t P := h.registers rfl rfl rfl rfl rfl
  have hparked : (s.atInstr .wait).waitParked y w (y.getcharm s.arg) (.charm 0) =
        (s.atInstr .wait).answer (.charm 0) ∨
      (s.atInstr .wait).waitParked y w (y.getcharm s.arg) (.charm 0) =
        Sched.lvmYieldSw { s.atInstr .wait with nextWakeAt := 0, nextWaitFd := -1 } y w := by
    rw [Sched.waitParked]
    split
    next => exact .inl rfl
    next prev heq =>
      split_ifs
      · exact .inl rfl
      · exact .inr rfl
  rw [Sched.lvmWait]
  rcases hat.laid.runFind_spec ((s.atInstr .wait).pidIs (y.getcharm s.arg)) with
    ⟨hfind, -⟩ | ⟨t₁, n, t₂, rfl, -, hpid, hsome, hnext⟩
  · rw [hfind]
    exact hparked
  · rw [hsome]
    dsimp only
    rw [hnext]
    split_ifs with hexit hheld
    · have hn : (s.atInstr .wait).entry n = (y.getcharm s.arg, some ((s.atInstr .wait).node n).top) :=
        Prod.ext (pid_of_pidIs hpid) (if_pos hexit)
      exact absurd (hn ▸ hat.entry_mem (n := n) (by simp)) (hnone _)
    · exact hparked
    · exact .inr rfl

end LoveRuntime.Tasks
