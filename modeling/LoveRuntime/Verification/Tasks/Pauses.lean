import LoveRuntime.Verification.Tasks.Deadlock
import LoveRuntime.Verification.Tasks.Runs

/-! Holding a task: through any run of the other tasks it stays on its ring, as it was, until an
operation names it; a resume then gives back its deadline. -/

namespace LoveRuntime.Tasks

open Rings

variable {s s' s₁ : Sched} {t P t' P' t₁ P₁ : List ℕ} {a b n : ℕ} {y : Build} {pid : ℤ}

/-- The operations that touch a held task: they name its pid. -/
def Sched.names (y : Build) (s : Sched) : Act → ℤ → Prop
  | .hush, pid => y.getcharm s.arg = pid
  | .resume, pid => s.arg = .charm pid
  | _, _ => False

/-- What an operation leaves, as `Passed`, but for the held tasks it names. -/
structure Stepped (y : Build) (s : Sched) (act : Act) (t P t' P' : List ℕ) : Prop where
  orderly : Orderly (s.step y act).1 t' P'
  rests : ∀ a ∈ t ++ P, s.heldTask a → ¬s.names y act (s.task a).pid →
    Rests s t P (s.step y act).1 t' P' a
  chosen : (s.step y act).2 = .switched → ((s.step y act).1.node (s.step y act).1.tasks).held = false

theorem Node.not_held_of_live {n : Node} (h : n.live = true) : n.held = false := by
  rw [Node.live, Bool.and_eq_true] at h
  simpa using h.2

/-! ## One node written, struck or added -/

namespace Orderly

/-- A node written over with the same link, fd and pid. -/
theorem write (h : Orderly s t P) (a : ℕ) {n : Node} (hnext : n.next = s.next a) (hfd : n.waitFd = s.fd a)
    (hpid : n.pid = (s.task a).pid) : Orderly (s.write a n) t P := by
  have hnext : (s.write a n).next = s.next := by rw [Sched.next_write, hnext, Function.update_eq_self]
  have hfd : (s.write a n).fd = s.fd := by rw [fd_write, hfd, Function.update_eq_self]
  have hpids : ∀ c, ((s.write a n).task c).pid = (s.task c).pid := by
    intro c
    rw [Sched.task_write]
    by_cases hc : c = a
    · rw [hc, Function.update_self]
      exact hpid
    · rw [Function.update_of_ne hc]
  refine ⟨h.laid.congr hnext rfl rfl rfl, hfd ▸ h.run, hfd ▸ h.park, ?_, fun n hn => ?_⟩
  · rw [List.map_congr_left fun c _ => hpids c]
    exact h.pids
  · rw [hpids]
    exact h.minted n hn

/-- A node struck off its ring. -/
theorem struck (h : Orderly s t P) (hlaid : Laid s' t' P') (hregs : SameRegs s s') (hfd : s'.fd = s.fd)
    (hperm : (t ++ P).Perm (n :: (t' ++ P'))) (hrun : t' ⊆ t) (hpark : P' ⊆ P) : Orderly s' t' P' := by
  have hall : (s.tasks :: t ++ P).Perm (n :: (s.tasks :: t' ++ P')) :=
    (hperm.cons s.tasks).trans (List.Perm.swap _ _ _)
  refine ⟨hlaid, hfd ▸ fun n hn => h.run n (hrun hn), hfd ▸ fun n hn => h.park n (hpark hn), ?_, fun m hm => ?_⟩
  · rw [hregs.tasks, hregs.task]
    exact (List.nodup_cons.mp ((hall.map _).nodup_iff.mp h.pids)).2
  · rw [hregs.tasks] at hm
    rw [hregs.task, hregs.serial]
    exact h.minted m (hall.mem_iff.mpr (List.mem_cons_of_mem _ hm))

theorem struck_rests (h : Orderly s t P) (hregs : SameRegs s s') (hfd : s'.fd = s.fd)
    (hperm : (t ++ P).Perm (n :: (t' ++ P'))) (hrun : t' ⊆ t) (hpark : P' ⊆ P) (ha : a ≠ n) :
    Rests s t P s' t' P' a := by
  have hmem : a ∈ t ++ P → a ∈ t' ∨ a ∈ P' := fun hmem =>
    List.mem_append.mp ((List.mem_cons.mp (hperm.mem_iff.mp hmem)).resolve_left ha)
  refine ⟨by rw [hregs.task], by rw [hfd], fun ht => ?_, fun hp => ?_⟩
  · exact (hmem (List.mem_append_left _ ht)).resolve_right fun hp => h.laid.not_mem_park ht (hpark hp)
  · exact (hmem (List.mem_append_right _ hp)).resolve_left fun ht => h.laid.not_mem_park (hrun ht) hp

theorem spawn {N : Node} (h : Orderly s t P) (hnext : N.next = s.next s.tasks) (hpid : N.pid = s.nextSerial + 1)
    (hfd : N.waitFd < 0) : Orderly (s.spawn N (s.nextSerial + 1)) (s.hp :: t) P := by
  have hfree := h.laid.hp_not_mem
  have hsfd : (s.spawn N (s.nextSerial + 1)).fd = Function.update s.fd s.hp N.waitFd :=
    (fd_link _ _ _).trans (fd_write s s.hp N)
  have hold : ∀ m ∈ s.tasks :: t ++ P, ((s.spawn N (s.nextSerial + 1)).task m).pid = (s.task m).pid := by
    intro m hm
    rw [spawn_task, Function.update_of_ne (ne_of_mem_of_not_mem hm hfree)]
  have hnew : ((s.spawn N (s.nextSerial + 1)).task s.hp).pid = s.nextSerial + 1 := by
    rw [spawn_task, Function.update_self]
    exact hpid
  have hperm : (s.tasks :: s.hp :: t ++ P).Perm (s.hp :: (s.tasks :: t ++ P)) := List.Perm.swap _ _ _
  refine ⟨h.laid.spawn hnext _, fun m hm => ?_, fun m hm => ?_, ?_, fun m hm => ?_⟩
  · rw [hsfd]
    rcases List.mem_cons.mp hm with rfl | hm
    · rwa [Function.update_self]
    · have hmem : m ∈ s.tasks :: t ++ P := List.mem_append_left _ (List.mem_cons_of_mem _ hm)
      rw [Function.update_of_ne (ne_of_mem_of_not_mem hmem hfree)]
      exact h.run m hm
  · rw [hsfd, Function.update_of_ne (ne_of_mem_of_not_mem (List.mem_append_right _ hm) hfree)]
    exact h.park m hm
  · change ((s.tasks :: s.hp :: t ++ P).map _).Nodup
    rw [(hperm.map _).nodup_iff, List.map_cons, hnew, List.map_congr_left hold]
    refine List.nodup_cons.mpr ⟨fun hmem => ?_, h.pids⟩
    obtain ⟨m, hm, hpid⟩ := List.mem_map.mp hmem
    have := h.minted m hm
    omega
  · change _ ≤ ((s.nextSerial + 1 : ℕ) : ℤ)
    rcases List.mem_cons.mp (hperm.mem_iff.mp hm) with rfl | hm
    · rw [hnew]
      omega
    · rw [hold m hm]
      have := h.minted m hm
      omega

end Orderly

theorem Rests.write (s : Sched) (t P : List ℕ) (n : Node) (hb : b ≠ a) : Rests s t P (s.write a n) t P b where
  task := by rw [Sched.task_write, Function.update_of_ne hb]
  fd := by rw [fd_write, Function.update_of_ne hb]
  run := id
  park := id

/-! ## The node of a pid -/

/-- Found by its pid. -/
theorem Orderly.taskNode_mem (h : Orderly s t P) (hn : s.taskNode pid = some a) :
    a ∈ t ++ P ∧ (s.task a).pid = pid := by
  rw [Sched.taskNode] at hn
  rcases h.laid.runFind_spec (s.pidIs pid) with ⟨hnone, -⟩ | ⟨u, m, v, rfl, -, hpid, hsome, hnext⟩
  · rw [hnone] at hn
    rcases h.laid.parkedFind_spec pid with ⟨hnone, -⟩ | ⟨prev, hsome, hpid, Q, hQ, hperm⟩
    · rw [hnone] at hn
      cases hn
    · rw [hsome] at hn
      obtain rfl := Option.some.inj hn
      have hmem := (hQ.parked_ring List.mem_cons_self).next_mem List.mem_cons_self
      exact ⟨List.mem_append_right _ (hperm.mem_iff.mp hmem), pid_of_pidIs hpid⟩
  · rw [hsome] at hn
    obtain rfl := Option.some.inj hn
    rw [hnext]
    exact ⟨by simp, pid_of_pidIs hpid⟩

theorem Orderly.argNode_mem (h : Orderly s t P) (hn : s.argNode = some a) :
    a ∈ t ++ P ∧ s.arg = .charm (s.task a).pid := by
  rw [Sched.argNode] at hn
  split at hn
  next pid hpid =>
    obtain ⟨hmem, rfl⟩ := h.taskNode_mem hn
    exact ⟨hmem, hpid⟩
  next => cases hn

/-- Registers that no ring and no node holds. -/
theorem Orderly.registers (h : Orderly s t P) (act : Act) (hnode : (s.step y act).1.node = s.node)
    (htasks : (s.step y act).1.tasks = s.tasks) (hparked : (s.step y act).1.parked = s.parked)
    (hhp : (s.step y act).1.hp = s.hp) (hserial : (s.step y act).1.nextSerial = s.nextSerial)
    (hstays : (s.step y act).2 ≠ .switched) : Stepped y s act t P t P where
  orderly := h.congr hnode htasks hparked hhp hserial
  rests a _ _ _ := rests_of_node hnode a
  chosen hsw := absurd hsw hstays

theorem Orderly.raised (h : Orderly s t P) (act : Act) (hr : s.step y act = s.raise) : Stepped y s act t P t P := by
  have hpassed := h.drifted.raise
  rw [← hr] at hpassed
  exact ⟨hpassed.orderly, fun a ha hheld _ => hpassed.rests a ha hheld, hpassed.chosen⟩

/-- A yield, whatever registers are set for it. -/
theorem Orderly.yields {w : Weather} (h : Orderly s t P) (act : Act) (hr : s.step y act = s₁.lvmYieldSw y w)
    (hnode : s₁.node = s.node) (htasks : s₁.tasks = s.tasks) (hparked : s₁.parked = s.parked)
    (hhp : s₁.hp = s.hp) (hserial : s₁.nextSerial = s.nextSerial) : ∃ t' P', Stepped y s act t P t' P' := by
  have h₁ := h.congr hnode htasks hparked hhp hserial
  obtain ⟨t', P', hpassed⟩ := h₁.lvmYieldSw y w
  rw [← hr] at hpassed
  refine ⟨t', P', hpassed.orderly, fun a ha hheld _ => ?_, hpassed.chosen⟩
  have hrest := rests_of_node (t := t) (P := P) hnode a
  exact hrest.trans (hpassed.rests a ha (hrest.held hheld))

/-- A node struck off by an operation that then answers. -/
theorem Orderly.strikes (h : Orderly s t P) (act : Act) {v : Word} (hr : s.step y act = s₁.answer v)
    (hlaid : Laid s₁ t' P') (hregs : SameRegs s s₁) (hfd : s₁.fd = s.fd)
    (hperm : (t ++ P).Perm (n :: (t' ++ P'))) (hrun : t' ⊆ t) (hpark : P' ⊆ P)
    (hn : s.heldTask n → s.names y act (s.task n).pid) : Stepped y s act t P t' P' := by
  have h₁ : Orderly s₁ t' P' := h.struck hlaid hregs hfd hperm hrun hpark
  refine ⟨hr ▸ h₁.congr rfl rfl rfl rfl rfl, fun a ha hheld hnamed => ?_, fun hsw => ?_⟩
  · have hne : a ≠ n := by
      rintro rfl
      exact hnamed (hn hheld)
    have hlast : Rests s₁ t' P' (s₁.answer v).1 t' P' a := ⟨rfl, rfl, id, id⟩
    rw [hr]
    exact (h.struck_rests hregs hfd hperm hrun hpark hne).trans hlast
  · rw [hr] at hsw
    cases hsw

theorem unlink_perm {u v : List ℕ} : (u ++ n :: v ++ P).Perm (n :: (u ++ v ++ P)) := by
  rw [List.append_assoc, List.append_assoc]
  exact List.perm_middle

theorem unlink_subset {u v : List ℕ} : u ++ v ⊆ u ++ n :: v :=
  ((List.sublist_cons_self n v).append_left u).subset

theorem Orderly.twirl (h : Orderly s t P) (room : Bool) : ∃ t' P', Stepped y s (.twirl room) t P t' P' := by
  cases room with
  | false => exact ⟨t, P, h.raised (.twirl false) rfl⟩
  | true =>
      have hspawn := h.spawn (N := {
        next := (s.node s.tasks).next, ip := ⟨.code, 0⟩, pid := ((s.nextSerial + 1 : ℕ) : ℤ), wakeAt := 0,
        waitFd := -1, events := waitIn, help := (s.node s.tasks).help, stdio := (s.node s.tasks).stdio,
        stack := [s.sp.tail.headD .point, s.arg] }) rfl (by simp) (Int.negSucc_lt_zero 0)
      have hfree := h.laid.hp_not_mem
      refine ⟨s.hp :: t, P, hspawn.congr rfl rfl rfl rfl rfl, fun a ha _ _ => ?_, nofun⟩
      have hne : a ≠ s.hp := ne_of_mem_of_not_mem (List.mem_cons_of_mem _ ha) hfree
      refine ⟨?_, ?_, fun ht => List.mem_cons_of_mem _ ht, id⟩
      · exact (congrFun (spawn_task s _ _) a).trans (Function.update_of_ne hne _ _)
      · exact (congrFun ((fd_link _ _ _).trans (fd_write s s.hp _)) a).trans (Function.update_of_ne hne _ _)

theorem Orderly.scoop (h : Orderly s t P) (room : Bool) : ∃ t' P', Stepped y s (.scoop room) t P t' P' := by
  cases room with
  | false => exact ⟨t, P, h.raised (.scoop false) rfl⟩
  | true =>
      rcases h.laid.runFind_spec fun a => (s.node a).ip.ap == .exit with
        ⟨hnone, -⟩ | ⟨u, n, v, rfl, -, hexit, hsome, hnext⟩
      · have hr : s.step y (.scoop true) = s.answer .point := by
          rw [Sched.step, Sched.lvmScoop, if_neg (by rintro ⟨⟩), hnone]
        refine ⟨t, P, h.registers _ ?_ ?_ ?_ ?_ ?_ ?_⟩
        all_goals rw [hr]
        all_goals first | rfl | rintro ⟨⟩
      · have hr : s.step y (.scoop true) = (s.link ((s.tasks :: u).getLast (by simp)) (s.next n)).answer
            (.pair (.charm (s.node n).pid) (s.node n).top) := by
          rw [Sched.step, Sched.lvmScoop, if_neg (by rintro ⟨⟩), hsome]
          dsimp only
          rw [hnext]
          rfl
        refine ⟨u ++ v, P, h.strikes (n := n) _ hr h.laid.unlink (SameRegs.link _ _ _) (fd_link _ _ _)
          unlink_perm unlink_subset (List.Subset.refl _) fun hheld => ?_⟩
        exact absurd (eq_of_beq hexit) hheld.2

theorem Orderly.hush (h : Orderly s t P) : ∃ t' P', Stepped y s .hush t P t' P' := by
  rcases h.laid.runFind_spec (s.pidIs (y.getcharm s.arg)) with
    ⟨hnone, -⟩ | ⟨u, n, v, rfl, -, hpid, hsome, hnext⟩
  · rcases h.laid.parkedFind_spec (y.getcharm s.arg) with ⟨hnone', -⟩ | ⟨prev, hsome, hpid, Q, hQ, hperm⟩
    · have hr : s.step y .hush = s.answer (.charm 0) := by
        rw [Sched.step, Sched.lvmHush, hnone, hnone']
      refine ⟨t, P, h.registers _ ?_ ?_ ?_ ?_ ?_ ?_⟩
      all_goals rw [hr]
      all_goals first | rfl | rintro ⟨⟩
    · have hr : s.step y .hush = (s.parkedDrop prev (s.next prev)).answer (.charm 1) := by
        rw [Sched.step, Sched.lvmHush, hnone, hsome]
      have hmem := (hQ.parked_ring List.mem_cons_self).next_mem List.mem_cons_self
      exact ⟨t, _, h.strikes (n := s.next prev) _ hr hQ.parkedDrop (Laid.parkedDrop_regs s prev _)
        (parkedDrop_fd s prev _)
        (((hperm.symm.trans (List.perm_cons_erase hmem)).append_left t).trans List.perm_middle)
        (List.Subset.refl _) (List.Subset.trans List.erase_subset hperm.subset) fun _ => (pid_of_pidIs hpid).symm⟩
  · have hr : s.step y .hush = (s.link ((s.tasks :: u).getLast (by simp)) (s.next n)).answer (.charm 1) := by
      rw [Sched.step, Sched.lvmHush, hsome]
      dsimp only
      rw [hnext]
    exact ⟨u ++ v, P, h.strikes (n := n) _ hr h.laid.unlink (SameRegs.link _ _ _) (fd_link _ _ _)
      unlink_perm unlink_subset (List.Subset.refl _) fun _ => (pid_of_pidIs hpid).symm⟩

/-- The foot of a wait, in the rings as the wait has left them. -/
theorem Orderly.waitParked {w : Weather} (h : Orderly s t P) (target : ℤ) (ret : Word) :
    ∃ t' P', Passed s t P (s.waitParked y w target ret) t' P' := by
  rw [Sched.waitParked]
  split
  next => exact ⟨t, P, h.drifted.registers (s.answer ret).1 rfl rfl rfl rfl rfl (by rintro ⟨⟩)⟩
  next prev hprev =>
    split_ifs
    · exact ⟨t, P, h.drifted.registers (s.answer ret).1 rfl rfl rfl rfl rfl (by rintro ⟨⟩)⟩
    · have h₁ : Orderly { s with nextWakeAt := 0, nextWaitFd := -1 } t P := h.congr rfl rfl rfl rfl rfl
      have hrest : ∀ a, Rests s t P { s with nextWakeAt := 0, nextWaitFd := -1 } t P a := fun _ => ⟨rfl, rfl, id, id⟩
      obtain ⟨t', P', hpassed⟩ := h₁.lvmYieldSw y w
      exact ⟨t', P', hpassed.orderly, fun a ha hheld => (hrest a).trans (hpassed.rests a ha hheld), hpassed.chosen⟩

theorem Passed.stepped {act : Act} {s₁ : Sched} {t₁ P₁ : List ℕ} (h : Passed s₁ t₁ P₁ (s.step y act) t' P')
    (hrests : ∀ a ∈ t ++ P, s.heldTask a → Rests s t P s₁ t₁ P₁ a) : Stepped y s act t P t' P' where
  orderly := h.orderly
  rests a ha hheld _ := by
    have hrest := hrests a ha hheld
    exact hrest.trans (h.rests a (hrest.mem ha) (hrest.held hheld))
  chosen := h.chosen

theorem Orderly.wait (h : Orderly s t P) (w : Weather) : ∃ t' P', Stepped y s (.wait w) t P t' P' := by
  have hat : Orderly (s.atInstr .wait) t P := h.congr rfl rfl rfl rfl rfl
  have hrest : ∀ a ∈ t ++ P, s.heldTask a → Rests s t P (s.atInstr .wait) t P a :=
    fun a _ _ => ⟨rfl, rfl, id, id⟩
  have hparked : s.lvmWait y w = (s.atInstr .wait).waitParked y w (y.getcharm s.arg) (.charm 0) →
      ∃ t' P', Stepped y s (.wait w) t P t' P' := by
    intro hr
    obtain ⟨t', P', hpassed⟩ := hat.waitParked (y := y) (w := w) (y.getcharm s.arg) (.charm 0)
    rw [← hr] at hpassed
    exact ⟨t', P', hpassed.stepped hrest⟩
  rcases hat.laid.runFind_spec ((s.atInstr .wait).pidIs (y.getcharm s.arg)) with
    ⟨hnone, -⟩ | ⟨u, n, v, rfl, -, hpid, hsome, hnext⟩
  · refine hparked ?_
    rw [Sched.lvmWait, hnone]
  · have hlvm := Sched.lvmWait.eq_1 s y w
    rw [hsome] at hlvm
    dsimp only at hlvm
    rw [hnext] at hlvm
    split_ifs at hlvm with hexit hheld
    · rw [hat.laid.before_cell] at hlvm
      have hgone := hat.struck hat.laid.unlink (SameRegs.link _ _ _) (fd_link _ _ _) unlink_perm unlink_subset
        (List.Subset.refl P)
      obtain ⟨t', P', hpassed⟩ := hgone.waitParked (y := y) (w := w) (y.getcharm s.arg)
        ((s.atInstr .wait).node n).top
      rw [← hlvm] at hpassed
      refine ⟨t', P', hpassed.stepped fun a ha hheld => ?_⟩
      have hne : a ≠ n := by
        rintro rfl
        exact hheld.2 hexit
      exact (hrest a ha hheld).trans (hat.struck_rests (SameRegs.link _ _ _) (fd_link _ _ _) unlink_perm
        unlink_subset (List.Subset.refl P) hne)
    · exact hparked hlvm
    · exact h.yields (.wait w) hlvm rfl rfl rfl rfl rfl

/-- A held task is flipped by a resume of its pid only. -/
theorem Orderly.flips (h : Orderly s t P) (act : Act) {v : Word} (hr : s.step y act = (s.flipWake a).answer v)
    (hmem : a ∈ t ++ P) (ha : s.heldTask a → s.names y act (s.task a).pid) : Stepped y s act t P t P := by
  have hflip : Orderly (s.flipWake a) t P := h.write a rfl rfl rfl
  refine ⟨hr ▸ hflip.congr rfl rfl rfl rfl rfl, fun b hb hheld hnamed => ?_, fun hsw => ?_⟩
  · have hne : b ≠ a := by
      rintro rfl
      exact hnamed (ha hheld)
    have hlast : Rests (s.flipWake a) t P ((s.flipWake a).answer v).1 t P b := ⟨rfl, rfl, id, id⟩
    rw [hr]
    exact (Rests.write s t P _ hne).trans hlast
  · rw [hr] at hsw
    cases hsw

theorem Orderly.answers (h : Orderly s t P) (act : Act) {v : Word} (hr : s.step y act = s.answer v) :
    Stepped y s act t P t P := by
  refine h.registers act ?_ ?_ ?_ ?_ ?_ ?_
  all_goals rw [hr]
  all_goals first | rfl | exact nofun

theorem Orderly.pause (h : Orderly s t P) : Stepped y s .pause t P t P := by
  have hr := Sched.lvmPause.eq_1 s
  split at hr
  next a harg =>
    split_ifs at hr with hlive
    · refine h.flips .pause hr (h.argNode_mem harg).1 fun hheld => ?_
      have hunheld : (s.task a).held = false := Node.not_held_of_live hlive
      rw [hheld.1] at hunheld
      cases hunheld
    · exact h.answers .pause hr
  next => exact h.answers .pause hr

theorem Orderly.resume (h : Orderly s t P) : Stepped y s .resume t P t P := by
  have hr := Sched.lvmResume.eq_1 s
  split at hr
  next a harg =>
    obtain ⟨hmem, hpid⟩ := h.argNode_mem harg
    split_ifs at hr
    · exact h.flips .resume hr hmem fun _ => hpid
    · exact h.answers .resume hr
  next => exact h.answers .resume hr

theorem Orderly.donep (h : Orderly s t P) : Stepped y s .donep t P t P := by
  have hr := Sched.lvmDonep.eq_1 s y
  split at hr
  next => exact h.answers .donep hr
  next => exact h.answers .donep hr

theorem Orderly.hear (h : Orderly s t P) : Stepped y s .hear t P t P := by
  have hwrite : Orderly (s.write s.tasks { s.node s.tasks with help := s.arg }) t P := h.write s.tasks rfl rfl rfl
  refine ⟨hwrite.congr rfl rfl rfl rfl rfl, fun a ha _ _ => ?_, nofun⟩
  have hne : a ≠ s.tasks := by
    rintro rfl
    have hnd := h.laid.nodup
    rw [List.cons_append, List.nodup_cons] at hnd
    exact hnd.1 ha
  have hlast : Rests (s.write s.tasks { s.node s.tasks with help := s.arg }) t P s.hear.1 t P a :=
    ⟨rfl, rfl, id, id⟩
  exact (Rests.write s t P _ hne).trans hlast

theorem Orderly.check (h : Orderly s t P) (w : Weather) : ∃ t' P', Stepped y s (.check w) t P t' P' := by
  have hr := Sched.yieldCheck.eq_1 s y w
  dsimp only at hr
  split_ifs at hr
  · exact h.yields (.check w) hr rfl rfl rfl rfl rfl
  · refine ⟨t, P, h.registers _ ?_ ?_ ?_ ?_ ?_ ?_⟩
    all_goals rw [Sched.step, hr]
    all_goals first | rfl | rintro ⟨⟩
  · refine ⟨t, P, h.registers _ ?_ ?_ ?_ ?_ ?_ ?_⟩
    all_goals rw [Sched.step, hr]
    all_goals first | rfl | rintro ⟨⟩

/-- Every operation keeps the rings in order and a held task where it is, until it is named. -/
theorem Orderly.step (h : Orderly s t P) (y : Build) (act : Act) : ∃ t' P', Stepped y s act t P t' P' := by
  cases act with
  | compute addr sp => exact ⟨t, P, h.registers _ rfl rfl rfl rfl rfl nofun⟩
  | hear => exact ⟨t, P, h.hear⟩
  | twirl room => exact h.twirl room
  | check w => exact h.check w
  | yield w => exact h.yields (.yield w) rfl rfl rfl rfl rfl rfl
  | park w fd events => exact h.yields (.park w fd events) rfl rfl rfl rfl rfl rfl
  | poll w => exact h.yields (.poll w) rfl rfl rfl rfl rfl rfl
  | sleep w => exact h.yields (.sleep w) rfl rfl rfl rfl rfl rfl
  | exit w ret => exact h.yields (.exit w ret) rfl rfl rfl rfl rfl rfl
  | quit w => exact h.yields (.quit w) rfl rfl rfl rfl rfl rfl
  | wait w => exact h.wait w
  | donep => exact ⟨t, P, h.donep⟩
  | scoop room => exact h.scoop room
  | hush => exact h.hush
  | pause => exact ⟨t, P, h.pause⟩
  | resume => exact ⟨t, P, h.resume⟩

/-! ## Runs -/

theorem boot_orderly : Orderly boot [] [] := by
  refine ⟨⟨⟨rfl, by simp⟩, .inl ⟨rfl, rfl⟩, by simp, fun n hn => ?_⟩, nofun, nofun, by simp, fun n hn => ?_⟩
  · rw [List.mem_singleton.mp hn]
    decide
  · rw [List.mem_singleton.mp hn]
    decide

theorem Reached.orderly {allow : Sched → Act → Prop} {L : Ledger} (h : Reached y allow s L) :
    ∃ t P, Orderly s t P := by
  induction h with
  | boot => exact ⟨[], [], boot_orderly⟩
  | step _ act _ _ ih =>
      obtain ⟨t, P, h⟩ := ih
      obtain ⟨t', P', hstep⟩ := h.step y act
      exact ⟨t', P', hstep.orderly⟩

/-! ## A pause and its resume -/

theorem Node.flip_flip (n : Node) : { n with wakeAt := -(-n.wakeAt - 1) - 1 } = n := by
  have hback : -(-n.wakeAt - 1) - 1 = n.wakeAt := by omega
  rw [hback]

theorem flipWake_task (s : Sched) (a : ℕ) : (s.flipWake a).task =
    Function.update s.task a { s.task a with wakeAt := -(s.task a).wakeAt - 1 } :=
  s.task_write a _

theorem flipWake_fd (s : Sched) (a : ℕ) : (s.flipWake a).fd = s.fd :=
  (fd_write s a _).trans (Function.update_eq_self a s.fd)

/-- Two flips give a task back. -/
theorem Rests.flip (h : Rests (s.flipWake a) t P s' t' P' a) : Rests s t P (s'.flipWake a) t' P' a where
  task := by
    rw [flipWake_task, Function.update_self, h.task, flipWake_task, Function.update_self]
    exact Node.flip_flip (s.task a)
  fd := by rw [flipWake_fd, h.fd, flipWake_fd]
  run := h.run
  park := h.park

/-- Whether there is the room that the operation asks for. -/
def Act.room : Act → Bool
  | .twirl room => room
  | .scoop room => room
  | .check w => w.room
  | .yield w => w.room
  | .park w _ _ => w.room
  | .poll w => w.room
  | .sleep w => w.room
  | .exit w _ => w.room
  | .quit w => w.room
  | .wait w => w.room
  | _ => true

/-- Whether the running task ends with it. -/
def Act.ends : Act → Bool
  | .exit _ _ => true
  | .quit _ => true
  | _ => false

end LoveRuntime.Tasks
