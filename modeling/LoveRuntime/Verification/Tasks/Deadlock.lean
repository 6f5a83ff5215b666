import LoveRuntime.Verification.Tasks.Steps

/-! What every operation keeps of the rings: the tasks of the run ring wait on no fd, those of the
parked ring wait on one, each has a pid of its own, and a held task stays where and as it is until
it is named. -/

namespace LoveRuntime.Tasks

open Rings

variable {s s' s₀ s₁ : Sched} {t P t' P' t₀ P₀ t₁ P₁ : List ℕ} {a b n : ℕ}

/-! ## Fds -/

/-- The fd a node waits on. -/
def Sched.fd (s : Sched) (a : ℕ) : ℤ := (s.node a).waitFd

theorem fd_write (s : Sched) (a : ℕ) (n : Node) : (s.write a n).fd = Function.update s.fd a n.waitFd := by
  funext c
  by_cases hc : c = a
  · subst hc
    simp [Sched.fd, Sched.write]
  · simp [Sched.fd, Sched.write, hc]

theorem fd_link (s : Sched) (a b : ℕ) : (s.link a b).fd = s.fd :=
  (fd_write s a _).trans (Function.update_eq_self a s.fd)

theorem parkedDrop_fd (s : Sched) (a n : ℕ) : (s.parkedDrop a n).fd = s.fd := by
  rw [Sched.parkedDrop]
  split_ifs
  · rfl
  · dsimp only
    split_ifs
    · exact fd_link s a _
    · exact fd_link s a _

theorem runSpliceAt_fd (s : Sched) (a n : ℕ) : (s.runSpliceAt a n).fd = Function.update s.fd n (-1) := by
  rw [Sched.runSpliceAt, fd_link, fd_write, fd_link]

theorem woken_fd (s : Sched) (t : List ℕ) (a : ℕ) :
    (s.woken t a).fd = Function.update s.fd (s.next a) (-1) := by
  rw [Sched.woken, runSpliceAt_fd, parkedDrop_fd]

theorem switchTo_fd (s : Sched) (y : Build) (nx myWake : ℕ) (myFd myEvents : ℤ) :
    (s.switchTo y nx myWake myFd myEvents).fd = Function.update s.fd s.hp myFd := by
  have hsnap : ∀ next, (s.snapshot y next myWake myFd myEvents).fd = Function.update s.fd s.hp myFd :=
    fun next => fd_write s.clearWait s.hp _
  rw [Sched.switchTo]
  dsimp only
  split_ifs
  · exact (fd_link _ _ _).trans (hsnap _)
  · cases s.parked with
    | none => exact (fd_link (s.snapshot y s.hp myWake myFd myEvents) _ _).trans (hsnap _)
    | some c => exact ((fd_link _ _ _).trans (fd_link _ _ _)).trans (hsnap _)

/-! ## The order of the rings -/

structure Orderly (s : Sched) (t P : List ℕ) : Prop where
  laid : Laid s t P
  run : ∀ n ∈ t, s.fd n < 0
  park : ∀ n ∈ P, 0 ≤ s.fd n
  pids : ((s.tasks :: t ++ P).map fun n => (s.task n).pid).Nodup
  minted : ∀ n ∈ s.tasks :: t ++ P, (s.task n).pid ≤ s.nextSerial

/-- A task that is where it was, as it was. -/
structure Rests (s : Sched) (t P : List ℕ) (s' : Sched) (t' P' : List ℕ) (a : ℕ) : Prop where
  task : s'.task a = s.task a
  fd : s'.fd a = s.fd a
  run : a ∈ t → a ∈ t'
  park : a ∈ P → a ∈ P'

theorem Rests.refl (s : Sched) (t P : List ℕ) (a : ℕ) : Rests s t P s t P a := ⟨rfl, rfl, id, id⟩

theorem Rests.trans (h : Rests s₀ t₀ P₀ s t P a) (h' : Rests s t P s' t' P' a) :
    Rests s₀ t₀ P₀ s' t' P' a where
  task := h'.task.trans h.task
  fd := h'.fd.trans h.fd
  run := fun ha => h'.run (h.run ha)
  park := fun ha => h'.park (h.park ha)

theorem Rests.mem (h : Rests s t P s' t' P' a) (ha : a ∈ t ++ P) : a ∈ t' ++ P' := by
  rw [List.mem_append] at ha ⊢
  exact ha.imp h.run h.park

/-- Held, and not at its exit. -/
def Sched.heldTask (s : Sched) (a : ℕ) : Prop := (s.task a).held = true ∧ (s.task a).ip.ap ≠ .exit

theorem Rests.held (h : Rests s t P s' t' P' a) (ha : s.heldTask a) : s'.heldTask a := by
  rw [Sched.heldTask, h.task]
  exact ha

/-- Beside the rings, `s'` has the registers of `s`, and every held task rests. -/
structure Drifted (s : Sched) (t P : List ℕ) (s' : Sched) (t' P' : List ℕ) : Prop where
  orderly : Orderly s' t' P'
  regs : SameRegs s s'
  rests : ∀ a ∈ t ++ P, s.heldTask a → Rests s t P s' t' P' a

theorem Orderly.drifted (h : Orderly s t P) : Drifted s t P s t P :=
  ⟨h, SameRegs.refl s, fun a _ _ => Rests.refl s t P a⟩

theorem Orderly.perm (h : Orderly s t P) (hlaid : Laid s t P') (hperm : P'.Perm P) : Orderly s t P' where
  laid := hlaid
  run := h.run
  park n hn := h.park n (hperm.mem_iff.mp hn)
  pids := ((hperm.append_left _).map _).nodup_iff.mpr h.pids
  minted n hn := h.minted n ((hperm.append_left _).mem_iff.mp hn)

/-- The nodes of the rings in another order, their tasks the same. -/
theorem Orderly.same (h : Orderly s t P) (hlaid : Laid s' t' P') (hregs : SameRegs s s')
    (hperm : (t' ++ P').Perm (t ++ P)) (hrun : ∀ n ∈ t', s'.fd n < 0) (hpark : ∀ n ∈ P', 0 ≤ s'.fd n) :
    Orderly s' t' P' := by
  have hall : (s'.tasks :: t' ++ P').Perm (s.tasks :: t ++ P) := by
    rw [hregs.tasks]
    exact hperm.cons _
  refine ⟨hlaid, hrun, hpark, ?_, fun n hn => ?_⟩
  · rw [hregs.task]
    exact (hall.map _).nodup_iff.mpr h.pids
  · rw [hregs.task, hregs.serial]
    exact h.minted n (hall.mem_iff.mp hn)

theorem Laid.not_mem_park (h : Laid s t P) (hn : n ∈ t) : n ∉ P := fun hp =>
  h.not_mem_run hp (List.mem_cons_of_mem _ hn)

theorem Orderly.wake (h : Orderly s t (a :: P)) :
    Orderly (s.woken t a) (t ++ [s.next a]) ((a :: P).erase (s.next a)) := by
  have hwake := h.laid.wake
  have hmem : s.next a ∈ a :: P := (h.laid.parked_ring List.mem_cons_self).next_mem List.mem_cons_self
  have hnd := (h.laid.parked_ring List.mem_cons_self).nodup
  refine h.same hwake.laid hwake.same hwake.perm (fun n hn => ?_) fun n hn => ?_
  · rw [woken_fd]
    obtain hn | hn := List.mem_append.mp hn
    · rw [Function.update_of_ne (ne_of_mem_of_not_mem hmem (h.laid.not_mem_park hn)).symm]
      exact h.run n hn
    · rw [List.mem_singleton.mp hn, Function.update_self]
      decide
  · obtain ⟨hne, hn⟩ := (hnd.mem_erase_iff).mp hn
    rw [woken_fd, Function.update_of_ne hne]
    exact h.park n hn

/-- A wake moves a task that is due, and a held one is not. -/
theorem Drifted.steady (s₀ : Sched) (t₀ P₀ : List ℕ) : Steady fun s t P => Drifted s₀ t₀ P₀ s t P := by
  refine fun w now polled ask look => ⟨fun h => h.orderly.laid, fun h hQ hperm => ?_, fun {s t P a} h hokay => ?_⟩
  · refine ⟨h.orderly.perm hQ hperm, h.regs, fun b hb hheld => ?_⟩
    have hrest := h.rests b hb hheld
    exact ⟨hrest.task, hrest.fd, hrest.run, fun hp => hperm.symm.subset (hrest.park hp)⟩
  · simp only [Sched.parkedReady, Bool.and_eq_true] at hokay
    have hdue : (s.task (s.next a)).held = false := Node.not_held_of_due hokay.1.2
    refine ⟨h.orderly.wake, h.regs.trans h.orderly.laid.wake.same, fun b hb hheld => ?_⟩
    have hrest := h.rests b hb hheld
    have hne : b ≠ s.next a := by
      rintro rfl
      rw [(hrest.held hheld).1] at hdue
      cases hdue
    refine ⟨?_, ?_, fun ht => List.mem_append_left _ (hrest.run ht), fun hp => ?_⟩
    · rw [← hrest.task, ← h.orderly.laid.wake.same.task]
      rfl
    · rw [woken_fd, Function.update_of_ne hne, hrest.fd]
    · exact (List.mem_erase_of_ne hne).mpr (hrest.park hp)

theorem Orderly.congr (h : Orderly s t P) (hnode : s'.node = s.node) (htasks : s'.tasks = s.tasks)
    (hparked : s'.parked = s.parked) (hhp : s'.hp = s.hp) (hserial : s'.nextSerial = s.nextSerial) :
    Orderly s' t P := by
  have hfd : s'.fd = s.fd := by
    funext c
    rw [Sched.fd, hnode]
    rfl
  have htask : s'.task = s.task := by
    funext c
    rw [Sched.task, hnode]
    rfl
  have hnext : s'.next = s.next := by
    funext c
    rw [Sched.next, hnode]
    rfl
  refine ⟨h.laid.congr hnext htasks hparked hhp, hfd ▸ h.run, hfd ▸ h.park, ?_, ?_⟩
  · rw [htasks, htask]
    exact h.pids
  · rw [htasks, htask, hserial]
    exact h.minted

theorem rests_of_node (h : s'.node = s.node) (a : ℕ) : Rests s t P s' t P a where
  task := by rw [Sched.task, h]; rfl
  fd := by rw [Sched.fd, h]; rfl
  run := id
  park := id

theorem Drifted.lasting (s : Sched) (t P : List ℕ) : Lasting s fun s' t' P' => Drifted s t P s' t' P' where
  steady := Drifted.steady s t P
  regs h hnode hregs hparked := ⟨h.orderly.congr hnode hregs.tasks hparked hregs.hp hregs.serial,
    h.regs.trans hregs, fun a ha hheld => (h.rests a ha hheld).trans (rests_of_node hnode a)⟩
  fd h := h.regs.waitFd

/-! ## The switch -/

/-- The fresh node takes the running task's pid, and the rest is as it was. -/
theorem Orderly.of_switched {nx myWake : ℕ} {myFd myEvents : ℤ} (h : Orderly s t P) (y : Build)
    (hlaid : Laid (s.switchTo y nx myWake myFd myEvents) t' P')
    (hperm : (nx :: t' ++ P').Perm (s.hp :: (t ++ P)))
    (hrun : ∀ n ∈ t', n ∈ t ∨ n = s.hp ∧ myFd < 0) (hpark : ∀ n ∈ P', n ∈ P ∨ n = s.hp ∧ ¬myFd < 0) :
    Orderly (s.switchTo y nx myWake myFd myEvents) t' P' := by
  have hsw := switchTo_switched s y nx myWake myFd myEvents
  have hfree := h.laid.hp_not_mem
  have hfd : ∀ n ∈ t ++ P, (s.switchTo y nx myWake myFd myEvents).fd n = s.fd n := by
    intro n hn
    rw [switchTo_fd, Function.update_of_ne (ne_of_mem_of_not_mem (List.mem_cons_of_mem _ hn) hfree)]
  have hnew : (s.switchTo y nx myWake myFd myEvents).fd s.hp = myFd := by
    rw [switchTo_fd, Function.update_self]
  have hold : ∀ n ∈ t ++ P, (s.switchTo y nx myWake myFd myEvents).task n = s.task n := by
    intro n hn
    rw [hsw.task, Function.update_of_ne (ne_of_mem_of_not_mem (List.mem_cons_of_mem _ hn) hfree)]
  have hpid : ((s.switchTo y nx myWake myFd myEvents).task s.hp).pid = (s.task s.tasks).pid := by
    rw [hsw.task, Function.update_self]
    rfl
  refine ⟨hlaid, fun n hn => ?_, fun n hn => ?_, ?_, ?_⟩
  · rcases hrun n hn with hn | ⟨rfl, hneg⟩
    · rw [hfd n (List.mem_append_left _ hn)]
      exact h.run n hn
    · rwa [hnew]
  · rcases hpark n hn with hn | ⟨rfl, hpos⟩
    · rw [hfd n (List.mem_append_right _ hn)]
      exact h.park n hn
    · rw [hnew]
      exact Int.not_lt.mp hpos
  · rw [hsw.tasks, (hperm.map _).nodup_iff, List.map_cons, hpid, List.map_congr_left fun n hn =>
      congrArg Node.pid (hold n hn)]
    exact h.pids
  · rw [hsw.tasks, hsw.serial]
    intro n hn
    rcases List.mem_cons.mp (hperm.mem_iff.mp hn) with rfl | hn
    · rw [hpid]
      exact h.minted _ List.mem_cons_self
    · rw [hold n hn]
      exact h.minted n (List.mem_cons_of_mem _ hn)

theorem Orderly.switchTo {nx : ℕ} (h : Orderly s t P) (hnx : nx ∈ t) (y : Build) (myWake : ℕ)
    (myFd myEvents : ℤ) :
    ∃ t' P', Orderly (s.switchTo y nx myWake myFd myEvents) t' P' ∧ ∀ a ∈ t ++ P, a ≠ nx →
      Rests s t P (s.switchTo y nx myWake myFd myEvents) t' P' a := by
  obtain ⟨t₁, t₂, rfl⟩ := List.append_of_mem hnx
  have hsw := switchTo_switched s y nx myWake myFd myEvents
  have hfree := h.laid.hp_not_mem
  have hne : ∀ a ∈ t₁ ++ nx :: t₂ ++ P, a ≠ s.hp := fun a ha =>
    ne_of_mem_of_not_mem (List.mem_cons_of_mem _ ha) hfree
  have htask : ∀ a ∈ t₁ ++ nx :: t₂ ++ P, (s.switchTo y nx myWake myFd myEvents).task a = s.task a := by
    intro a ha
    rw [hsw.task, Function.update_of_ne (hne a ha)]
  have hfda : ∀ a ∈ t₁ ++ nx :: t₂ ++ P, (s.switchTo y nx myWake myFd myEvents).fd a = s.fd a := by
    intro a ha
    rw [switchTo_fd, Function.update_of_ne (hne a ha)]
  have hmem : ∀ a ∈ t₁ ++ nx :: t₂, a ≠ nx → a ∈ t₂ ++ t₁ := by
    intro a ha hanx
    simp only [List.mem_append, List.mem_cons] at ha ⊢
    tauto
  by_cases hfd : myFd < 0
  · have hrun : ∀ a ∈ t₂ ++ t₁, a ∈ t₂ ++ s.hp :: t₁ := by
      intro a ha
      simp only [List.mem_append, List.mem_cons] at ha ⊢
      tauto
    refine ⟨_, P, h.of_switched y (h.laid.switchTo_run y myWake myEvents hfd) ?_ (fun n hn => ?_)
      (fun n hn => .inl hn), fun a ha hanx => ⟨htask a ha, hfda a ha, fun hr => hrun a (hmem a hr hanx), id⟩⟩
    · refine List.perm_iff_count.mpr fun m => ?_
      simp only [List.count_append, List.count_cons]
      omega
    · simp only [List.mem_append, List.mem_cons] at hn ⊢
      tauto
  · obtain ⟨P', hlaid, hperm⟩ := h.laid.switchTo_park y myWake myEvents hfd
    refine ⟨_, P', h.of_switched y hlaid ?_ (fun n hn => ?_) (fun n hn => ?_), fun a ha hanx =>
      ⟨htask a ha, hfda a ha, fun hr => hmem a hr hanx, fun hp => hperm.symm.subset (List.mem_cons_of_mem _ hp)⟩⟩
    · have hcount := List.perm_iff_count.mp hperm
      refine List.perm_iff_count.mpr fun m => ?_
      have := hcount m
      simp only [List.count_append, List.count_cons] at this ⊢
      omega
    · simp only [List.mem_append, List.mem_cons] at hn ⊢
      tauto
    · rcases List.mem_cons.mp (hperm.mem_iff.mp hn) with heq | hn
      · exact .inr ⟨heq, hfd⟩
      · exact .inl hn

/-! ## Yields -/

/-- What a yield leaves: orderly rings, every held task at rest, and a task at its turn that is not
held. -/
structure Passed (s : Sched) (t P : List ℕ) (r : Sched × Outcome) (t' P' : List ℕ) : Prop where
  orderly : Orderly r.1 t' P'
  rests : ∀ a ∈ t ++ P, s.heldTask a → Rests s t P r.1 t' P' a
  chosen : r.2 = .switched → (r.1.node r.1.tasks).held = false

theorem Drifted.passed (h : Drifted s t P s' t' P') {o : Outcome} (ho : o ≠ .switched) :
    Passed s t P (s', o) t' P' :=
  ⟨h.orderly, h.rests, fun hsw => absurd hsw ho⟩

theorem Drifted.registers (h : Drifted s t P s' t' P') (s'' : Sched) (hnode : s''.node = s'.node)
    (htasks : s''.tasks = s'.tasks) (hparked : s''.parked = s'.parked) (hhp : s''.hp = s'.hp)
    (hserial : s''.nextSerial = s'.nextSerial) {o : Outcome} (ho : o ≠ .switched) :
    Passed s t P (s'', o) t' P' :=
  ⟨h.orderly.congr hnode htasks hparked hhp hserial,
    fun a ha hheld => (h.rests a ha hheld).trans (rests_of_node hnode a), fun hsw => absurd hsw ho⟩

theorem Drifted.raise (h : Drifted s t P s' t' P') : Passed s t P s'.raise t' P' := by
  rw [Sched.raise]
  split_ifs
  · exact h.passed (by rintro ⟨⟩)
  · exact h.registers { s' with ip := ⟨.code, 0⟩, sp := (s'.node s'.tasks).help :: s'.sp } rfl rfl rfl rfl rfl (by rintro ⟨⟩)

theorem Drifted.switched {nx : ℕ} (h : Drifted s t P s' t' P') (hnx : Peer s' t' nx) (y : Build)
    (myWake : ℕ) (myFd myEvents : ℤ) :
    ∃ t'' P'', Passed s t P (s'.switchTo y nx myWake myFd myEvents, .switched) t'' P'' := by
  obtain ⟨t'', P'', horderly, hrests⟩ := h.orderly.switchTo hnx.mem y myWake myFd myEvents
  have hsw := switchTo_switched s' y nx myWake myFd myEvents
  refine ⟨t'', P'', horderly, fun a ha hheld => ?_, fun _ => ?_⟩
  · have hrest := h.rests a ha hheld
    refine hrest.trans (hrests a (hrest.mem ha) ?_)
    rintro rfl
    have hunheld : (s'.task a).held = false := hnx.unheld
    rw [(hrest.held hheld).1] at hunheld
    cases hunheld
  · have hne : nx ≠ s'.hp := ne_of_mem_of_not_mem
      (List.mem_append_left _ (List.mem_cons_of_mem _ hnx.mem)) h.orderly.laid.hp_not_mem
    change ((s'.switchTo y nx myWake myFd myEvents).task _).held = false
    rw [hsw.tasks, hsw.task, Function.update_of_ne hne]
    exact hnx.unheld

theorem Orderly.lvmYieldSw (h : Orderly s t P) (y : Build) (w : Weather) :
    ∃ t' P', Passed s t P (s.lvmYieldSw y w) t' P' := by
  have hyield := (Drifted.lasting s t P).lvmYieldSw h.drifted y w
  generalize s.lvmYieldSw y w = r at hyield ⊢
  cases hyield with
  | @stayed s' _ _ h => exact ⟨_, _, h.registers s' rfl rfl rfl rfl rfl nofun⟩
  | raised h => exact ⟨_, _, h.raise⟩
  | switched h hnx => exact h.switched hnx y _ _ _

end LoveRuntime.Tasks

/-! A scare raised with room to leave is a deadlock: no time and no fd makes any task runnable but
a held one. -/

namespace LoveRuntime.Tasks

open Rings

variable {s s' : Sched} {t P : List ℕ} {a : ℕ} {y : Build} {w : Weather}

/-- At no time, and whatever the fds answer, does a task of the run ring become runnable; those of
the parked ring are held, and the running task waits on nothing. -/
structure Deadlocked (y : Build) (meLive : Bool) (s : Sched) (t P : List ℕ) : Prop where
  run : ∀ a ∈ t, ∀ w now look, s.runnable y w now meLive look a = false
  park : ∀ a ∈ P, (s.node a).held = true
  clock : s.nextWakeAt = 0
  fd : s.nextWaitFd < 0

def Outcome.scared : Outcome → Bool
  | .raised => true
  | .stopped => true
  | _ => false

/-! ## What finds nothing to wake changes nothing -/

theorem Laid.sleepers (h : Laid s t P) : cells s.next s.tasks s.hp (s.next s.tasks) = t :=
  cells_spec h.run.path h.tasks_not_mem h.length_run

theorem Laid.parkedCells (h : Laid s t P) : s.parkedCells.Perm P := by
  rw [Sched.parkedCells]
  cases hc : s.parked with
  | none =>
      rcases h.park with ⟨rfl, -⟩ | ⟨-, c, -, hsome⟩
      · exact .refl _
      · rw [hsome] at hc
        cases hc
  | some c =>
      obtain ⟨Q, hQ, hperm⟩ := h.rotate (h.mem_of_parked hc)
      have hring := hQ.parked_ring List.mem_cons_self
      have hlen := hQ.length_park
      rw [List.length_cons] at hlen
      dsimp only
      rw [cells_spec hring.path (List.nodup_cons.mp hring.nodup).1 (Nat.lt_of_succ_lt hlen)]
      exact hperm

/-- A scare leaves orderly rings in deadlock. -/
def Scares (y : Build) (meLive : Bool) (r : Sched × Outcome) : Prop :=
  r.2.scared = true → ∃ t P, Orderly r.1 t P ∧ Deadlocked y meLive r.1 t P

theorem Scares.of_not {meLive : Bool} {r : Sched × Outcome} (h : r.2.scared = false) : Scares y meLive r := by
  intro hscared
  rw [h] at hscared
  cases hscared

theorem Deadlocked.congr {meLive : Bool} (h : Deadlocked y meLive s t P) (hnode : s'.node = s.node)
    (htasks : s'.tasks = s.tasks) (hparked : s'.parked = s.parked) (hhp : s'.hp = s.hp)
    (hclock : s'.nextWakeAt = s.nextWakeAt) (hfd : s'.nextWaitFd = s.nextWaitFd) :
    Deadlocked y meLive s' t P := by
  have hrun : ∀ w now look a, s'.runnable y w now meLive look a = s.runnable y w now meLive look a := by
    intro w now look a
    have hlive : ∀ pid, s'.taskLive pid meLive = s.taskLive pid meLive := by
      intro pid
      have hnext : s'.next = s.next := by
        funext a
        rw [Sched.next, hnode]
        rfl
      have hpid : s'.pidIs pid = s.pidIs pid := by
        funext a
        rw [Sched.pidIs, hnode]
        rfl
      rw [Sched.taskLive, Sched.taskLive, Sched.runFind, Sched.runFind, Sched.parkedFind, Sched.parkedFind,
        hnext, hpid, htasks, hhp, hnode, hparked]
    rw [Sched.runnable, Sched.runnable, hnode, hlive]
  refine ⟨fun a ha w now look => (hrun w now look a).trans (h.run a ha w now look), ?_, hclock.trans h.clock,
    hfd.symm ▸ h.fd⟩
  rw [hnode]
  exact h.park

theorem Deadlocked.raise {meLive : Bool} (h : Orderly s t P) (hd : Deadlocked y meLive s t P) :
    Scares y meLive s.raise := by
  intro _
  rw [Sched.raise]
  split_ifs
  · exact ⟨t, P, h, hd⟩
  · exact ⟨t, P, h.congr rfl rfl rfl rfl rfl, hd.congr rfl rfl rfl rfl rfl rfl⟩

/-- Alone, the running task waits on nothing. -/
theorem Orderly.yieldSwMono (h : Orderly s t P) (halone : s.next s.tasks = s.tasks ∧ s.parked = none)
    (meLive : Bool) : Scares y meLive s.yieldSwMono := by
  rw [Sched.yieldSwMono]
  split_ifs with hidle
  · have ht : t = [] := by
      cases t with
      | nil => rfl
      | cons x t =>
          have hx : s.next s.tasks = x := h.laid.run.path.1
          exact absurd (by rw [← hx, halone.1]; exact List.mem_cons_self) h.laid.tasks_not_mem
    have hP : P = [] := by
      rcases h.laid.park with ⟨hnil, -⟩ | ⟨-, c, -, hsome⟩
      · exact hnil
      · rw [halone.2] at hsome
        cases hsome
    subst ht hP
    exact Deadlocked.raise h ⟨by simp, by simp, hidle.1, hidle.2.1⟩
  · exact .of_not rfl

end LoveRuntime.Tasks
