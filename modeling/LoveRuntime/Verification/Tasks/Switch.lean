import LoveRuntime.Verification.Tasks.Wakes

/-! The switch: the running task's node is written anew, in its old one's place on the run ring
or onto the parked ring, and the ring is seen from the next task. -/

namespace LoveRuntime.Tasks

open Rings

variable {s s' : Sched} {t₁ t₂ P : List ℕ} {nx : ℕ}

/-- The node that the switch writes for the running task, but for its link and its fd. -/
def Sched.left (s : Sched) (y : Build) (myWake : ℕ) (myEvents : ℤ) : Node :=
  { s.node s.tasks with
    next := 0, ip := s.ip, wakeAt := y.putcharm myWake, waitFd := 0, events := myEvents, stack := s.sp }

/-- What a switch leaves beside the links. -/
structure Switched (s s' : Sched) (nx : ℕ) (n : Node) : Prop where
  tasks : s'.tasks = nx
  hp : s'.hp = s.hp + 1
  serial : s'.nextSerial = s.nextSerial
  waitFd : s'.nextWaitFd = -1
  task : s'.task = Function.update s.task s.hp n

section Switch

variable (s) (y : Build) (nx myWake : ℕ) (myFd myEvents : ℤ)

/-- Whatever is linked behind the snapshot. -/
theorem snapshot_switched {next : ℕ} (h : SameRegs (s.snapshot y next myWake myFd myEvents) s') :
    Switched s (s'.run nx) nx (s.left y myWake myEvents) where
  tasks := rfl
  hp := h.hp
  serial := h.serial
  waitFd := h.waitFd
  task := h.task.trans (s.clearWait.task_write s.hp _)

theorem snapshot_next (next : ℕ) : (s.snapshot y next myWake myFd myEvents).next = Function.update s.next s.hp next :=
  s.clearWait.next_write s.hp _

theorem switchTo_switched : Switched s (s.switchTo y nx myWake myFd myEvents) nx (s.left y myWake myEvents) := by
  rw [Sched.switchTo]
  dsimp only
  split_ifs
  · exact snapshot_switched s y nx myWake myFd myEvents (SameRegs.link _ _ _)
  · cases s.parked with
    | none =>
        dsimp only
        have hlink := SameRegs.link (s.snapshot y s.hp myWake myFd myEvents)
          (before s.next s.tasks s.hp nx) (s.next s.tasks)
        exact snapshot_switched s y nx myWake myFd myEvents
          (hlink.trans ⟨rfl, rfl, rfl, rfl, rfl, rfl, rfl⟩)
    | some c =>
        dsimp only
        exact snapshot_switched s y nx myWake myFd myEvents
          ((SameRegs.link _ _ _).trans (SameRegs.link _ _ _))

theorem switchTo_next_run (hfd : myFd < 0) :
    (s.switchTo y nx myWake myFd myEvents).next =
      Function.update (Function.update s.next s.hp (s.next s.tasks)) (before s.next s.tasks s.hp nx) s.hp := by
  rw [Sched.switchTo]
  dsimp only
  rw [if_pos hfd, ← snapshot_next s y myWake myFd myEvents]
  exact Sched.next_link _ _ _

theorem switchTo_next_alone (hfd : ¬myFd < 0) (hnone : s.parked = none) :
    (s.switchTo y nx myWake myFd myEvents).next =
      Function.update (Function.update s.next s.hp s.hp) (before s.next s.tasks s.hp nx) (s.next s.tasks) := by
  rw [Sched.switchTo, hnone]
  dsimp only
  rw [if_neg hfd, ← snapshot_next s y myWake myFd myEvents]
  exact Sched.next_link _ _ _

theorem switchTo_next_park (hfd : ¬myFd < 0) {c : ℕ} (hc : s.parked = some c) :
    (s.switchTo y nx myWake myFd myEvents).next =
      Function.update (Function.update (Function.update s.next s.hp (s.next c))
        (before s.next s.tasks s.hp nx) (s.next s.tasks)) c s.hp := by
  rw [Sched.switchTo, hc]
  dsimp only
  rw [if_neg hfd, ← snapshot_next s y myWake myFd myEvents, ← Sched.next_link]
  exact Sched.next_link _ _ _

end Switch

namespace Laid

theorem before_next (h : Laid s (t₁ ++ nx :: t₂) P) :
    before s.next s.tasks s.hp nx = (nx :: t₂).getLast (by simp) := by
  have hpath := (path_append.mp h.run.path).2
  have hmem := h.tasks_not_mem
  have hlen := h.length_run
  rw [List.mem_append, List.mem_cons, not_or, not_or] at hmem
  rw [List.length_append, List.length_cons] at hlen
  exact before_spec hpath hmem.2.2 (by omega)

theorem hp_not_mem {t : List ℕ} (h : Laid s t P) : s.hp ∉ s.tasks :: t ++ P := fun hmem =>
  Nat.lt_irrefl _ (h.below _ hmem)

/-- The run ring seen from the next task, cut behind the last one before the running task. -/
theorem run_from (h : Laid s (t₁ ++ nx :: t₂) P) :
    Ring s.next ((nx :: t₂).dropLast ++ (nx :: t₂).getLast (by simp) :: s.tasks :: t₁) := by
  have hring : Ring s.next (s.tasks :: t₁ ++ nx :: t₂) := h.run
  rw [List.append_cons, List.dropLast_append_getLast]
  exact hring.comm

/-- The nodes after a switch are those before it with the fresh one for the running task's. -/
theorem of_switched {t' P' : List ℕ} {n : Node} (h : Laid s (t₁ ++ nx :: t₂) P) (hsw : Switched s s' nx n)
    (hrun : Ring s'.next (nx :: t')) (hpark : Parked s' P')
    (hperm : (nx :: t' ++ P').Perm (s.hp :: (t₁ ++ nx :: t₂ ++ P))) : Laid s' t' P' := by
  have hnd := h.nodup
  have hfree := h.hp_not_mem
  rw [List.cons_append, List.nodup_cons] at hnd
  rw [List.cons_append, List.mem_cons, not_or] at hfree
  refine ⟨hsw.tasks ▸ hrun, hpark, ?_, ?_⟩
  · rw [hsw.tasks]
    exact hperm.nodup_iff.mpr (List.nodup_cons.mpr ⟨hfree.2, hnd.2⟩)
  · rw [hsw.tasks, hsw.hp]
    intro m hm
    rcases List.mem_cons.mp (hperm.mem_iff.mp hm) with rfl | hm
    · exact Nat.lt_succ_self _
    · exact Nat.lt_succ_of_lt (h.below m (List.mem_cons_of_mem _ hm))

variable (h : Laid s (t₁ ++ nx :: t₂) P) (y : Build) (myWake : ℕ) {myFd : ℤ} (myEvents : ℤ)
include h

/-- A task that yields stays on its ring. -/
theorem switchTo_run (hfd : myFd < 0) :
    Laid (s.switchTo y nx myWake myFd myEvents) (t₂ ++ s.hp :: t₁) P := by
  have hnext := switchTo_next_run s y nx myWake myFd myEvents hfd
  rw [h.before_next] at hnext
  have hfree := h.hp_not_mem
  have hlast : (nx :: t₂).getLast (by simp) ∈ s.tasks :: (t₁ ++ nx :: t₂) :=
    List.mem_cons_of_mem _ (List.mem_append_right _ (List.getLast_mem _))
  have hring := h.run_from.replace (n := s.hp) (by
    rw [List.append_cons, List.dropLast_append_getLast]
    simp only [List.mem_append, List.mem_cons] at hfree ⊢
    tauto)
  rw [← hnext, List.append_cons, List.dropLast_append_getLast] at hring
  have hpark : ∀ m ∈ P, (s.switchTo y nx myWake myFd myEvents).next m = s.next m := by
    intro m hm
    rw [hnext, Function.update_of_ne (ne_of_mem_of_not_mem hlast (h.not_mem_run hm)).symm,
      Function.update_of_ne (ne_of_mem_of_not_mem (List.mem_append_right _ hm) hfree)]
  have hparked : (s.switchTo y nx myWake myFd myEvents).parked = s.parked := by
    rw [Sched.switchTo]
    dsimp only
    rw [if_pos hfd]
    rfl
  refine h.of_switched (switchTo_switched s y nx myWake myFd myEvents) hring ?_ ?_
  · rcases h.park with ⟨hnil, hnone⟩ | ⟨hring, hsome⟩
    · exact .inl ⟨hnil, hparked.trans hnone⟩
    · exact .inr ⟨hring.congr hpark, hparked ▸ hsome⟩
  · refine List.perm_iff_count.mpr fun m => ?_
    simp only [List.count_append, List.count_cons]
    omega

/-- One that waits on a port goes over to the parked ring. -/
theorem switchTo_park (hfd : ¬myFd < 0) :
    ∃ P', Laid (s.switchTo y nx myWake myFd myEvents) (t₂ ++ t₁) P' ∧ P'.Perm (s.hp :: P) := by
  have hsw := switchTo_switched s y nx myWake myFd myEvents
  have hfree := h.hp_not_mem
  have hlast : (nx :: t₂).getLast (by simp) ∈ s.tasks :: (t₁ ++ nx :: t₂) :=
    List.mem_cons_of_mem _ (List.mem_append_right _ (List.getLast_mem _))
  have hlasthp : (nx :: t₂).getLast (by simp) ≠ s.hp :=
    ne_of_mem_of_not_mem (List.mem_append_left _ hlast) hfree
  have hring := h.run_from.erase
  rw [List.append_cons, List.dropLast_append_getLast] at hring
  have hmem : ∀ m ∈ nx :: t₂ ++ t₁, m ∈ s.tasks :: (t₁ ++ nx :: t₂) := by
    intro m hm
    simp only [List.mem_append, List.mem_cons] at hm ⊢
    tauto
  have hnew : ∀ m ∈ nx :: t₂ ++ t₁, m ≠ s.hp := fun m hm =>
    ne_of_mem_of_not_mem (List.mem_append_left _ (hmem m hm)) hfree
  -- the run ring closes over the running task, whatever the other ring does to its own cells
  cases hc : s.parked with
  | none =>
      obtain ⟨rfl, -⟩ : P = [] ∧ s.parked = none := by
        rcases h.park with hnil | ⟨-, c, -, hsome⟩
        · exact hnil
        · rw [hsome] at hc
          cases hc
      have hnext := switchTo_next_alone s y nx myWake myFd myEvents hfd hc
      rw [h.before_next] at hnext
      have hrun : Ring (s.switchTo y nx myWake myFd myEvents).next (nx :: t₂ ++ t₁) := by
        rw [hnext, Function.update_comm (Ne.symm hlasthp)]
        exact hring.congr fun m hm => Function.update_of_ne (hnew m hm) _ _
      have hpark : Ring (s.switchTo y nx myWake myFd myEvents).next [s.hp] := by
        refine ⟨?_, List.nodup_singleton _⟩
        rw [hnext]
        exact (Function.update_of_ne (Ne.symm hlasthp) _ _).trans (Function.update_self _ _ _)
      have hparked : (s.switchTo y nx myWake myFd myEvents).parked = some s.hp := by
        rw [Sched.switchTo, hc]
        dsimp only
        rw [if_neg hfd]
        rfl
      refine ⟨[s.hp], h.of_switched hsw hrun (.inr ⟨hpark, _, List.mem_cons_self, hparked⟩) ?_, .refl _⟩
      refine List.perm_iff_count.mpr fun m => ?_
      simp only [List.count_append, List.count_cons]
      omega
  | some c =>
      obtain ⟨Q, hQ, hperm⟩ := h.rotate (h.mem_of_parked hc)
      have hnext := switchTo_next_park s y nx myWake myFd myEvents hfd hc
      rw [h.before_next] at hnext
      have hcP : c ∈ P := h.mem_of_parked hc
      have hchp : c ≠ s.hp := ne_of_mem_of_not_mem (List.mem_append_right _ hcP) hfree
      have hclast : c ≠ (nx :: t₂).getLast (by simp) :=
        (ne_of_mem_of_not_mem hlast (h.not_mem_run hcP)).symm
      have hrun : Ring (s.switchTo y nx myWake myFd myEvents).next (nx :: t₂ ++ t₁) := by
        rw [hnext, Function.update_comm (Ne.symm hlasthp)]
        refine hring.congr fun m hm => ?_
        rw [Function.update_of_ne (ne_of_mem_of_not_mem (hmem m hm) (h.not_mem_run hcP)),
          Function.update_of_ne (hnew m hm)]
      have hpark : Ring (s.switchTo y nx myWake myFd myEvents).next (c :: s.hp :: Q) := by
        have hins := (hQ.parked_ring List.mem_cons_self).insert (n := s.hp) fun hmem =>
          hfree (List.mem_append_right _ (hperm.mem_iff.mp hmem))
        rw [hnext, Function.update_comm hclast.symm]
        refine hins.congr fun m hm => Function.update_of_ne ?_ _ _
        rcases List.mem_cons.mp hm with rfl | hm
        · exact hclast
        · rcases List.mem_cons.mp hm with rfl | hm
          · exact Ne.symm hlasthp
          · exact (ne_of_mem_of_not_mem hlast (hQ.not_mem_run (List.mem_cons_of_mem c hm))).symm
      have hparked : (s.switchTo y nx myWake myFd myEvents).parked = some c := by
        rw [Sched.switchTo, hc]
        dsimp only
        rw [if_neg hfd]
        exact hc
      refine ⟨c :: s.hp :: Q, h.of_switched hsw hrun (.inr ⟨hpark, c, List.mem_cons_self, hparked⟩) ?_, ?_⟩
      · have hcount := List.perm_iff_count.mp hperm
        refine List.perm_iff_count.mpr fun m => ?_
        have := hcount m
        simp only [List.count_append, List.count_cons] at this ⊢
        omega
      · exact (List.Perm.swap s.hp c Q).trans (hperm.cons s.hp)

/-- Either way no node is lost, and only a task that waits on a port is parked. -/
theorem switchTo (myFd : ℤ) :
    ∃ t' P', Laid (s.switchTo y nx myWake myFd myEvents) t' P' ∧
      (nx :: t' ++ P').Perm (s.hp :: (t₁ ++ nx :: t₂ ++ P)) ∧
      ∀ n ∈ P', n ∈ P ∨ n = s.hp ∧ ¬myFd < 0 := by
  by_cases hfd : myFd < 0
  · refine ⟨_, _, h.switchTo_run y myWake myEvents hfd, ?_, fun n hn => .inl hn⟩
    refine List.perm_iff_count.mpr fun m => ?_
    simp only [List.count_append, List.count_cons]
    omega
  · obtain ⟨P', hlaid, hperm⟩ := h.switchTo_park y myWake myEvents hfd
    refine ⟨_, P', hlaid, ?_, fun n hn => ?_⟩
    · have hcount := List.perm_iff_count.mp hperm
      refine List.perm_iff_count.mpr fun m => ?_
      have := hcount m
      simp only [List.count_append, List.count_cons] at this ⊢
      omega
    · rcases List.mem_cons.mp (hperm.mem_iff.mp hn) with heq | hn
      · exact .inr ⟨heq, hfd⟩
      · exact .inl hn

end Laid

end LoveRuntime.Tasks

/-! What a yield comes to: the running task keeps its turn, scares its help, or gives way. -/

namespace LoveRuntime.Tasks

open Rings

variable {s s' : Sched} {t P : List ℕ}

/-- The ways a yield ends, as far as `Φ` tells of the rings. The nodes it has woken stay woken; a
scare leaves the fd that the task would have waited on. -/
inductive YieldsTo (y : Build) (s : Sched) (Φ : Sched → List ℕ → List ℕ → Prop) :
    Sched × Outcome → Prop where
  | stayed {s' : Sched} {t' P' : List ℕ} (h : Φ { s' with nextWaitFd := s.nextWaitFd } t' P') :
      YieldsTo y s Φ (s', .stayed)
  | raised {s' : Sched} {t' P' : List ℕ} (h : Φ s' t' P') : YieldsTo y s Φ s'.raise
  | switched {s' : Sched} {t' P' : List ℕ} {nx : ℕ} (h : Φ s' t' P') (hnx : Peer s' t' nx) :
      YieldsTo y s Φ (s'.switchTo y nx s.nextWakeAt s.nextWaitFd s.nextWaitEvents, .switched)

/-- One that holds on through a yield up to its switch: beside the wakes, only registers change. -/
structure Lasting (s₀ : Sched) (Φ : Sched → List ℕ → List ℕ → Prop) : Prop where
  steady : Steady Φ
  regs : ∀ {s s' t P}, Φ s t P → s'.node = s.node → SameRegs s s' → s'.parked = s.parked → Φ s' t P
  fd : ∀ {s t P}, Φ s t P → s.nextWaitFd = s₀.nextWaitFd

namespace Lasting

variable {s₀ : Sched} {Φ : Sched → List ℕ → List ℕ → Prop} (hΦ : Lasting s Φ) (h : Φ s t P)
include hΦ h

theorem yieldSwMono (y : Build) : YieldsTo y s Φ s.yieldSwMono := by
  rw [Sched.yieldSwMono]
  split_ifs
  · exact .raised h
  · exact .stayed (hΦ.regs h rfl ⟨rfl, rfl, rfl, rfl, rfl, rfl, rfl⟩ rfl)

theorem fairSweep (w : Weather) (fair : Bool) : ∃ t' P', Φ (s.fairSweep w fair) t' P' := by
  rw [Sched.fairSweep]
  dsimp only
  split_ifs
  · exact ⟨t, P, hΦ.regs h rfl ⟨rfl, rfl, rfl, rfl, rfl, rfl, rfl⟩ rfl⟩
  · have hticked : Φ { s with
        clockAt := w.clock 0, sweepCtr := 0, ticks := s.ticks + fair.toNat } t P :=
      hΦ.regs h rfl ⟨rfl, rfl, rfl, rfl, rfl, rfl, rfl⟩ rfl
    exact hΦ.steady.pollParked hticked w (w.clock 0)
  · exact ⟨t, P, hΦ.regs h rfl ⟨rfl, rfl, rfl, rfl, rfl, rfl, rfl⟩ rfl⟩
  · exact ⟨t, P, hΦ.regs h rfl ⟨rfl, rfl, rfl, rfl, rfl, rfl, rfl⟩ rfl⟩

omit hΦ h in
/-- A peer found is given the turn when there is room to leave. -/
theorem turn {s₁ : Sched} {t₁ P₁ : List ℕ} {nx : ℕ} (h : Φ s₁ t₁ P₁) (y : Build) (w : Weather)
    (hnx : Peer s₁ t₁ nx) :
    YieldsTo y s Φ (s₁.turn y w nx s.nextWakeAt s.nextWaitFd s.nextWaitEvents) := by
  rw [Sched.turn]
  split_ifs
  · exact .switched h hnx
  · exact .raised h

theorem lvmYieldSw (y : Build) (w : Weather) : YieldsTo y s Φ (s.lvmYieldSw y w) := by
  rw [Sched.lvmYieldSw]
  refine iteInduction (motive := YieldsTo y s Φ) (fun _ => hΦ.yieldSwMono h y) fun _ => ?_
  dsimp only
  generalize (decide (s.nextWakeAt = 0) && decide (s.nextWaitFd < 0) && !s.stays) = fair
  obtain ⟨t₁, P₁, h₁⟩ := hΦ.fairSweep h w fair
  revert h₁
  generalize s.fairSweep w fair = s₁
  intro h₁
  split
  next nx hnx => exact turn h₁ y w ((hΦ.steady.laid h₁).findRunnable_peer hnx)
  next =>
    refine iteInduction (motive := YieldsTo y s Φ) (fun _ => ?_) fun _ => ?_
    · refine .stayed (hΦ.regs h₁ rfl ⟨rfl, rfl, rfl, ?_, rfl, rfl, rfl⟩ rfl)
      exact (hΦ.fd h₁).symm
    · obtain ⟨t₂, P₂, h₂, hpeer⟩ := hΦ.steady.yieldSwWait h₁ y w s.nextWakeAt s.nextWaitFd
        s.nextWaitEvents (s.ip.ap != .exit)
      split
      next s₂ nx _ heq =>
        rw [heq] at h₂ hpeer
        exact turn h₂ y w (hpeer nx rfl)
      next s₂ stuck heq =>
        rw [heq] at h₂
        refine iteInduction (motive := YieldsTo y s Φ) (fun _ => .raised h₂) fun _ => ?_
        refine .stayed (hΦ.regs h₂ rfl ⟨rfl, rfl, rfl, ?_, rfl, rfl, rfl⟩ rfl)
        exact (hΦ.fd h₂).symm

end Lasting

/-- The ways a yield ends: some parked tasks have gone over to the run ring. -/
inductive Yields (y : Build) (s : Sched) (t P : List ℕ) : Sched × Outcome → Prop where
  | stayed {s' : Sched} {t' P' : List ℕ}
      (h : Moved s { s' with nextWaitFd := s.nextWaitFd } t P t' P') : Yields y s t P (s', .stayed)
  | raised {s' : Sched} {t' P' : List ℕ} (h : Moved s s' t P t' P') : Yields y s t P s'.raise
  | switched {s' : Sched} {t' P' : List ℕ} {nx : ℕ} (h : Moved s s' t P t' P') (hnx : nx ∈ t')
      (hruns : (s'.task nx).ip.ap ≠ .exit) :
      Yields y s t P
        (s'.switchTo y nx s.nextWakeAt s.nextWaitFd s.nextWaitEvents, .switched)

theorem Moved.of_same (h : Laid s t P) (hnode : s'.node = s.node) (hregs : SameRegs s s')
    (hparked : s'.parked = s.parked) : Moved s s' t P t P where
  laid := h.congr (by funext a; rw [Sched.next, hnode]; rfl) hregs.tasks hparked hregs.hp
  same := hregs
  perm := List.Perm.refl _
  sub := List.Subset.refl _

theorem Laid.lasting (s : Sched) (t P : List ℕ) : Lasting s fun s' t' P' => Moved s s' t P t' P' where
  steady := Laid.steady s t P
  regs h hnode hregs hparked := h.trans (.of_same h.laid hnode hregs hparked)
  fd h := h.same.waitFd

theorem Laid.lvmYieldSw (h : Laid s t P) (y : Build) (w : Weather) :
    Yields y s t P (s.lvmYieldSw y w) := by
  have hyield := (Laid.lasting s t P).lvmYieldSw (Moved.refl h) y w
  generalize s.lvmYieldSw y w = r at hyield ⊢
  cases hyield with
  | stayed h => exact .stayed h
  | raised h => exact .raised h
  | switched h hnx => exact .switched h hnx.mem hnx.runs

end LoveRuntime.Tasks
