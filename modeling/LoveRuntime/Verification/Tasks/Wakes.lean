import LoveRuntime.Model.Tasks
import Mathlib.Data.List.Perm.Lattice

/-! The two rings as lists of nodes, and what unlinking, splicing and waking make of them. -/

namespace LoveRuntime.Tasks

open Rings

variable {s s' : Sched} {t P : List ℕ} {a b n : ℕ}

/-! ## Links -/

theorem Sched.next_write (s : Sched) (a : ℕ) (n : Node) :
    (s.write a n).next = Function.update s.next a n.next := by
  funext c
  by_cases hc : c = a
  · subst hc
    simp [Sched.next, Sched.write]
  · simp [Sched.next, Sched.write, hc]

theorem Sched.next_link (s : Sched) (a b : ℕ) : (s.link a b).next = Function.update s.next a b :=
  s.next_write a { s.node a with next := b }

/-- A node but for its link and its fd. -/
def Node.task (n : Node) : Node := { n with next := 0, waitFd := 0 }

/-- What a task is but for its link and its fd. -/
def Sched.task (s : Sched) (a : ℕ) : Node := (s.node a).task

theorem Sched.task_write (s : Sched) (a : ℕ) (n : Node) :
    (s.write a n).task = Function.update s.task a n.task := by
  funext c
  by_cases hc : c = a
  · subst hc
    simp [Sched.task, Sched.write]
  · simp [Sched.task, Sched.write, hc]

/-- The registers of the machine that the rings do not touch. -/
structure SameRegs (s s' : Sched) : Prop where
  tasks : s'.tasks = s.tasks
  hp : s'.hp = s.hp
  serial : s'.nextSerial = s.nextSerial
  waitFd : s'.nextWaitFd = s.nextWaitFd
  ip : s'.ip = s.ip
  sp : s'.sp = s.sp
  task : s'.task = s.task

theorem SameRegs.refl (s : Sched) : SameRegs s s := ⟨rfl, rfl, rfl, rfl, rfl, rfl, rfl⟩

theorem SameRegs.trans {s s' s'' : Sched} (h : SameRegs s s') (h' : SameRegs s' s'') : SameRegs s s'' where
  tasks := h'.tasks.trans h.tasks
  hp := h'.hp.trans h.hp
  serial := h'.serial.trans h.serial
  waitFd := h'.waitFd.trans h.waitFd
  ip := h'.ip.trans h.ip
  sp := h'.sp.trans h.sp
  task := h'.task.trans h.task

theorem SameRegs.write (s : Sched) (a : ℕ) {n : Node} (h : n.task = s.task a) : SameRegs s (s.write a n) :=
  ⟨rfl, rfl, rfl, rfl, rfl, rfl, by rw [Sched.task_write, h, Function.update_eq_self]⟩

theorem SameRegs.link (s : Sched) (a b : ℕ) : SameRegs s (s.link a b) := SameRegs.write s a rfl

/-! ## The rings -/

/-- The parked ring, from any of its nodes. -/
def Parked (s : Sched) (P : List ℕ) : Prop :=
  (P = [] ∧ s.parked = none) ∨ (Ring s.next P ∧ ∃ h ∈ P, s.parked = some h)

/-- The run ring is the running task and `t`, the parked ring `P`; the free addresses lie past
both. -/
structure Laid (s : Sched) (t P : List ℕ) : Prop where
  run : Ring s.next (s.tasks :: t)
  park : Parked s P
  nodup : (s.tasks :: t ++ P).Nodup
  below : ∀ n ∈ s.tasks :: t ++ P, n < s.hp

namespace Laid

theorem not_mem_run (h : Laid s t P) (hn : n ∈ P) : n ∉ s.tasks :: t := fun hr =>
  (List.nodup_append.mp h.nodup).2.2 n hr n hn rfl

theorem tasks_not_mem (h : Laid s t P) : s.tasks ∉ t := (List.nodup_cons.mp h.run.nodup).1

/-- There are fewer nodes than addresses. -/
theorem length_le (h : Laid s t P) : (s.tasks :: t ++ P).length ≤ s.hp := by
  have hsub : s.tasks :: t ++ P ⊆ List.range s.hp := fun n hn => List.mem_range.mpr (h.below n hn)
  simpa using (List.subperm_of_subset h.nodup hsub).length_le

theorem length_run (h : Laid s t P) : t.length < s.hp := by
  have := h.length_le
  simp only [List.cons_append, List.length_cons, List.length_append] at this
  omega

theorem length_park (h : Laid s t P) : P.length < s.hp := by
  have := h.length_le
  simp only [List.cons_append, List.length_cons, List.length_append] at this
  omega

theorem parked_ring (h : Laid s t P) (hn : n ∈ P) : Ring s.next P := by
  rcases h.park with ⟨rfl, -⟩ | ⟨hring, -⟩
  · cases hn
  · exact hring

theorem parked_some (h : Laid s t P) (hn : n ∈ P) : ∃ c ∈ P, s.parked = some c := by
  rcases h.park with ⟨rfl, -⟩ | ⟨-, hc⟩
  · cases hn
  · exact hc

theorem mem_of_parked (h : Laid s t P) {c : ℕ} (hc : s.parked = some c) : c ∈ P := by
  rcases h.park with ⟨-, hnone⟩ | ⟨-, d, hd, hsome⟩
  · rw [hnone] at hc
    cases hc
  · rw [hsome] at hc
    exact Option.some.inj hc ▸ hd

/-- The parked ring from another of its nodes. -/
theorem rotate (h : Laid s t P) (hn : n ∈ P) : ∃ Q, Laid s t (n :: Q) ∧ (n :: Q).Perm P := by
  have hring := h.parked_ring hn
  obtain ⟨c, hc, hsome⟩ := h.parked_some hn
  obtain ⟨l, u, rfl⟩ := List.append_of_mem hn
  have hperm : (n :: u ++ l).Perm (l ++ n :: u) := List.perm_append_comm
  refine ⟨u ++ l, ⟨h.run, .inr ⟨hring.comm, c, hperm.symm.mem_iff.mp hc, hsome⟩, ?_, ?_⟩, hperm⟩
  · exact (hperm.append_left _).nodup_iff.mpr h.nodup
  · intro m hm
    exact h.below m ((hperm.append_left _).mem_iff.mp hm)

/-! ## Searches -/

/-- A task found behind the running one, with what stands before it and after it. -/
theorem runFind_spec (h : Laid s t P) (p : ℕ → Bool) :
    (s.runFind p = none ∧ ∀ y ∈ t, p y = false) ∨
      ∃ t₁ n t₂, t = t₁ ++ n :: t₂ ∧ (∀ y ∈ t₁, p y = false) ∧ p n = true ∧
        s.runFind p = some ((s.tasks :: t₁).getLast (by simp)) ∧
        s.next ((s.tasks :: t₁).getLast (by simp)) = n :=
  seek_spec h.run.path h.tasks_not_mem h.length_run

/-- The task that runs next waits its turn on the run ring and has not ended. -/
theorem findRunnable_mem (h : Laid s t P) {y : Build} {w : Weather} {now look : ℕ} {meLive : Bool}
    (hn : s.findRunnable y w now meLive look = some n) : n ∈ t ∧ (s.task n).ip.ap ≠ .exit := by
  unfold Sched.findRunnable at hn
  rcases h.runFind_spec (s.runnable y w now meLive look) with ⟨hnone, -⟩ | ⟨t₁, m, t₂, rfl, -, hruns, hsome, hnext⟩
  · rw [hnone] at hn
    cases hn
  · rw [hsome, Option.map_some, hnext] at hn
    obtain rfl := Option.some.inj hn
    refine ⟨by simp, fun hexit => ?_⟩
    have hexit : (s.node m).ip.ap = .exit := hexit
    simp [Sched.runnable, hexit] at hruns

/-- A task found in the parked ring, which is then seen from before it. -/
theorem parkedFind_spec (h : Laid s t P) (pid : ℤ) :
    (s.parkedFind pid = none ∧ ∀ y ∈ P, s.pidIs pid y = false) ∨
      ∃ prev, s.parkedFind pid = some prev ∧ s.pidIs pid (s.next prev) = true ∧
        ∃ Q, Laid s t (prev :: Q) ∧ (prev :: Q).Perm P := by
  unfold Sched.parkedFind
  cases hc : s.parked with
  | none =>
      rcases h.park with ⟨rfl, -⟩ | ⟨-, d, -, hsome⟩
      · exact .inl ⟨rfl, by simp⟩
      · rw [hsome] at hc
        cases hc
  | some c =>
      obtain ⟨Q, hQ, hperm⟩ := h.rotate (h.mem_of_parked hc)
      have hring := hQ.parked_ring List.mem_cons_self
      have hlen := hQ.length_park
      rw [List.length_cons] at hlen
      have hmem : ∀ m, m ∈ P ↔ m ∈ Q ++ [c] := by
        intro m
        rw [← hperm.mem_iff, List.mem_cons, List.mem_append, List.mem_singleton, or_comm]
      rcases seekAll_spec (p := s.pidIs pid) hring.path (List.nodup_cons.mp hring.nodup).1
        (Nat.lt_of_succ_lt hlen) with ⟨hnone, hall⟩ | ⟨t₁, n, t₂, hsplit, hn, hsome, hnext⟩
      · exact .inl ⟨hnone, fun m hm => hall m ((hmem m).mp hm)⟩
      · refine .inr ⟨_, hsome, hnext ▸ hn, h.rotate ?_⟩
        have hlast := List.getLast_mem (l := c :: t₁) (by simp)
        rw [hmem, hsplit]
        rcases List.mem_cons.mp hlast with heq | hlast
        · rw [heq, ← hsplit]
          simp
        · exact List.mem_append_left _ hlast

end Laid

end LoveRuntime.Tasks

/-! Waking: the parked tasks that can run go over to the run ring, in any order and any number,
and no other node moves. -/

namespace LoveRuntime.Tasks

open Rings

variable {s s' : Sched} {t P t' P' : List ℕ} {a n : ℕ}

/-- Nodes of the parked ring have gone over to the run ring. -/
structure Moved (s s' : Sched) (t P t' P' : List ℕ) : Prop where
  laid : Laid s' t' P'
  same : SameRegs s s'
  perm : (t' ++ P').Perm (t ++ P)
  sub : P' ⊆ P

theorem Moved.refl (h : Laid s t P) : Moved s s t P t P :=
  ⟨h, SameRegs.refl s, List.Perm.refl _, List.Subset.refl _⟩

theorem Moved.trans {s'' : Sched} {t'' P'' : List ℕ} (h : Moved s s' t P t' P')
    (h' : Moved s' s'' t' P' t'' P'') : Moved s s'' t P t'' P'' where
  laid := h'.laid
  same := h.same.trans h'.same
  perm := h'.perm.trans h.perm
  sub := List.Subset.trans h'.sub h.sub

/-! ## One node -/

namespace Laid

theorem congr (h : Laid s t P) (hnext : s'.next = s.next) (htasks : s'.tasks = s.tasks)
    (hparked : s'.parked = s.parked) (hhp : s'.hp = s.hp) : Laid s' t P where
  run := by rw [hnext, htasks]; exact h.run
  park := by rw [Parked, hnext, hparked]; exact h.park
  nodup := by rw [htasks]; exact h.nodup
  below := by rw [htasks, hhp]; exact h.below

theorem parkedDrop_regs (s : Sched) (a n : ℕ) : SameRegs s (s.parkedDrop a n) := by
  rw [Sched.parkedDrop]
  split_ifs
  · exact ⟨rfl, rfl, rfl, rfl, rfl, rfl, rfl⟩
  · refine (SameRegs.link s a (s.next n)).trans ?_
    dsimp only
    split_ifs
    · exact ⟨rfl, rfl, rfl, rfl, rfl, rfl, rfl⟩
    · exact SameRegs.refl _

/-- The node behind `a` out of the parked ring. -/
theorem parkedDrop (h : Laid s t (a :: P)) :
    Laid (s.parkedDrop a (s.next a)) t ((a :: P).erase (s.next a)) := by
  have hring := h.parked_ring List.mem_cons_self
  cases P with
  | nil =>
      have hself : s.next a = a := hring.path
      rw [hself, Sched.parkedDrop, if_pos rfl, List.erase_cons_head]
      refine ⟨h.run, .inl ⟨rfl, rfl⟩, ?_, ?_⟩
      · exact h.nodup.sublist ((List.nil_sublist _).append_left _)
      · intro m hm
        exact h.below m (List.mem_append_left _ (by simpa using hm))
  | cons n Q =>
      have hnext : s.next a = n := hring.path.1
      have hne : a ≠ n := fun heq => (List.nodup_cons.mp hring.nodup).1 (by simp [heq])
      rw [hnext, List.erase_cons_tail (by simpa using hne), List.erase_cons_head]
      have hnd : (s.tasks :: t ++ a :: Q).Nodup :=
        h.nodup.sublist ((((List.sublist_cons_self n Q).cons_cons a)).append_left _)
      have hbelow : ∀ m ∈ s.tasks :: t ++ a :: Q, m < s.hp := fun m hm =>
        h.below m ((((List.sublist_cons_self n Q).cons_cons a).append_left _).subset hm)
      have hrun : Ring (s.link a (s.next n)).next (s.tasks :: t) := by
        rw [Sched.next_link]
        exact h.run.congr fun m hm => Function.update_of_ne
          (ne_of_mem_of_not_mem hm (h.not_mem_run List.mem_cons_self)) _ _
      have hpark : Ring (s.link a (s.next n)).next (a :: Q) := by
        rw [Sched.next_link]
        exact hring.remove
      obtain ⟨c, hc, hsome⟩ := h.parked_some List.mem_cons_self
      rw [Sched.parkedDrop, if_neg hne]
      dsimp only
      split_ifs with hhead
      · exact ⟨hrun, .inr ⟨hpark, a, List.mem_cons_self, rfl⟩, hnd, hbelow⟩
      · refine ⟨hrun, .inr ⟨hpark, c, ?_, hsome⟩, hnd, hbelow⟩
        have hcn : c ≠ n := by
          rintro rfl
          exact hhead hsome
        simpa [hcn] using hc

theorem runSpliceAt_next (s : Sched) (a n : ℕ) :
    (s.runSpliceAt a n).next = Function.update (Function.update s.next n s.tasks) a n := by
  have hsame : ((s.link n s.tasks).node n).next = (s.link n s.tasks).next n := rfl
  rw [Sched.runSpliceAt, Sched.next_link, Sched.next_write]
  dsimp only
  rw [hsame, Function.update_eq_self, Sched.next_link]

theorem runSpliceAt_regs (s : Sched) (a n : ℕ) : SameRegs s (s.runSpliceAt a n) :=
  (SameRegs.link s n s.tasks).trans
    ((SameRegs.write _ n (n := { (s.link n s.tasks).node n with waitFd := -1 }) rfl).trans
      (SameRegs.link _ a n))

/-- A node of neither ring goes behind the last of the run ring. -/
theorem runSpliceAt (h : Laid s t P) (hn : n ∉ s.tasks :: t ++ P) (hlt : n < s.hp) :
    Laid (s.runSpliceAt ((s.tasks :: t).getLast (by simp)) n) (t ++ [n]) P := by
  have hregs := runSpliceAt_regs s ((s.tasks :: t).getLast (by simp)) n
  rw [List.mem_append, not_or] at hn
  have hlast : (s.tasks :: t).getLast (by simp) ∈ s.tasks :: t := List.getLast_mem _
  have hring := h.run
  rw [← List.dropLast_append_getLast (l := s.tasks :: t) (by simp)] at hring
  have htasks : s.next ((s.tasks :: t).getLast (by simp)) = s.tasks := by
    rw [hring.next_last]
    simp only [List.dropLast_append_getLast, List.head_cons]
  have hsnoc := hring.snoc (n := n) (by
    rw [List.dropLast_append_getLast]
    exact hn.1)
  rw [htasks] at hsnoc
  have hsplit : (s.tasks :: t).dropLast ++ [(s.tasks :: t).getLast (by simp), n] = s.tasks :: (t ++ [n]) := by
    rw [← List.singleton_append (l := [n]), ← List.append_assoc, List.dropLast_append_getLast,
      List.cons_append]
  rw [hsplit] at hsnoc
  have hsame : s.tasks :: (t ++ [n]) ++ P = s.tasks :: t ++ n :: P := by simp
  have hperm : (s.tasks :: (t ++ [n]) ++ P).Perm (n :: (s.tasks :: t ++ P)) :=
    hsame ▸ List.perm_middle
  have hpark : ∀ m ∈ P, (s.runSpliceAt ((s.tasks :: t).getLast (by simp)) n).next m = s.next m := by
    intro m hm
    rw [runSpliceAt_next, Function.update_of_ne (ne_of_mem_of_not_mem hlast (h.not_mem_run hm)).symm,
      Function.update_of_ne (ne_of_mem_of_not_mem hm hn.2)]
  refine ⟨?_, ?_, ?_, ?_⟩
  · rw [runSpliceAt_next, hregs.tasks]
    exact hsnoc
  · rcases h.park with ⟨hnil, hnone⟩ | ⟨hring, hsome⟩
    · exact .inl ⟨hnil, hnone⟩
    · exact .inr ⟨hring.congr hpark, hsome⟩
  · rw [hregs.tasks]
    exact hperm.nodup_iff.mpr (List.nodup_cons.mpr ⟨by simpa [and_assoc] using hn, h.nodup⟩)
  · rw [hregs.tasks, hregs.hp]
    intro m hm
    rcases List.mem_cons.mp (hperm.mem_iff.mp hm) with rfl | hm
    · exact hlt
    · exact h.below m hm

/-- One wake: the node behind `a` out of the parked ring and onto the end of the run ring. -/
theorem wake (h : Laid s t (a :: P)) :
    Moved s ((s.parkedDrop a (s.next a)).runSpliceAt ((s.tasks :: t).getLast (by simp)) (s.next a))
      t (a :: P) (t ++ [s.next a]) ((a :: P).erase (s.next a)) := by
  have hmem : s.next a ∈ a :: P := (h.parked_ring List.mem_cons_self).next_mem List.mem_cons_self
  have hperm := List.perm_cons_erase hmem
  have hregs := parkedDrop_regs s a (s.next a)
  have hdrop := h.parkedDrop
  have hnd : (s.next a :: (s.tasks :: t ++ (a :: P).erase (s.next a))).Nodup := by
    refine List.Perm.nodup ?_ h.nodup
    exact (hperm.append_left (s.tasks :: t)).trans List.perm_middle
  have hsplice := hdrop.runSpliceAt (n := s.next a) (by
    rw [hregs.tasks]
    exact (List.nodup_cons.mp hnd).1) (by
    rw [hregs.hp]
    exact h.below _ (List.mem_append_right _ hmem))
  simp only [hregs.tasks] at hsplice
  refine ⟨hsplice, hregs.trans (runSpliceAt_regs _ _ _), ?_, List.erase_subset⟩
  rw [List.append_assoc, List.singleton_append]
  exact (hperm.symm.append_left t)

/-! ## Any number -/

theorem getLast_snoc (a n : ℕ) (t : List ℕ) : (a :: (t ++ [n])).getLast (by simp) = n := by
  simp

end Laid

/-- The node behind `a`, woken. -/
def Sched.woken (s : Sched) (t : List ℕ) (a : ℕ) : Sched :=
  (s.parkedDrop a (s.next a)).runSpliceAt ((s.tasks :: t).getLast (by simp)) (s.next a)

/-- A property of the rings that holds on when a node that `okay` says can run is woken. -/
structure Wakeful (okay : Sched → ℕ → Bool) (Φ : Sched → List ℕ → List ℕ → Prop) : Prop where
  laid : ∀ {s t P}, Φ s t P → Laid s t P
  perm : ∀ {s t P Q}, Φ s t P → Laid s t Q → Q.Perm P → Φ s t Q
  wake : ∀ {s t P a}, Φ s t (a :: P) → okay s (s.next a) = true →
    Φ (s.woken t a) (t ++ [s.next a]) ((a :: P).erase (s.next a))

/-- A walk by count, with the tail found at the first wake. -/
theorem Wakeful.wakeFrom {okay : Sched → ℕ → Bool} {Φ : Sched → List ℕ → List ℕ → Prop}
    (hΦ : Wakeful okay Φ) (i : ℕ) {tail : Option ℕ} {woke : ℕ} (h : Φ s t P)
    (hprev : s.parked.isNone = true ∨ a ∈ P)
    (htail : ∀ c, tail = some c → c = (s.tasks :: t).getLast (by simp)) :
    ∃ t' P', Φ (Sched.wakeFrom okay i s a tail woke).1 t' P' := by
  induction i generalizing s t P a tail woke with
  | zero => exact ⟨t, P, h⟩
  | succ i ih =>
      have hlaid := hΦ.laid h
      rw [Sched.wakeFrom]
      dsimp only
      split_ifs with hnone hokay
      · exact ⟨t, P, h⟩
      · refine ih h ?_ htail
        have ha := hprev.resolve_left hnone
        exact .inr ((hlaid.parked_ring ha).next_mem ha)
      · have ha := hprev.resolve_left hnone
        obtain ⟨Q, hQ, hperm⟩ := hlaid.rotate ha
        have hlast : tail.getD (before s.next s.tasks s.hp s.tasks) = (s.tasks :: t).getLast (by simp) := by
          cases tail with
          | none => exact before_spec hlaid.run.path hlaid.tasks_not_mem hlaid.length_run
          | some c => exact htail c rfl
        rw [hlast]
        have hwoken := hΦ.wake (hΦ.perm h hQ hperm) (by simpa using hokay)
        refine @ih _ _ _ a (some (s.next a)) (woke + 1) hwoken ?_ ?_
        · by_cases hself : s.next a = a
          · left
            rw [hself, Sched.parkedDrop, if_pos rfl]
            rfl
          · right
            rw [List.erase_cons_tail (by simpa using Ne.symm hself)]
            exact List.mem_cons_self
        · rintro c ⟨⟩
          simp

/-- One that holds on whatever look finds a task able to run. -/
def Steady (Φ : Sched → List ℕ → List ℕ → Prop) : Prop :=
  ∀ w now polled ask look, Wakeful (fun s => s.parkedReady w now polled ask look) Φ

section Steady

variable {Φ : Sched → List ℕ → List ℕ → Prop}

theorem Steady.wakeParked (hΦ : Steady Φ) (h : Φ s t P) (w : Weather) (now : ℕ)
    (polled : ℤ → ℤ → Option Bool) (ask : Bool) (look : ℕ) :
    ∃ t' P', Φ (s.wakeParked w now polled ask look).1 t' P' := by
  have hsteady := hΦ w now polled ask look
  rw [Sched.wakeParked]
  cases hc : s.parked with
  | none => exact ⟨t, P, h⟩
  | some c => exact hsteady.wakeFrom _ h (.inr ((hsteady.laid h).mem_of_parked hc)) (by simp)

theorem Steady.pollParked (hΦ : Steady Φ) (h : Φ s t P) (w : Weather) (now : ℕ) :
    ∃ t' P', Φ (s.pollParked w now) t' P' := by
  rw [Sched.pollParked]
  split_ifs
  · exact hΦ.wakeParked h w now _ _ _
  · exact hΦ.wakeParked h w now _ _ _

end Steady

theorem Laid.steady (s₀ : Sched) (t₀ P₀ : List ℕ) : Steady fun s t P => Moved s₀ s t₀ P₀ t P := by
  refine fun w now polled ask look => ⟨fun h => h.laid, fun h hQ hperm => ?_, fun h _ => h.trans h.laid.wake⟩
  exact ⟨hQ, h.same, (hperm.append_left _).trans h.perm, List.Subset.trans hperm.subset h.sub⟩

namespace Laid

theorem wakeParked (h : Laid s t P) (w : Weather) (now : ℕ) (polled : ℤ → ℤ → Option Bool) (ask : Bool)
    (look : ℕ) : ∃ t' P', Moved s (s.wakeParked w now polled ask look).1 t P t' P' :=
  (steady s t P).wakeParked (Moved.refl h) w now polled ask look

theorem pollParked (h : Laid s t P) (w : Weather) (now : ℕ) :
    ∃ t' P', Moved s (s.pollParked w now) t P t' P' :=
  (steady s t P).pollParked (Moved.refl h) w now

end Laid

/-- A peer to run: it waits its turn on the run ring, has not ended and is not held. -/
structure Peer (s : Sched) (t : List ℕ) (n : ℕ) : Prop where
  mem : n ∈ t
  runs : (s.task n).ip.ap ≠ .exit
  unheld : (s.node n).held = false

theorem Node.not_held_of_due {n : Node} {now : ℕ} (h : n.due now = true) : n.held = false := by
  simp only [Node.due, Bool.and_eq_true, decide_eq_true_eq] at h
  simpa [Node.held] using h.1

theorem Laid.findRunnable_peer (h : Laid s t P) {y : Build} {w : Weather} {now look : ℕ} {meLive : Bool}
    (hn : s.findRunnable y w now meLive look = some n) : Peer s t n := by
  obtain ⟨hmem, hruns⟩ := h.findRunnable_mem hn
  refine ⟨hmem, hruns, ?_⟩
  unfold Sched.findRunnable at hn
  rcases h.runFind_spec (s.runnable y w now meLive look) with ⟨hnone, -⟩ | ⟨t₁, m, t₂, rfl, -, hm, hsome, hnext⟩
  · rw [hnone] at hn
    cases hn
  · rw [hsome, Option.map_some, hnext] at hn
    obtain rfl := Option.some.inj hn
    simp only [Sched.runnable, Bool.and_eq_true] at hm
    exact Node.not_held_of_due hm.1.1.2

/-- A wait keeps `Φ`, and a peer it finds can run. -/
def Waited (Φ : Sched → List ℕ → List ℕ → Prop) (r : Sched × Option ℕ × Bool) : Prop :=
  ∃ t' P', Φ r.1 t' P' ∧ ∀ n, r.2.1 = some n → Peer r.1 t' n

theorem Steady.laid {Φ : Sched → List ℕ → List ℕ → Prop} (hΦ : Steady Φ) (h : Φ s t P) : Laid s t P :=
  (hΦ ⟨fun _ => 0, fun _ _ _ => false, fun _ => false, fun _ _ => none, fun _ _ => none, false, false⟩ 0
    (fun _ _ => none) false 0).laid h

theorem Steady.yieldSwWait {Φ : Sched → List ℕ → List ℕ → Prop} (hΦ : Steady Φ) (h : Φ s t P) (y : Build)
    (w : Weather) (myWake : ℕ) (myFd myEvents : ℤ) (meLive : Bool) :
    Waited Φ (s.yieldSwWait y w myWake myFd myEvents meLive) := by
  obtain ⟨t₁, P₁, h₁⟩ := hΦ.wakeParked h w (w.clock 1) (fun _ _ => none) false 1
  rw [Sched.yieldSwWait]
  revert h₁
  rcases s.wakeParked w (w.clock 1) (fun _ _ => none) false 1 with ⟨s₁, woke⟩
  intro h₁
  dsimp only at h₁ ⊢
  refine iteInduction (motive := Waited Φ) (fun _ => ⟨t₁, P₁, h₁, ?_⟩) fun _ => ?_
  · intro n hn
    dsimp only at hn
    split_ifs at hn
    exact (hΦ.laid h₁).findRunnable_peer hn
  · refine iteInduction (motive := Waited Φ) (fun _ => ⟨t₁, P₁, h₁, nofun⟩) fun _ => ?_
    refine iteInduction (motive := Waited Φ) (fun _ => ⟨t₁, P₁, h₁, nofun⟩) fun _ => ?_
    obtain ⟨t₂, P₂, h₂⟩ := hΦ.wakeParked h₁ w _ _ true 4
    exact ⟨t₂, P₂, h₂, fun n hn => (hΦ.laid h₂).findRunnable_peer hn⟩

end LoveRuntime.Tasks
