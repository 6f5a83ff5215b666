import LoveRuntime.Verification.Tasks.Steps

/-! Runs of the tasks: none is lost and none doubled, as long as none ends with an fd still to
wait on. -/

namespace LoveRuntime.Tasks

open Rings

variable {s s' : Sched} {L : Ledger} {t P : List ℕ} {y : Build} {w : Weather}

/-! ## One step -/

theorem closed_exit (arg ret : Word) (me : ℤ) (w : Weather) (o : Outcome) :
    L.after y me arg (.exit w ret) o = closed L me ret o := by
  cases o with
  | switched => rfl
  | answered v => rfl
  | stayed => rfl
  | raised => rfl
  | stopped => rfl

theorem closed_quit (arg : Word) (me : ℤ) (w : Weather) (o : Outcome) :
    L.after y me arg (.quit w) o = closed L me (quitCode arg) o := by
  cases o with
  | switched => rfl
  | answered v => rfl
  | stayed => rfl
  | raised => rfl
  | stopped => rfl

theorem after_raise (arg : Word) (me : ℤ) (act : Act) : L.after y me arg act s.raise.2 = L := by
  rw [Sched.raise]
  split_ifs
  · cases act <;> rfl
  · cases act <;> rfl

/-- A wait that yields takes nothing. -/
theorem Yields.after_wait {r : Sched × Outcome} (h : Yields y s t P r) (arg : Word) (me : ℤ) (w : Weather) :
    L.after y me arg (.wait w) r.2 = L := by
  cases h with
  | stayed _ => rfl
  | raised _ => exact after_raise arg me _
  | switched _ _ _ => rfl

theorem Sound.wait (h : Sound s L) (me : ℤ) :
    Sound (s.lvmWait y w).1 (L.after y me s.arg (.wait w) (s.lvmWait y w).2) := by
  obtain ⟨t, P, h⟩ := h
  by_cases hfin : ∃ r, (y.getcharm s.arg, some r) ∈ L
  · obtain ⟨r, hmem⟩ := hfin
    obtain ⟨s₁, t₁, hwait, h₁⟩ := h.wait_finished (w := w) hmem
    have hfilter : L.after y me s.arg (.wait w) (.answered r) =
        L.filter fun e => e.1 != y.getcharm s.arg := by
      refine List.filter_congr fun e he => ?_
      by_cases hpid : e.1 = y.getcharm s.arg
      · rw [h.entry_unique he hmem hpid]
        simp
      · simp [bne, beq_eq_false_iff_ne.mpr hpid]
    rw [hwait]
    refine Eq.mpr (congrArg (Sound _) hfilter) (h₁.answer r)
  · rcases h.wait_unfinished (w := w) (not_exists.mp hfin) with hwait | hwait
    · have hfilter : L.after y me s.arg (.wait w) (.answered (.charm 0)) = L := by
        refine List.filter_eq_self.mpr fun e he => ?_
        by_cases hpid : e.1 = y.getcharm s.arg
        · cases hval : e.2 with
          | none => simp
          | some r => exact absurd ⟨r, hpid ▸ hval ▸ he⟩ hfin
        · simp [hpid]
      have hat : Accounts (s.atInstr .wait) L t P := h.registers rfl rfl rfl rfl rfl
      rw [hwait]
      exact Eq.mpr (congrArg (Sound _) hfilter) (hat.answer (.charm 0))
    · have hat : Accounts { s.atInstr .wait with nextWakeAt := 0, nextWaitFd := -1 } L t P :=
        h.registers rfl rfl rfl rfl rfl
      have hyield := hat.laid.lvmYieldSw y w
      rw [hwait, hyield.after_wait]
      exact hat.yields (by decide : Instr.wait ≠ .exit) hyield

/-- No task ends while an fd waits for the next switch. -/
def Calm (s : Sched) : Act → Prop
  | .exit _ _ => s.nextWaitFd < 0
  | _ => True

/-- A yield at code, whatever registers are set for it. -/
theorem Sound.yield (h : Sound s L) (hnode : s'.node = s.node) (htasks : s'.tasks = s.tasks)
    (hparked : s'.parked = s.parked) (hhp : s'.hp = s.hp) (hserial : s'.nextSerial = s.nextSerial)
    (hcode : s'.ip.ap ≠ .exit) : Sound (s'.lvmYieldSw y w).1 L := by
  obtain ⟨t, P, h⟩ := h
  have h' : Accounts s' L t P := h.registers hnode htasks hparked hhp hserial
  exact h'.yields hcode (h'.laid.lvmYieldSw y w)

theorem Sound.check (h : Sound s L) : Sound (s.yieldCheck y w).1 L := by
  have hcode : Instr.code ≠ .exit := by decide
  obtain ⟨t, P, hacc⟩ := id h
  rw [Sched.yieldCheck]
  dsimp only
  split_ifs
  · exact Sound.yield h rfl rfl rfl rfl rfl hcode
  · exact ⟨t, P, hacc.registers rfl rfl rfl rfl rfl⟩
  · exact ⟨t, P, hacc.registers rfl rfl rfl rfl rfl⟩

theorem Sound.exit (h : Sound s L) (hfd : s.nextWaitFd < 0) (ret : Word) :
    Sound (s.lvmTaskExit y w ret).1 (closed L (s.node s.tasks).pid ret (s.lvmTaskExit y w ret).2) := by
  obtain ⟨t, P, h⟩ := h
  have h' : Accounts { s with ip := ⟨.exit, 0⟩, sp := [ret] } L t P := h.registers rfl rfl rfl rfl rfl
  exact h'.exits rfl rfl hfd (h'.laid.lvmYieldSw y w)

theorem Sound.quit (h : Sound s L) :
    Sound (s.lvmTaskQuit y w).1 (closed L (s.node s.tasks).pid (quitCode s.arg) (s.lvmTaskQuit y w).2) := by
  obtain ⟨t, P, h⟩ := h
  have h' : Accounts
      { s with nextWakeAt := 0, nextWaitFd := -1, sp := [quitCode s.arg], ip := ⟨.exit, 0⟩ } L t P :=
    h.registers rfl rfl rfl rfl rfl
  exact h'.exits rfl rfl (by decide : (-1 : ℤ) < 0) (h'.laid.lvmYieldSw y w)

theorem Sound.step (h : Sound s L) {act : Act} (hcalm : Calm s act) :
    Sound (s.step y act).1 (L.after y (s.node s.tasks).pid s.arg act (s.step y act).2) := by
  have hcode : Instr.code ≠ .exit := by decide
  cases act with
  | compute addr sp =>
      obtain ⟨t, P, h⟩ := h
      exact ⟨t, P, h.registers rfl rfl rfl rfl rfl⟩
  | hear => exact h.hear
  | twirl room =>
      cases room with
      | true => exact h.twirl _
      | false =>
          have hraise : s.lvmTwirl false = s.raise := rfl
          rw [Sched.step, hraise, after_raise]
          exact h.raise
  | check w => exact h.check
  | yield w => exact h.yield rfl rfl rfl rfl rfl hcode
  | park w fd events => exact h.yield rfl rfl rfl rfl rfl hcode
  | poll w => exact h.yield rfl rfl rfl rfl rfl hcode
  | sleep w => exact h.yield rfl rfl rfl rfl rfl hcode
  | exit w ret =>
      rw [closed_exit]
      exact h.exit hcalm ret
  | quit w =>
      rw [closed_quit]
      exact h.quit
  | wait w => exact h.wait _
  | donep => exact h.donep
  | scoop room =>
      cases room with
      | true => exact h.scoop _
      | false =>
          have hraise : s.lvmScoop false = s.raise := rfl
          rw [Sched.step, hraise, after_raise]
          exact h.raise
  | hush => exact h.hush _
  | pause => exact h.pause
  | resume => exact h.resume

/-! ## Runs -/

theorem boot_sound : Sound boot [(0, none)] := by
  refine ⟨[], [], ⟨⟨rfl, by simp⟩, .inl ⟨rfl, rfl⟩, by simp, ?_⟩, .refl _, by simp, ?_, nofun⟩
  · intro n hn
    rw [List.mem_singleton.mp hn]
    decide
  · intro pid hpid
    rw [List.mem_singleton.mp hpid]
    decide

theorem Reached.sound (h : Reached y Calm s L) : Sound s L := by
  induction h with
  | boot => exact boot_sound
  | step _ act hcalm _ ih => exact ih.step hcalm

/-- The tasks of the ledger are those of the two rings, each once, and both are rings; a wait on
a task that has ended is answered with its value, and so is a scoop with some task's. -/
structure Kept (y : Build) (s : Sched) (L : Ledger) : Prop where
  once : ∃ t P, Ring s.next (s.tasks :: t) ∧ Parked s P ∧ (s.tasks :: t ++ P).Nodup ∧
    (L.map Prod.fst).Nodup ∧ (L.map Prod.fst).Perm ((s.tasks :: t ++ P).map fun n => (s.node n).pid)
  available : ∀ pid r, (pid, some r) ∈ L → ∀ w sp,
    (Sched.lvmWait { s with sp := .charm pid :: sp } y w).2 = .answered r
  scooped : (∃ e ∈ L, e.2.isSome = true) →
    ∃ pid r, (pid, some r) ∈ L ∧ (s.lvmScoop true).2 = .answered (.pair (.charm pid) r)

theorem Sound.once (h : Sound s L) :
    ∃ t P, Ring s.next (s.tasks :: t) ∧ Parked s P ∧ (s.tasks :: t ++ P).Nodup ∧
      (L.map Prod.fst).Nodup ∧ (L.map Prod.fst).Perm ((s.tasks :: t ++ P).map fun n => (s.node n).pid) := by
  obtain ⟨t, P, h⟩ := h
  refine ⟨t, P, h.laid.run, h.laid.park, h.laid.nodup, h.pids, ?_⟩
  have hpids := h.ledger.map Prod.fst
  rw [List.map_cons, List.map_map] at hpids
  exact hpids

theorem Sound.available (h : Sound s L) {pid : ℤ} {r : Word} (hmem : (pid, some r) ∈ L) (w : Weather)
    (sp : List Word) : (Sched.lvmWait { s with sp := .charm pid :: sp } y w).2 = .answered r := by
  obtain ⟨t, P, h⟩ := h
  have h' : Accounts { s with sp := .charm pid :: sp } L t P := h.registers rfl rfl rfl rfl rfl
  obtain ⟨s₁, t₁, hwait, -⟩ := h'.wait_finished (y := y) (w := w) hmem
  rw [hwait]
  rfl

theorem Sound.scooped (h : Sound s L) (hfin : ∃ e ∈ L, e.2.isSome = true) :
    ∃ pid r, (pid, some r) ∈ L ∧ (s.lvmScoop true).2 = .answered (.pair (.charm pid) r) := by
  obtain ⟨t, P, h⟩ := h
  obtain ⟨⟨pid, v⟩, hmem, hval⟩ := hfin
  obtain ⟨r, rfl⟩ := Option.isSome_iff_exists.mp hval
  obtain ⟨m, hm, hentry⟩ := h.finished_mem hmem
  rw [Sched.lvmScoop, if_neg (by decide)]
  rcases h.laid.runFind_spec fun a => (s.node a).ip.ap == .exit with
    ⟨-, hall⟩ | ⟨t₁, n, t₂, rfl, -, hexit, hsome, hnext⟩
  · have hexit := (exit_of_entry hentry).1
    have hnone := hall m hm
    rw [hexit] at hnone
    exact absurd hnone (by decide)
  · have hn : s.entry n = ((s.node n).pid, some (s.node n).top) := Prod.ext rfl (if_pos (eq_of_beq hexit))
    refine ⟨_, _, hn ▸ h.entry_mem (by simp), ?_⟩
    rw [hsome]
    dsimp only
    rw [hnext]
    rfl

/-- In every run in which no task ends with an fd still to wait on, no task is lost or doubled and
every value is kept until it is taken. -/
theorem kept_of_calm (h : Reached y Calm s L) : Kept y s L :=
  ⟨h.sound.once, fun _ _ hmem => h.sound.available hmem, h.sound.scooped⟩

/-! ## A run -/

/-- A list of operations, while none stops the machine. -/
def play (y : Build) : List Act → Sched → Ledger → Option (Sched × Ledger)
  | [], s, L => some (s, L)
  | act :: acts, s, L =>
      if (s.step y act).2 = .stopped then none
      else play y acts (s.step y act).1 (L.after y (s.node s.tasks).pid s.arg act (s.step y act).2)

theorem Reached.play {allow : Sched → Act → Prop} (h : Reached y allow s L) {acts : List Act} {L' : Ledger}
    (hallow : ∀ act ∈ acts, ∀ s, allow s act) (hplay : play y acts s L = some (s', L')) :
    Reached y allow s' L' := by
  induction acts generalizing s L with
  | nil =>
      obtain ⟨rfl, rfl⟩ := Prod.mk.inj (Option.some.inj hplay)
      exact h
  | cons act acts ih =>
      rw [LoveRuntime.Tasks.play] at hplay
      split_ifs at hplay with hstop
      exact ih (h.step act (hallow act List.mem_cons_self s) hstop)
        (fun act hact => hallow act (List.mem_cons_of_mem _ hact)) hplay

def build : Build := ⟨63, fun _ => 0⟩

/-- Fair weather: time stands, nothing is ready, and there is room for what `room` says. -/
def weather (room : Bool) : Weather :=
  ⟨fun _ => 1, fun _ _ _ => false, fun _ => false, fun _ _ => none, fun _ _ => none, true, room⟩

/-- A help is heard, a task is started, and it has the turn. -/
def started : List Act :=
  [.compute 1 [.cell 9], .hear, .compute 2 [.cell 9, .point], .twirl true, .yield (weather true)]

/-- The task quits over a value, and the value waits for its taker. -/
theorem kept_of_calm_quit :
    ∃ s L, play build (started ++ [.compute 3 [.charm 7], .quit (weather true)]) boot [(0, none)] = some (s, L) ∧
      Kept build s L ∧ (1, some (.charm 7)) ∈ L := by
  have hledger : (play build (started ++ [.compute 3 [.charm 7], .quit (weather true)]) boot [(0, none)]).map
      Prod.snd = some [(1, some (.charm 7)), (0, none)] := by decide
  obtain ⟨⟨s, L⟩, hplay, rfl⟩ := Option.map_eq_some_iff.mp hledger
  have hreach : Reached build Calm s _ := Reached.boot.play (by simp [started, Calm]) hplay
  exact ⟨s, _, hplay, kept_of_calm hreach, List.mem_cons_self⟩

/-- The task is cut short as it parks, its help hears it, and it ends: it ends parked, where no
wait and no scoop finds its value. -/
def cutShort : List Act :=
  started ++ [.compute 3 [], .park (weather false) 3 waitIn, .compute 4 [], .exit (weather true) (.charm 7)]

theorem not_kept : ¬∀ y s L, Reached y (fun _ _ => True) s L → Kept y s L := by
  intro hkept
  have hledger : (play build cutShort boot [(0, none)]).map Prod.snd = some [(1, some (.charm 7)), (0, none)] := by
    decide
  have hwait : (play build cutShort boot [(0, none)]).map
      (fun r => (Sched.lvmWait { r.1 with sp := [.charm 1] } build (weather true)).2) = some .stayed := by
    decide
  obtain ⟨⟨s, L⟩, hplay, rfl⟩ := Option.map_eq_some_iff.mp hledger
  rw [hplay] at hwait
  have hreach : Reached build (fun _ _ => True) s _ := Reached.boot.play (fun _ _ _ => trivial) hplay
  have hanswered := (hkept build s _ hreach).available 1 (.charm 7) List.mem_cons_self (weather true) []
  exact absurd ((Option.some.inj hwait).symm.trans hanswered) nofun

end LoveRuntime.Tasks
