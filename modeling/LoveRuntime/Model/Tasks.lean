import LoveRuntime.Library.Rings
import Mathlib

/-! # The tasks and their scheduler

`task.c`: the run ring, which the running task heads, and the parked ring of tasks that wait on
a port. A node is `[next, ip, pid, wake_at, wait_fd, events, help, stdio, stack..]`. What the
surroundings answer (the clock, whether an fd is ready, whether there is room) is the weather
of an operation. Nodes keep their addresses: the collector moves them, links and all. -/

namespace LoveRuntime.Tasks

open Rings

inductive Word where
  | charm (n : ℤ)
  /-- `()`. -/
  | point
  | cell (a : ℕ)
  | pair (a b : Word)
  deriving DecidableEq, Repr

/-- The instructions the scheduler asks a node's `ip` for. -/
inductive Instr where
  | exit
  | wait
  | code
  deriving DecidableEq, Repr

structure Ip where
  ap : Instr
  addr : ℕ
  deriving DecidableEq, Repr

/-- `Ip += 1`. -/
def Ip.succ (ip : Ip) : Ip := ⟨.code, ip.addr + 1⟩

structure Node where
  next : ℕ
  ip : Ip
  pid : ℤ
  wakeAt : ℤ
  waitFd : ℤ
  events : ℤ
  help : Word
  stdio : Word
  stack : List Word
  deriving DecidableEq, Repr

/-- What a charm keeps of a clock reading, and what an address reads as when it is taken for a
charm. -/
structure Build where
  charmBits : ℕ
  address : Word → ℤ

def Build.putcharm (y : Build) (n : ℕ) : ℤ := (n : ℤ).bmod (2 ^ y.charmBits)

def Build.getcharm (y : Build) : Word → ℤ
  | .charm n => n
  | w => y.address w

structure Sched where
  node : ℕ → Node
  hp : ℕ
  tasks : ℕ
  parked : Option ℕ
  nextSerial : ℕ
  nextWakeAt : ℕ
  nextWaitFd : ℤ
  nextWaitEvents : ℤ
  clockAt : ℕ
  sweepCtr : ℕ
  yieldCtr : ℕ
  ticks : ℕ
  ip : Ip
  sp : List Word

/-- What an operation finds around it: the readings of the clock and the looks at an fd, one
after the other; which ports hold bytes; what a wait on many fds answered of each; whether the
gap holds the block for them, and whether the collector finds the room asked for. -/
structure Weather where
  clock : ℕ → ℕ
  ready : ℕ → ℤ → ℤ → Bool
  buffered : ℕ → Bool
  swept : ℤ → ℤ → Option Bool
  polled : ℤ → ℤ → Option Bool
  gap : Bool
  room : Bool

def waitIn : ℤ := 1

def yieldInterval : ℕ := 64

def sweepInterval : ℕ := 16

namespace Node

/-- A held task keeps its deadline negated. -/
def held (n : Node) : Bool := decide (n.wakeAt < 0)

/-- `(uintptr_t) getcharm(n[3].x) <= now`. -/
def due (n : Node) (now : ℕ) : Bool := decide (0 ≤ n.wakeAt) && decide (n.wakeAt ≤ now)

def live (n : Node) : Bool := n.ip.ap != .exit && !n.held

/-- `n[8].x`. -/
def top (n : Node) : Word := n.stack.headD .point

end Node

namespace Sched

variable (s : Sched)

def next (a : ℕ) : ℕ := (s.node a).next

def write (a : ℕ) (n : Node) : Sched := { s with node := Function.update s.node a n }

/-- `a->m = b`. -/
def link (a b : ℕ) : Sched := s.write a { s.node a with next := b }

def pidIs (pid : ℤ) (a : ℕ) : Bool := (s.node a).pid == pid

/-- `parked_find`: the predecessor. -/
def parkedFind (pid : ℤ) : Option ℕ :=
  match s.parked with
  | none => none
  | some h => seekAll s.next (s.pidIs pid) h s.hp h

/-- A search of the run ring behind the running task: the predecessor. -/
def runFind (p : ℕ → Bool) : Option ℕ := seek s.next p s.tasks s.hp s.tasks

def parkedDrop (prev n : ℕ) : Sched :=
  if prev = n then { s with parked := none }
  else
    let s := s.link prev (s.next n)
    if s.parked = some n then { s with parked := some prev } else s

def runSpliceAt (tail n : ℕ) : Sched :=
  let s := s.link n s.tasks
  let s := s.write n { s.node n with waitFd := -1 }
  s.link tail n

def taskLive (pid : ℤ) (meLive : Bool) : Bool :=
  if s.pidIs pid s.tasks then meLive
  else match s.runFind (s.pidIs pid) with
    | some prev => (s.node (s.next prev)).live
    | none =>
        match s.parkedFind pid with
        | some prev => (s.node (s.next prev)).live
        | none => false

/-- What `find_runnable` asks of a node; `look` is the look at the fds. -/
def runnable (y : Build) (w : Weather) (now : ℕ) (meLive : Bool) (look : ℕ) (a : ℕ) : Bool :=
  let n := s.node a
  n.ip.ap != .exit && n.due now &&
    !(n.ip.ap == .wait && s.taskLive (y.getcharm n.top) meLive) &&
    (decide (n.waitFd < 0) || w.buffered a || w.ready look n.waitFd n.events)

def findRunnable (y : Build) (w : Weather) (now : ℕ) (meLive : Bool) (look : ℕ) : Option ℕ :=
  (s.runFind (s.runnable y w now meLive look)).map s.next

/-- `parked_ready`: `polled` is what a wait has answered already. -/
def parkedReady (w : Weather) (now : ℕ) (polled : ℤ → ℤ → Option Bool) (ask : Bool) (look : ℕ)
    (a : ℕ) : Bool :=
  let n := s.node a
  n.ip.ap != .exit && n.due now &&
    (decide (n.waitFd < 0) || w.buffered a ||
      (polled n.waitFd n.events).getD (ask && w.ready look n.waitFd n.events))

/-- The parked ring from its head. -/
def parkedCells : List ℕ :=
  match s.parked with
  | none => []
  | some h => h :: cells s.next h s.hp (s.next h)

/-- `wake_parked`'s loop, walked by count. -/
def wakeFrom (okay : Sched → ℕ → Bool) : ℕ → Sched → ℕ → Option ℕ → ℕ → Sched × ℕ
  | 0, s, _, _, woke => (s, woke)
  | i + 1, s, prev, tail, woke =>
      if s.parked.isNone then (s, woke)
      else
        let t := s.next prev
        if !okay s t then wakeFrom okay i s t tail woke
        else
          let tail := tail.getD (before s.next s.tasks s.hp s.tasks)
          wakeFrom okay i ((s.parkedDrop prev t).runSpliceAt tail t) prev (some t) (woke + 1)

def wakeParked (w : Weather) (now : ℕ) (polled : ℤ → ℤ → Option Bool) (ask : Bool) (look : ℕ) :
    Sched × ℕ :=
  match s.parked with
  | none => (s, 0)
  | some h =>
      wakeFrom (fun s => s.parkedReady w now polled ask look) s.parkedCells.length s h none 0

/-- The fairness sweep of every parked fd. -/
def pollParked (w : Weather) (now : ℕ) : Sched :=
  if !w.gap then (s.wakeParked w now (fun _ _ => none) true 0).1
  else (s.wakeParked w now w.swept false 0).1

/-- The earlier of two deadlines, of which zero is none. -/
def sooner (least wake : ℕ) : ℕ := if wake ≠ 0 ∧ (least = 0 ∨ wake < least) then wake else least

/-- `yield_sw_wait`: the rings as the wait leaves them, the peer to run, and whether nothing can
wake. -/
def yieldSwWait (y : Build) (w : Weather) (myWake : ℕ) (myFd myEvents : ℤ) (meLive : Bool) :
    Sched × Option ℕ × Bool :=
  let (s, woke) := s.wakeParked w (w.clock 1) (fun _ _ => none) false 1
  let peer := if woke ≠ 0 then s.findRunnable y w (w.clock 2) meLive 2 else none
  if peer.isSome then (s, peer, false)
  else
    let sleepers := (cells s.next s.tasks s.hp (s.next s.tasks)).filter fun a => (s.node a).live
    let blocked := s.parkedCells.filter fun a => !(s.node a).held
    let wakes := (sleepers ++ blocked).map fun a => (s.node a).wakeAt.toNat
    let minWake := wakes.foldl sooner myWake
    let nfds := (if 0 ≤ myFd then 1 else 0) +
      (blocked.filter fun a => decide (0 ≤ (s.node a).waitFd)).length
    if minWake = 0 ∧ nfds = 0 then (s, none, true)
    else
      let waits := decide (minWake = 0) || decide (w.clock 3 < minWake)
      let now := if waits then w.clock 4 else w.clock 3
      let polled := if waits && w.gap then w.polled else fun _ _ => none
      if 0 ≤ myFd ∧ (polled myFd myEvents).getD (w.ready 3 myFd myEvents) = true then (s, none, false)
      else
        let s := (s.wakeParked w now polled true 4).1
        (s, s.findRunnable y w now meLive 5, false)

end Sched

/-- What `(quit code)` hands its task. -/
def quitCode : Word → Word
  | .charm n => .charm n
  | _ => .charm 0

/-- What an operation leaves the running task: an answer, its own turn again, another task in
its place, or a scare for its help, which stops the machine when nothing is heard. -/
inductive Outcome where
  | answered (v : Word)
  | stayed
  | switched
  | raised
  | stopped
  deriving DecidableEq, Repr

namespace Sched

variable (s : Sched)

/-- `love_raise`; the scare's two words are left out of the frame. -/
def raise : Sched × Outcome :=
  if (s.node s.tasks).help = .point then (s, .stopped)
  else ({ s with ip := ⟨.code, 0⟩, sp := (s.node s.tasks).help :: s.sp }, .raised)

def clearWait : Sched := { s with nextWakeAt := 0, nextWaitFd := -1, nextWaitEvents := waitIn }

/-- Catch and a task's exit yield without advancing. -/
def stays : Bool := s.ip.ap == .wait || s.ip.ap == .exit

def yieldSwMono : Sched × Outcome :=
  if s.nextWakeAt = 0 ∧ s.nextWaitFd < 0 ∧ s.stays = true then s.raise
  else ({ s.clearWait with yieldCtr := 0 }, .stayed)

/-- The running task's node, written at the top of the heap. -/
def snapshot (y : Build) (next myWake : ℕ) (myFd myEvents : ℤ) : Sched :=
  let me := s.node s.tasks
  let n : Node :=
    { next := next, ip := s.ip, pid := me.pid, wakeAt := y.putcharm myWake, waitFd := myFd,
      events := myEvents, help := me.help, stdio := me.stdio, stack := s.sp }
  { s.clearWait.write s.hp n with hp := s.hp + 1, yieldCtr := 0 }

def run (next : ℕ) : Sched :=
  { s with tasks := next, ip := (s.node next).ip, sp := (s.node next).stack }

/-- The foot of `lvm_yield_sw`: the running task's node `N` goes on the run ring in its old one's
place, or onto the parked ring, and `next` runs. -/
def switchTo (y : Build) (next myWake : ℕ) (myFd myEvents : ℤ) : Sched :=
  let N := s.hp
  let prev := before s.next s.tasks s.hp next
  let s' :=
    if myFd < 0 then (s.snapshot y (s.next s.tasks) myWake myFd myEvents).link prev N
    else
      match s.parked with
      | some h => ((s.snapshot y (s.next h) myWake myFd myEvents).link prev (s.next s.tasks)).link h N
      | none =>
          { (s.snapshot y N myWake myFd myEvents).link prev (s.next s.tasks) with parked := some N }
  s'.run next

def turn (y : Build) (w : Weather) (next myWake : ℕ) (myFd myEvents : ℤ) : Sched × Outcome :=
  if w.room then (s.switchTo y next myWake myFd myEvents, .switched) else s.raise

/-- A yield for fairness reads the clock, and looks at every parked fd, once in a while; any
other reads the clock. -/
def fairSweep (w : Weather) (fair : Bool) : Sched :=
  let s := { s with ticks := s.ticks + fair.toNat, sweepCtr := s.sweepCtr + fair.toNat }
  if fair = true ∧ s.sweepCtr < sweepInterval then s
  else
    let s := { s with clockAt := w.clock 0 }
    if fair = true then
      let s := { s with sweepCtr := 0 }
      if s.parked.isSome = true then s.pollParked w s.clockAt else s
    else s

def lvmYieldSw (y : Build) (w : Weather) : Sched × Outcome :=
  if s.next s.tasks = s.tasks ∧ s.parked = none then s.yieldSwMono
  else
    let meLive := s.ip.ap != .exit
    let myWake := s.nextWakeAt
    let myFd := s.nextWaitFd
    let myEvents := s.nextWaitEvents
    let fair := decide (myWake = 0) && decide (myFd < 0) && !s.stays
    let s := s.fairSweep w fair
    match s.findRunnable y w s.clockAt meLive 6 with
    | some next => s.turn y w next myWake myFd myEvents
    | none =>
        if fair = true then ({ s with yieldCtr := 0 }, .stayed)
        else
          match s.yieldSwWait y w myWake myFd myEvents meLive with
          | (s, some next, _) => s.turn y w next myWake myFd myEvents
          | (s, none, stuck) =>
              if stuck = true ∧ s.stays = true then s.raise
              else
                let yieldCtr := if yieldInterval ≤ s.yieldCtr then 0 else s.yieldCtr
                ({ s.clearWait with yieldCtr := yieldCtr }, .stayed)

/-- `Sp[0] = v, Ip += 1`. -/
def answer (v : Word) : Sched × Outcome :=
  ({ s with sp := v :: s.sp.tail, ip := s.ip.succ }, .answered v)

/-- `Sp[0]`. -/
def arg : Word := s.sp.headD .point

/-- At an instruction. -/
def atInstr (i : Instr) : Sched := { s with ip := { s.ip with ap := i } }

/-- `YieldCheck()`. -/
def yieldCheck (y : Build) (w : Weather) : Sched × Outcome :=
  let s := s.atInstr .code
  if s.next s.tasks ≠ s.tasks ∨ s.parked.isSome = true then
    let s := { s with yieldCtr := s.yieldCtr + 1 }
    if yieldInterval ≤ s.yieldCtr then { s with nextWaitFd := -1, nextWakeAt := 0 }.lvmYieldSw y w
    else (s, .stayed)
  else (s, .stayed)

def lvmYieldNif (y : Build) (w : Weather) : Sched × Outcome := { s with ip := s.ip.succ }.lvmYieldSw y w

/-- An operation on a port that would block: `lvm_fgetc`, `lvm_await` and the like. -/
def park (y : Build) (w : Weather) (fd : ℕ) (events : ℤ) : Sched × Outcome :=
  { s.atInstr .code with nextWaitFd := fd, nextWaitEvents := events }.lvmYieldSw y w

/-- One with no fd to wait on polls by the clock. -/
def poll (y : Build) (w : Weather) : Sched × Outcome :=
  { s.atInstr .code with nextWakeAt := w.clock 7 + 1 }.lvmYieldSw y w

def lvmSleep (y : Build) (w : Weather) : Sched × Outcome :=
  let ms := match s.arg with
    | .charm n => n.toNat
    | _ => 0
  { s with
    sp := .charm 0 :: s.sp.tail
    ip := s.ip.succ
    nextWaitFd := -1
    nextWakeAt := if ms = 0 then 0 else w.clock 7 + ms }.lvmYieldSw y w

/-- The end of a task's code, over its value. -/
def lvmTaskExit (y : Build) (w : Weather) (ret : Word) : Sched × Outcome :=
  { s with ip := ⟨.exit, 0⟩, sp := [ret] }.lvmYieldSw y w

/-- `(quit code)`; the ports it closes are left out. -/
def lvmTaskQuit (y : Build) (w : Weather) : Sched × Outcome :=
  { s with nextWakeAt := 0, nextWaitFd := -1, sp := [quitCode s.arg], ip := ⟨.exit, 0⟩ }.lvmYieldSw y w

def lvmTwirl (room : Bool) : Sched × Outcome :=
  if !room then s.raise
  else
    let N := s.hp
    let pid := s.nextSerial + 1
    let me := s.node s.tasks
    let n : Node :=
      { next := me.next, ip := ⟨.code, 0⟩, pid := pid, wakeAt := 0, waitFd := -1, events := waitIn,
        help := me.help, stdio := me.stdio, stack := [s.sp.tail.headD .point, s.arg] }
    let s := { s.write N n with hp := s.hp + 1, nextSerial := pid }
    let s := s.link s.tasks N
    ({ s with sp := .charm pid :: s.sp.tail.tail, ip := s.ip.succ }, .answered (.charm pid))

/-- The foot of `lvm_wait`: a task blocked on an fd is live too. -/
def waitParked (y : Build) (w : Weather) (target : ℤ) (ret : Word) : Sched × Outcome :=
  match s.parkedFind target with
  | none => s.answer ret
  | some prev =>
      if (s.node (s.next prev)).held then s.answer ret
      else { s with nextWakeAt := 0, nextWaitFd := -1 }.lvmYieldSw y w

/-- A task found by pid in the run ring: unlinked with its value when it has ended. -/
def lvmWait (y : Build) (w : Weather) : Sched × Outcome :=
  let target := y.getcharm s.arg
  let s := s.atInstr .wait
  match s.runFind (s.pidIs target) with
  | none => s.waitParked y w target (.charm 0)
  | some prev =>
      let a := s.next prev
      if (s.node a).ip.ap = .exit then
        (s.link (before s.next a s.hp a) (s.next a)).waitParked y w target (s.node a).top
      else if (s.node a).held then s.waitParked y w target (.charm 0)
      else { s with nextWakeAt := 0, nextWaitFd := -1 }.lvmYieldSw y w

def lvmDonep (y : Build) : Sched × Outcome :=
  let target := y.getcharm s.arg
  match s.runFind (s.pidIs target) with
  | some prev => s.answer (if (s.node (s.next prev)).ip.ap = .exit then .charm 1 else .charm 0)
  | none => s.answer (if (s.parkedFind target).isSome then .charm 0 else .charm 1)

def lvmScoop (room : Bool) : Sched × Outcome :=
  if !room then s.raise
  else match s.runFind fun a => (s.node a).ip.ap == .exit with
    | some prev =>
        let n := s.node (s.next prev)
        (s.link prev n.next).answer (.pair (.charm n.pid) n.top)
    | none => s.answer .point

def lvmHush (y : Build) : Sched × Outcome :=
  let target := y.getcharm s.arg
  match s.runFind (s.pidIs target) with
  | some prev => (s.link prev (s.next (s.next prev))).answer (.charm 1)
  | none =>
      match s.parkedFind target with
      | some prev => (s.parkedDrop prev (s.next prev)).answer (.charm 1)
      | none => s.answer (.charm 0)

/-- `task_node`, never the running task's. -/
def taskNode (pid : ℤ) : Option ℕ :=
  match s.runFind (s.pidIs pid) with
  | some prev => some (s.next prev)
  | none => (s.parkedFind pid).map s.next

/-- `n[3].x = putcharm(-getcharm(n[3].x) - 1)`. -/
def flipWake (a : ℕ) : Sched := s.write a { s.node a with wakeAt := -(s.node a).wakeAt - 1 }

def argNode : Option ℕ :=
  match s.arg with
  | .charm pid => s.taskNode pid
  | _ => none

def lvmPause : Sched × Outcome :=
  match s.argNode with
  | some a => if (s.node a).live then (s.flipWake a).answer (.charm 1) else s.answer .point
  | none => s.answer .point

def lvmResume : Sched × Outcome :=
  match s.argNode with
  | some a => if (s.node a).held then (s.flipWake a).answer (.charm 1) else s.answer .point
  | none => s.answer .point

/-- `(hear f)`. -/
def hear : Sched × Outcome := (s.write s.tasks { s.node s.tasks with help := s.arg }).answer s.arg

end Sched

/-! ## Runs -/

/-- What the running task does next; `compute` is all the code between. -/
inductive Act where
  | compute (addr : ℕ) (sp : List Word)
  | hear
  | twirl (room : Bool)
  | check (w : Weather)
  | yield (w : Weather)
  | park (w : Weather) (fd : ℕ) (events : ℤ)
  | poll (w : Weather)
  | sleep (w : Weather)
  | exit (w : Weather) (ret : Word)
  | quit (w : Weather)
  | wait (w : Weather)
  | donep
  | scoop (room : Bool)
  | hush
  | pause
  | resume

def Sched.step (y : Build) (s : Sched) : Act → Sched × Outcome
  | .compute addr sp => ({ s with ip := ⟨.code, addr⟩, sp := sp }, .stayed)
  | .hear => s.hear
  | .twirl room => s.lvmTwirl room
  | .check w => s.yieldCheck y w
  | .yield w => s.lvmYieldNif y w
  | .park w fd events => s.park y w fd events
  | .poll w => s.poll y w
  | .sleep w => s.lvmSleep y w
  | .exit w ret => s.lvmTaskExit y w ret
  | .quit w => s.lvmTaskQuit y w
  | .wait w => s.lvmWait y w
  | .donep => s.lvmDonep y
  | .scoop room => s.lvmScoop room
  | .hush => s.lvmHush y
  | .pause => s.lvmPause
  | .resume => s.lvmResume

/-- The main task, alone. -/
def boot : Sched where
  node _ :=
    { next := 0, ip := ⟨.code, 0⟩, pid := 0, wakeAt := 0, waitFd := -1, events := waitIn,
      help := .point, stdio := .point, stack := [] }
  hp := 1
  tasks := 0
  parked := none
  nextSerial := 0
  nextWakeAt := 0
  nextWaitFd := -1
  nextWaitEvents := waitIn
  clockAt := 0
  sweepCtr := 0
  yieldCtr := 0
  ticks := 0
  ip := ⟨.code, 0⟩
  sp := []

/-! ## The tasks there should be -/

/-- The tasks that were started and neither hushed nor taken, each with its value once it has
ended. -/
abbrev Ledger := List (ℤ × Option Word)

/-- The task `me` ends. -/
def Ledger.close (L : Ledger) (me : ℤ) (ret : Word) : Ledger :=
  L.map fun e => if e.1 = me then (me, some ret) else e

/-- What an operation of the task `me`, of the argument `arg`, makes of the ledger. -/
def Ledger.after (y : Build) (me : ℤ) (arg : Word) (L : Ledger) : Act → Outcome → Ledger
  | .twirl _, .answered (.charm pid) => (pid, none) :: L
  | .wait _, .answered _ => L.filter fun e => !(e.1 == y.getcharm arg && e.2.isSome)
  | .scoop _, .answered (.pair (.charm pid) _) => L.filter fun e => e.1 != pid
  | .hush, .answered (.charm 1) => L.filter fun e => e.1 != y.getcharm arg
  | .exit _ ret, .switched => L.close me ret
  | .quit _, .switched => L.close me (quitCode arg)
  | _, _ => L

/-- The states of the runs of operations that `P` allows, with the ledger kept beside them. -/
inductive Reached (y : Build) (P : Sched → Act → Prop) : Sched → Ledger → Prop where
  | boot : Reached y P boot [(0, none)]
  | step {s : Sched} {L : Ledger} (h : Reached y P s L) (act : Act) (hact : P s act)
      (hgoes : (s.step y act).2 ≠ .stopped) :
      Reached y P (s.step y act).1 (L.after y (s.node s.tasks).pid s.arg act (s.step y act).2)

end LoveRuntime.Tasks
