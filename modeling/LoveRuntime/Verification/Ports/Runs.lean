import LoveRuntime.Model.Ports

/-! What each write does to the stream: what the device has taken and the run behind it. -/

namespace LoveRuntime.Ports

variable {e : Env} {p q : Port} {b : List UInt8}

def Port.stream (p : Port) : List UInt8 := p.taken ++ p.pend

/-- A port without a run holds nothing back, and a sink's string has the size its port says. -/
structure Sound (p : Port) : Prop where
  none : (∀ cap, p.lane ≠ .run (some cap)) → p.pend = []
  size : ∀ cap, p.lane = .sink cap → p.taken.length ≤ cap

/-- From `p` to `q` the stream grows by `s`, unless the device is gone. -/
structure Puts (p q : Port) (s : List UInt8) : Prop where
  gone : p.gone = true → q.gone = true
  stream : q.gone = false → q.stream = p.stream ++ s
  sound : Sound q

theorem Puts.refl (h : Sound p) : Puts p p [] := ⟨id, fun _ => (List.append_nil _).symm, h⟩

theorem Puts.trans {r : Port} {s t : List UInt8} (h : Puts p q s) (h' : Puts q r t) : Puts p r (s ++ t) := by
  refine ⟨fun hg => h'.gone (h.gone hg), fun hg => ?_, h'.sound⟩
  have hq : q.gone = false := by
    cases hq : q.gone with
    | false => rfl
    | true =>
        rw [h'.gone hq] at hg
        cases hg
  rw [h'.stream hg, h.stream hq, List.append_assoc]

/-! ### The device -/

theorem stream_run (p : Port) : p.stream = p.taken ++ p.pend := rfl

/-! ### The run -/

theorem sound_run {cap : ℕ} (h : p.lane = .run (some cap)) : Sound p :=
  ⟨fun hn => absurd h (hn cap), fun c hc => by rw [h] at hc; cases hc⟩

/-- Room made in the run leaves the stream. -/
structure Roomed (p q : Port) (m : ℕ) : Prop where
  pend : q.pend = p.pend
  taken : q.taken = p.taken
  gone : q.gone = p.gone
  fits : q.ok = true → ∃ cap, q.lane = .run (some cap) ∧ p.pend.length + m ≤ cap

/-- Bytes join a run with room for them. -/
theorem Roomed.puts {m : ℕ} {s : List UInt8} (h : Roomed p q m) (hok : q.ok = true) :
    Puts p { q with pend := q.pend ++ s } s := by
  obtain ⟨cap, hcap, -⟩ := h.fits hok
  refine ⟨fun hg => by rw [← hg]; exact h.gone, fun _ => ?_, sound_run hcap⟩
  simp only [stream_run, h.pend, h.taken, List.append_assoc]

theorem Roomed.puts_nil {m : ℕ} (h : Roomed p q m) (hq : Sound q) : Puts p q [] :=
  ⟨fun hg => by rw [← hg]; exact h.gone, fun _ => by simp only [stream_run, h.pend, h.taken, List.append_nil], hq⟩

/-! ### With no run -/

end LoveRuntime.Ports

/-! Instructions on a port, one after the other, each as often as it is re-entered. Until the
device is gone, what it has taken and the run behind it are the bytes put. -/

namespace LoveRuntime.Ports

variable {e : Env} {r : Run}

/-- A port that nothing has been put on. -/
def Fresh (p : Port) : Prop := p.pend = [] ∧ p.taken = [] ∧ p.gone = false ∧ p.ok = true

/-- The moments of a run whose steps are of a kind. -/
inductive Reached (e : Env) (enters : Port → Op → Prop) (turns : Run → Prop) (p : Port) : Run → Prop where
  | start : Reached e enters turns p ⟨p, .idle, []⟩
  | enter {r : Run} (op : Op) : Reached e enters turns p r → r.doing = .idle → enters r.port op →
      Reached e enters turns p (r.enter e op)
  | turn {r : Run} : Reached e enters turns p r → turns r → Reached e enters turns p (r.turn e)

/-- The invariant of the clean steps. -/
structure Kept (r : Run) : Prop where
  sound : Sound r.port
  ok : r.port.ok = true
  stream : r.port.gone = false → r.port.stream = r.put

theorem Puts.kept {p q : Port} {s put : List UInt8} (doing : Doing) (h : Puts p q s) (hok : q.ok = true)
    (hput : p.gone = false → p.stream = put) : Kept ⟨q, doing, put ++ s⟩ := by
  refine ⟨h.sound, hok, fun hg => ?_⟩
  have hp : p.gone = false := by
    cases hp : p.gone with
    | false => rfl
    | true =>
        have := h.gone hp
        simp only at hg
        rw [this] at hg
        cases hg
  rw [h.stream hg, hput hp]

/-- An instruction that ends, raised or not. -/
theorem Puts.over {p q : Port} {s put : List UInt8} (h : Puts p q s) (hput : p.gone = false → p.stream = put) :
    Kept (.over q (put ++ s)) :=
  Puts.kept (q := { q with ok := true }) .idle ⟨h.gone, h.stream, ⟨h.sound.none, h.sound.size⟩⟩ rfl hput

end LoveRuntime.Ports
