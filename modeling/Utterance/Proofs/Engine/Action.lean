import Mathlib.Data.Nat.Notation
import Utterance.Engine.Speaker

/-!
# Actions of an engine

An action that succeeds has parts that succeed one after the other.  With a backend whose runs are
noted down, an engine does what it does without.

## Key results

- `bind_eq_ok_iff`, `lift_eq_ok_iff`: the parts of an action that succeeds
- `Backend.recorded`: the backend with a log of its runs
- `Shadows.bind`, `Shadows.call`: what differs in a log only, as a whole and in its parts
-/

namespace Utterance.Engine

variable {ς σ τ α β : Type}

/-- What `>>=` binds succeeds exactly if its parts do, one after the other. -/
theorem bind_ok_iff {x : Except SpeechFault α} {f : α → Except SpeechFault β} {b : β} :
    (x >>= f) = .ok b ↔ ∃ a, x = .ok a ∧ f a = .ok b := by
  cases x with
  | error fault => exact iff_of_false nofun (by simp)
  | ok a =>
    refine ⟨fun h => ⟨a, rfl, h⟩, ?_⟩
    rintro ⟨_, ⟨⟩, h⟩
    exact h

namespace Action

/-- What comes of an `Action`, and the world after it. -/
def perform (x : Action σ α) (world : σ) : Except SpeechFault α × σ :=
  x.run.run world

variable {world last : σ}

/-- `perform` of a result leaves the world as it is. -/
theorem perform_pure (a : α) (world : σ) : (pure a : Action σ α).perform world = (.ok a, world) :=
  rfl

/-- `perform` of a lifted outcome is that outcome, in the same world. -/
theorem perform_lift (x : Except SpeechFault α) (world : σ) :
    (liftM x : Action σ α).perform world = (x, world) :=
  rfl

/-- `perform` goes on with the second action after the first, if that succeeds. -/
theorem perform_bind (x : Action σ α) (f : α → Action σ β) (world : σ) :
    (x >>= f).perform world =
      match x.perform world with
      | (.ok a, middle) => (f a).perform middle
      | (.error fault, middle) => (.error fault, middle) := by
  simp only [perform, ExceptT.run_bind, StateT.run_bind]
  generalize (x.run.run world : Except SpeechFault α × σ) = reply
  obtain ⟨fault | a, middle⟩ := reply <;> rfl

/-- `perform` of two actions bound by `>>=` succeeds exactly if both do, the second in the world
that the first has left. -/
theorem bind_eq_ok_iff {x : Action σ α} {f : α → Action σ β} {b : β} :
    (x >>= f).perform world = (.ok b, last) ↔
      ∃ a middle, x.perform world = (.ok a, middle) ∧ (f a).perform middle = (.ok b, last) := by
  rw [perform_bind]
  obtain ⟨fault | a, middle⟩ := x.perform world
  · simp
  · refine ⟨fun h => ⟨a, middle, rfl, h⟩, ?_⟩
    rintro ⟨_, _, ⟨⟩, h⟩
    exact h

/-- `perform` of an outcome that `liftM` lifts succeeds exactly if the outcome is a success, and
leaves the world as it is. -/
theorem lift_eq_ok_iff {x : Except SpeechFault α} {a : α} :
    (liftM x : Action σ α).perform world = (.ok a, last) ↔ x = .ok a ∧ world = last := by
  rw [perform_lift, Prod.mk.injEq]

/-- `pure` succeeds with its value and leaves the world as it is. -/
theorem pure_eq_ok_iff {a b : α} :
    (pure a : Action σ α).perform world = (.ok b, last) ↔ a = b ∧ world = last := by
  rw [perform_pure, Prod.mk.injEq, Except.ok.injEq]

end Action

namespace Backend

/-- `Backend.call` is the run of the graph, with the name of the graph in its fault. -/
theorem perform_call (r : Backend ς σ) (graph : Graph) (session : ς) (inputs : Named) (world : σ) :
    (r.call graph session inputs).perform world =
      ((r.run session inputs world).1.mapError fun reason =>
        .synthesis (graph.name ++ " inference failed: " ++ reason),
        (r.run session inputs world).2) := by
  change r.call graph session inputs world = _
  rw [call]
  obtain ⟨outcome, last⟩ := r.run session inputs world
  cases outcome <;> rfl

/-- `Backend.call` succeeds exactly if the run does, with the same outputs. -/
theorem call_eq_ok_iff {r : Backend ς σ} {graph : Graph} {session : ς} {inputs outputs : Named}
    {world last : σ} :
    (r.call graph session inputs).perform world = (.ok outputs, last) ↔
      r.run session inputs world = (.ok outputs, last) := by
  rw [perform_call]
  obtain ⟨reason | answer, last'⟩ := r.run session inputs world
  · exact iff_of_false nofun nofun
  · change (Except.ok answer, last') = _ ↔ _
    rw [Prod.mk.injEq, Prod.mk.injEq, Except.ok.injEq, Except.ok.injEq]

/-- `Backend.build` succeeds exactly if the backend takes the shape, and changes nothing. -/
theorem build_eq_ok_iff {r : Backend ς σ} {what : String} {t built : AnyTensor} :
    r.build what t = .ok built ↔ r.accepts t.shape = true ∧ t = built := by
  rw [build]
  split <;> simp_all

end Backend

/-! ## Logs -/

/-- A run of a graph by `Backend.run`: its session, its inputs and what came of it. -/
structure GraphRun (ς : Type) where
  session : ς
  inputs : Named
  answer : Except String Named

/-- The `Backend`, with every run added to a log. -/
def Backend.recorded (r : Backend ς σ) : Backend ς (σ × List (GraphRun ς)) where
  load path threads world :=
    let reply := r.load path threads world.1
    (reply.1, reply.2, world.2)
  run session inputs world :=
    let reply := r.run session inputs world.1
    (reply.1, reply.2, world.2 ++ [⟨session, inputs, reply.1⟩])
  tokenizer path world :=
    let reply := r.tokenizer path world.1
    (reply.1, reply.2, world.2)
  accepts := r.accepts

/-- An `Action` in a world with a log does what another one does without the log. -/
def Shadows (x' : Action (σ × τ) α) (x : Action σ α) : Prop :=
  ∀ world log, (x'.perform (world, log)).1 = (x.perform world).1 ∧
    (x'.perform (world, log)).2.1 = (x.perform world).2

namespace Shadows

/-- `pure` shadows itself. -/
theorem pure (a : α) : Shadows (pure a : Action (σ × τ) α) (pure a) :=
  fun _ _ => ⟨rfl, rfl⟩

/-- An outcome that `liftM` lifts shadows itself. -/
theorem lift (x : Except SpeechFault α) : Shadows (liftM x : Action (σ × τ) α) (liftM x) :=
  fun _ _ => ⟨rfl, rfl⟩

/-- What `Shadows` other actions does so when bound by `>>=`. -/
theorem bind {x' : Action (σ × τ) α} {x : Action σ α} {f' : α → Action (σ × τ) β}
    {f : α → Action σ β} (h : Shadows x' x) (hf : ∀ a, Shadows (f' a) (f a)) :
    Shadows (x' >>= f') (x >>= f) := by
  intro world log
  obtain ⟨houtcome, hworld⟩ := h world log
  rw [Action.perform_bind, Action.perform_bind]
  -- only outcomes and worlds matter, so the replies are taken as they come
  generalize x'.perform (world, log) = reply' at houtcome hworld ⊢
  generalize x.perform world = reply at houtcome hworld ⊢
  obtain ⟨outcome', middle', log'⟩ := reply'
  obtain ⟨outcome, middle⟩ := reply
  obtain rfl : outcome' = outcome := houtcome
  obtain rfl : middle' = middle := hworld
  cases outcome' with
  | error fault => exact ⟨rfl, rfl⟩
  | ok a => exact hf a middle' log'

/-- A run of `Backend.recorded` shadows the run without a log. -/
theorem call (r : Backend ς σ) (graph : Graph) (session : ς) (inputs : Named) :
    Shadows (r.recorded.call graph session inputs) (r.call graph session inputs) := by
  intro world log
  rw [Backend.perform_call, Backend.perform_call]
  exact ⟨rfl, rfl⟩

end Shadows

variable (r : Backend ς σ) (e : Engine ς)

/-- `embed` shadows itself under a log. -/
theorem shadows_embed (ids : List Int) : Shadows (embed r.recorded e ids) (embed r e ids) := by
  unfold embed
  refine .bind (.lift _) fun _ => .bind (.call r _ _ _) fun _ => .bind (.lift _) fun _ => .lift _

/-- `feed` shadows itself under a log, whichever output has the scores. -/
theorem shadows_feed (rows : Tensor Float32) (past : Named) (attended first count : ℕ) :
    Shadows (feed r.recorded e rows past attended first count)
      (feed r e rows past attended first count) := by
  -- the three lifts check the inputs before the run, and what follows reads its outputs
  unfold feed
  refine .bind (.lift _) fun _ => .bind (.lift _) fun _ => .bind (.lift _) fun _ =>
    .bind (.call r _ _ _) fun outputs => ?_
  cases outputs.lookup "logits" with
  | some scored =>
    exact .bind (.pure scored) fun _ => .bind (.lift _) fun _ => .bind (.lift _) fun _ =>
      .bind (.lift _) fun _ => .pure _
  | none =>
    exact .bind (.lift _) fun _ => .bind (.lift _) fun _ => .bind (.lift _) fun _ =>
      .bind (.lift _) fun _ => .pure _

/-- `advance` shadows itself under a log. -/
theorem shadows_advance (context : Context) (token : Token) :
    Shadows (advance r.recorded e context token) (advance r e context token) := by
  unfold advance
  exact .bind (shadows_embed r e _) fun _ => shadows_feed r e _ _ _ _ _

/-- `prefill` shadows itself under a log. -/
theorem shadows_prefill (text : String) (start : Token) :
    Shadows (prefill r.recorded e text start) (prefill r e text start) := by
  unfold prefill
  exact .bind (.lift _) fun _ => .bind (shadows_embed r e _) fun _ => .bind (.lift _) fun _ =>
    .bind (.lift _) fun _ => shadows_feed r e _ _ _ _ _

end Utterance.Engine
