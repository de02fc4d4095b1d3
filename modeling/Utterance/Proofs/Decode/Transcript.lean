import Utterance.Proofs.Decode.Run
import Utterance.Proofs.Sampling.Settings
import Utterance.Proofs.Scores.Support

/-!
# Transcripts

A decode is observed through the calls that it makes.  `Surroundings.recorded` notes them down
without disturbing the decode (`Decoder.record_eq`), and `Decoder.transcribes` reads the notes: some
full steps, each a prediction, an event and an advance, and then one of eight endings.
-/

namespace Utterance.Decode

open Sampling (Settings)
open Scores (Sampler Numbers)

variable {κ σ : Type}

/-! ## Recording -/

/-- What a decode does to its `Surroundings`, with the answer that it gets. -/
inductive Act (κ : Type) where
  | predict (context : κ) (answer : Except String Scores)
  | observe (event : StepEvent)
  | advance (context : κ) (token : Token) (answer : Except String κ)

namespace Act

/-- The act is a `predict`: it asks the oracle for scores. -/
def isPredict : Act κ → Bool
  | .predict _ _ => true
  | _ => false

/-- The act is an `advance`: it tells the oracle a token. -/
def isAdvance : Act κ → Bool
  | .advance _ _ _ => true
  | _ => false

/-- The event of an `observe`, if the act is one. -/
def event? : Act κ → Option StepEvent
  | .observe event => some event
  | _ => none

end Act

/-- The events that the observer is told, in order: those of every `observe`. -/
def observed (acts : List (Act κ)) : List StepEvent :=
  acts.filterMap Act.event?

/-- How often the oracle is asked for scores by `predict`. -/
def predicts (acts : List (Act κ)) : ℕ :=
  acts.countP Act.isPredict

/-- How often the oracle is told a token by `advance`. -/
def advances (acts : List (Act κ)) : ℕ :=
  acts.countP Act.isAdvance

/-- The `Oracle`, with every call added to a log together with its answer. -/
def Oracle.recorded (oracle : Oracle κ σ) : Oracle κ (σ × List (Act κ)) where
  predict context world :=
    let reply := oracle.predict context world.1
    (reply.1, reply.2, world.2 ++ [.predict context reply.1])
  advance context token world :=
    let reply := oracle.advance context token world.1
    (reply.1, reply.2, world.2 ++ [.advance context token reply.1])

/-- The observer, with every event added to a log as an `Act`. -/
def recordObserved (observe : StepEvent → σ → σ) (event : StepEvent) (world : σ × List (Act κ)) :
    σ × List (Act κ) :=
  (observe event world.1, world.2 ++ [.observe event])

/-- The `Surroundings` with a log of all that is done to them. -/
def Surroundings.recorded (env : Surroundings κ σ) : Surroundings κ (σ × List (Act κ)) where
  exp := env.exp
  settings := env.settings
  oracle := env.oracle.recorded
  cancelled world := env.cancelled world.1
  observe := recordObserved env.observe

section Recorded

variable {env : Surroundings κ σ} {tokens : List Token} {context : κ} {sampler sampler' : Sampler}
  {world world' : σ} {scores : Scores} {choice : Option Token} (log : List (Act κ))

/-- A recorded `predict` answers as the one beside it, and adds itself to the log. -/
theorem recorded_predict {answer : Except String Scores}
    (h : env.oracle.predict context world = (answer, world')) :
    env.recorded.oracle.predict context (world, log) =
      (answer, world', log ++ [.predict context answer]) := by
  simp only [Surroundings.recorded, Oracle.recorded, h]

/-- A recorded `advance` answers as the one beside it, and adds itself to the log. -/
theorem recorded_advance {token : Token} {answer : Except String κ}
    (h : env.oracle.advance context token world = (answer, world')) :
    env.recorded.oracle.advance context token (world, log) =
      (answer, world', log ++ [.advance context token answer]) := by
  simp only [Surroundings.recorded, Oracle.recorded, h]

/-- `Surroundings.recorded` does not change the settings. -/
theorem recorded_settings (env : Surroundings κ σ) : env.recorded.settings = env.settings :=
  rfl

/-- A recorded `observe` adds its event to the log. -/
theorem recorded_observe (event : StepEvent) :
    env.recorded.observe event (world, log) = (env.observe event world, log ++ [.observe event]) :=
  rfl

/-- What `Selects` beside the log does so with the log, which gets its prediction. -/
theorem Selects.recorded
    (h : Selects env tokens context sampler world scores choice sampler' world') :
    Selects env.recorded tokens context sampler (world, log) scores choice sampler'
      (world', log ++ [.predict context (.ok scores)]) where
  running := h.running
  predict := recorded_predict log h.predict
  sound := h.sound
  pick := h.pick

end Recorded

/-! ## Full steps -/

/-- The scores admit a choice, and the sampler makes it with `pick`. -/
structure Picks (exp : Float32 → Float32) (settings : Settings) (tokens : List Token)
    (sampler : Sampler) (scores : Scores) (choice : Option Token) (sampler' : Sampler) : Prop where
  nonempty : scores ≠ []
  numbers : Numbers scores
  pick_eq : pick exp settings tokens sampler scores = (choice, sampler')

/-- A step that ends with the selected token fed back to the `Oracle`. -/
structure Exchange (κ : Type) where
  context : κ
  scores : Scores
  token : Token
  next : κ

/-- The acts of full steps, numbered from the given step on: `predict`, `observe` and `advance` for
each. -/
def exchangeActs : ℕ → List (Exchange κ) → List (Act κ)
  | _, [] => []
  | step, e :: rest =>
    .predict e.context (.ok e.scores) :: .observe ⟨step, e.token, false⟩ ::
      .advance e.context e.token (.ok e.next) :: exchangeActs (step + 1) rest

/-- The tokens that the steps of an `Exchange` each select. -/
def exchangeTokens (exchanges : List (Exchange κ)) : List Token :=
  exchanges.map (·.token)

/-- Full steps follow one another: each takes the context that the one before was given, `Picks`
with the history up to it, and neither stops nor reaches the limit. -/
inductive Follows (exp : Float32 → Float32) (settings : Settings) :
    List Token → κ → Sampler → List (Exchange κ) → κ → Sampler → Prop
  | nil (tokens : List Token) (context : κ) (sampler : Sampler) :
      Follows exp settings tokens context sampler [] context sampler
  | cons {tokens : List Token} {sampler picked : Sampler} {e : Exchange κ}
      {rest : List (Exchange κ)} {last : κ} {final : Sampler}
      (hpicks : Picks exp settings tokens sampler e.scores (some e.token) picked)
      (hstop : e.token ≠ settings.stopToken) (hlimit : tokens.length + 1 < settings.maxSteps)
      (hrest : Follows exp settings (tokens ++ [e.token]) e.next picked rest last final) :
      Follows exp settings tokens e.context sampler (e :: rest) last final

/-! ## Endings -/

/-- How a decode ends after the full steps that selected `tokens`: what it still does, its outcome,
and the sampler that it leaves behind. -/
inductive Ends (exp : Float32 → Float32) (settings : Settings) (tokens : List Token) (context : κ)
    (sampler : Sampler) : List (Act κ) → Except DecodeFault Output → Sampler → Prop
  | cancelled : Ends exp settings tokens context sampler [] (.ok ⟨tokens, .cancelled⟩) sampler
  | predictFault (reason : String) :
      Ends exp settings tokens context sampler [.predict context (.error reason)]
        (.error (.oracle tokens.length reason)) sampler
  | emptyScores :
      Ends exp settings tokens context sampler [.predict context (.ok [])]
        (.error (.oracle tokens.length "oracle returned empty logits")) sampler
  | undefinedScores {scores : Scores} (h : ∃ x ∈ scores, x.isNaN = true) :
      Ends exp settings tokens context sampler [.predict context (.ok scores)]
        (.error (.oracle tokens.length "oracle returned NaN logits")) sampler
  | noSelection {scores : Scores} {sampler' : Sampler}
      (h : Picks exp settings tokens sampler scores none sampler') :
      Ends exp settings tokens context sampler [.predict context (.ok scores)]
        (.error (.oracle tokens.length selectionFault)) sampler'
  | stopToken {scores : Scores} {sampler' : Sampler}
      (h : Picks exp settings tokens sampler scores (some settings.stopToken) sampler') :
      Ends exp settings tokens context sampler
        [.predict context (.ok scores), .observe ⟨tokens.length, settings.stopToken, true⟩]
        (.ok ⟨tokens, .stopToken⟩) sampler'
  | maxSteps {scores : Scores} {token : Token} {sampler' : Sampler}
      (h : Picks exp settings tokens sampler scores (some token) sampler')
      (hstop : token ≠ settings.stopToken) (hlimit : tokens.length + 1 = settings.maxSteps) :
      Ends exp settings tokens context sampler
        [.predict context (.ok scores), .observe ⟨tokens.length, token, false⟩]
        (.ok ⟨tokens ++ [token], .maxSteps⟩) sampler'
  | advanceFault {scores : Scores} {token : Token} {sampler' : Sampler} (reason : String)
      (h : Picks exp settings tokens sampler scores (some token) sampler')
      (hstop : token ≠ settings.stopToken) (hlimit : tokens.length + 1 < settings.maxSteps) :
      Ends exp settings tokens context sampler
        [.predict context (.ok scores), .observe ⟨tokens.length, token, false⟩,
          .advance context token (.error reason)]
        (.error (.oracle tokens.length reason)) sampler'

/-! ## The transcript of a decode -/

/-- `scoresFault` finds nothing wrong with scores that are there and are numbers. -/
theorem scoresFault_eq_none_iff {scores : Scores} :
    scoresFault scores = none ↔ scores ≠ [] ∧ Numbers scores := by
  -- first the length is looked at, and then each score
  rw [scoresFault]
  split
  · next hempty => exact iff_of_false nofun fun hsound => hsound.1 (List.isEmpty_iff.mp hempty)
  · next hempty =>
    have hne : scores ≠ [] := fun heq => hempty (List.isEmpty_iff.mpr heq)
    rw [and_iff_right hne]
    split
    · next hnan =>
      obtain ⟨x, hx, hxnan⟩ := List.any_eq_true.mp hnan
      refine iff_of_false nofun fun hscores => ?_
      rw [hscores x hx] at hxnan
      cases hxnan
    · next hnan =>
      refine iff_of_true rfl fun x hx => ?_
      exact Bool.eq_false_iff.mpr fun hxnan => hnan (List.any_eq_true.mpr ⟨x, hx, hxnan⟩)

/-- Scores that `scoresFault` objects to end the decode. -/
theorem ends_of_scoresFault {exp : Float32 → Float32} {settings : Settings} {tokens : List Token}
    {context : κ} {sampler : Sampler} {scores : Scores} {reason : String}
    (h : scoresFault scores = some reason) :
    Ends exp settings tokens context sampler [.predict context (.ok scores)]
      (.error (.oracle tokens.length reason)) sampler := by
  -- the two reasons are the two endings
  rw [scoresFault] at h
  split at h
  · next hempty =>
    obtain rfl := List.isEmpty_iff.mp hempty
    obtain rfl := Option.some.inj h
    exact .emptyScores
  · split at h
    · next hnan =>
      obtain rfl := Option.some.inj h
      exact .undefinedScores (List.any_eq_true.mp hnan)
    · cases h

/-- What `Selects` says of a step includes what `Picks` says of its choice. -/
theorem Selects.picks {env : Surroundings κ σ} {tokens : List Token} {context : κ}
    {sampler sampler' : Sampler} {world world' : σ} {scores : Scores} {choice : Option Token}
    (h : Selects env tokens context sampler world scores choice sampler' world') :
    Picks env.exp env.settings tokens sampler scores choice sampler' :=
  have hsound := scoresFault_eq_none_iff.mp h.sound
  ⟨hsound.1, hsound.2, h.pick⟩

/-- The acts are full steps that follow one another and an ending (`Follows`, `Ends`), and account
for the outcome and the events. -/
def Transcribes (exp : Float32 → Float32) (settings : Settings) (tokens : List Token) (context : κ)
    (sampler : Sampler) (acts : List (Act κ)) (outcome : Except DecodeFault Output)
    (events : List StepEvent) (sampler' : Sampler) : Prop :=
  ∃ (exchanges : List (Exchange κ)) (last : κ) (final : Sampler) (ending : List (Act κ)),
    Follows exp settings tokens context sampler exchanges last final ∧
    Ends exp settings (tokens ++ exchangeTokens exchanges) last final ending outcome sampler' ∧
    acts = exchangeActs tokens.length exchanges ++ ending ∧
    events = observed acts

section Transcribes

variable {exp : Float32 → Float32} {settings : Settings} {tokens : List Token} {context : κ}
  {sampler sampler' : Sampler} {acts : List (Act κ)} {outcome : Except DecodeFault Output}
  {events : List StepEvent}

/-- An ending without a full step before it `Transcribes` a decode. -/
theorem Transcribes.of_ends (h : Ends exp settings tokens context sampler acts outcome sampler') :
    Transcribes exp settings tokens context sampler acts outcome (observed acts) sampler' := by
  refine ⟨[], context, sampler, acts, .nil _ _ _, ?_, rfl, rfl⟩
  rwa [exchangeTokens, List.map_nil, List.append_nil]

/-- A full step in front of what `Transcribes` a decode does so as well, as long as it neither stops
nor reaches the limit. -/
theorem Transcribes.cons {e : Exchange κ} {picked : Sampler}
    (hpicks : Picks exp settings tokens sampler e.scores (some e.token) picked)
    (hstop : e.token ≠ settings.stopToken) (hlimit : tokens.length + 1 < settings.maxSteps)
    (h : Transcribes exp settings (tokens ++ [e.token]) e.next picked acts outcome events
      sampler') :
    Transcribes exp settings tokens e.context sampler
      (.predict e.context (.ok e.scores) :: .observe ⟨tokens.length, e.token, false⟩ ::
        .advance e.context e.token (.ok e.next) :: acts)
      outcome (⟨tokens.length, e.token, false⟩ :: events) sampler' := by
  obtain ⟨exchanges, last, final, ending, hfollows, hends, rfl, rfl⟩ := h
  refine ⟨e :: exchanges, last, final, ending, .cons hpicks hstop hlimit hfollows, ?_, ?_, rfl⟩
  · rwa [List.append_assoc, List.singleton_append] at hends
  · rw [List.length_append, List.length_singleton]
    rfl

end Transcribes

/-- A run with a log is the run beside its log, and what the log gets `Transcribes` it.  By
induction on the run, for every log, since a step adds its acts before the rest runs. -/
theorem Runs.transcript {env : Surroundings κ σ} {remaining : ℕ} {tokens : List Token} {context : κ}
    {sampler : Sampler} {world : σ} {run : Run σ}
    (h : Runs env remaining tokens context sampler world run) (log : List (Act κ))
    (hne : remaining ≠ 0) (hlimit : tokens.length + remaining = env.settings.maxSteps) :
    ∃ acts,
      Transcribes env.exp env.settings tokens context sampler acts run.outcome run.events
        run.sampler ∧
      Runs env.recorded remaining tokens context sampler (world, log)
        ⟨run.outcome, run.events, run.sampler, run.world, log ++ acts⟩ := by
  induction h generalizing log with
  | exhausted => exact absurd rfl hne
  | cancelled tokens context sampler hcancelled =>
    refine ⟨[], .of_ends .cancelled, ?_⟩
    rw [List.append_nil]
    exact .cancelled tokens context sampler hcancelled
  | predictFault tokens sampler hrunning hpredict =>
    exact ⟨_, .of_ends (.predictFault _),
      .predictFault tokens sampler hrunning (recorded_predict log hpredict)⟩
  | scoresFault tokens sampler hrunning hpredict hfault =>
    exact ⟨_, .of_ends (ends_of_scoresFault hfault),
      .scoresFault tokens sampler hrunning (recorded_predict log hpredict) hfault⟩
  | noSelection hselects =>
    exact ⟨_, .of_ends (.noSelection hselects.picks), .noSelection (hselects.recorded log)⟩
  | @stopToken n _ _ _ _ _ _ _ hselects =>
    have hrecorded := Runs.stopToken (n := n) (hselects.recorded log)
    simp only [recorded_settings, recorded_observe, List.append_assoc] at hrecorded
    exact ⟨_, .of_ends (.stopToken hselects.picks), hrecorded⟩
  | maxSteps hselects hstop =>
    have hrecorded := Runs.maxSteps (hselects.recorded log) hstop
    simp only [recorded_observe, List.append_assoc] at hrecorded
    exact ⟨_, .of_ends (.maxSteps hselects.picks hstop hlimit), hrecorded⟩
  | @advanceFault n _ _ _ _ _ _ _ _ _ _ hselects hstop hadvance =>
    have hrecorded := Runs.advanceFault (n := n) (hselects.recorded log) hstop
      (recorded_advance _ hadvance)
    simp only [List.append_assoc] at hrecorded
    exact ⟨_, .of_ends (.advanceFault _ hselects.picks hstop (by omega)), hrecorded⟩
  | @step n tokens context context' _ _ _ _ _ scores token _ hselects hstop hadvance _ ih =>
    have hlimit' : (tokens ++ [token]).length + (n + 1) = env.settings.maxSteps := by
      rw [List.length_append, List.length_singleton]
      omega
    -- the log of the rest starts with what this step has added
    obtain ⟨acts, htranscribes, hrest⟩ := ih _ (Nat.succ_ne_zero _) hlimit'
    have hrecorded := Runs.step (hselects.recorded log) hstop (recorded_advance _ hadvance) hrest
    simp only [Run.after, List.append_assoc] at hrecorded
    exact ⟨_, .cons (e := ⟨context, scores, token, context'⟩) hselects.picks hstop (by omega)
      htranscribes, hrecorded⟩

/-! ## Decoders -/

namespace Decoder

variable (d : Decoder) (exp : Float32 → Float32) (oracle : Oracle κ σ) (cancelled : σ → Bool)
  (observe : StepEvent → σ → σ) (context : κ) (world : σ)

/-- A decode with all that it does noted down: `recorded` surroundings and an empty log. -/
def record : Run (σ × List (Act κ)) :=
  d.decode exp oracle.recorded (fun world => cancelled world.1) (recordObserved observe) context
    (world, [])

/-- What a decode does to its surroundings: the log of its `record`. -/
def acts : List (Act κ) :=
  (d.record exp oracle cancelled observe context world).world.2

/-- The acts of a decode are a transcript of it, as `Transcribes` says. -/
theorem transcribes :
    Transcribes exp d.settings [] context d.sampler
      (d.acts exp oracle cancelled observe context world)
      (d.decode exp oracle cancelled observe context world).outcome
      (d.decode exp oracle cancelled observe context world).events
      (d.decode exp oracle cancelled observe context world).sampler := by
  have hsteps : 0 < d.settings.maxSteps := (d.settings.valid_iff.mp d.valid).2.2.2.1
  obtain ⟨acts, htranscribes, hrecord⟩ :=
    (runs_steps ⟨exp, d.settings, oracle, cancelled, observe⟩ d.settings.maxSteps [] context
      d.sampler world).transcript [] hsteps.ne' (Nat.zero_add _)
  have hacts : d.acts exp oracle cancelled observe context world = acts :=
    congrArg (fun run => run.world.2) hrecord.eq_steps.symm
  rwa [hacts]

/-- `record` changes nothing about a decode but its world, which has the log beside it. -/
theorem record_eq :
    d.record exp oracle cancelled observe context world =
      { d.decode exp oracle cancelled observe context world with
        world := ((d.decode exp oracle cancelled observe context world).world,
          d.acts exp oracle cancelled observe context world) } := by
  have hsteps : 0 < d.settings.maxSteps := (d.settings.valid_iff.mp d.valid).2.2.2.1
  obtain ⟨acts, -, hrecord⟩ :=
    (runs_steps ⟨exp, d.settings, oracle, cancelled, observe⟩ d.settings.maxSteps [] context
      d.sampler world).transcript [] hsteps.ne' (Nat.zero_add _)
  have hacts : d.acts exp oracle cancelled observe context world = acts :=
    congrArg (fun run => run.world.2) hrecord.eq_steps.symm
  rw [hacts]
  exact hrecord.eq_steps.symm

end Decoder

end Utterance.Decode
