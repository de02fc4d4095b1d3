import Utterance.Proofs.Decode.Run
import Utterance.Proofs.Decode.Selection

/-!
# Using a decoder again

The sampler is all that a decode leaves behind in its decoder.  It has moved on by one word for each
event of the decode, if it draws, and not at all otherwise.  So a decoder after some calls is the
one that was built, with as many words taken as the observers of those calls were told events.

## Key results

- `Runs.sampler_eq`: the sampler that a run leaves behind
- `Decoder.afterCalls_eq`: the decoder that some calls leave behind
- `decodes_reuse`: a call of a decoder in use, against one of a decoder that was just built
-/

namespace Utterance.Decode

open Sampling (Settings)
open Scores (Sampler Selection)
open Utterance.Random (Generator)

variable {κ σ : Type} {exp : Float32 → Float32}

/-- The scores that `predict` answers with are never more than there are tokens, which have 32
bits. -/
def Oracle.Sized (oracle : Oracle κ σ) : Prop :=
  ∀ (context : κ) (world : σ) (scores : Scores),
    (oracle.predict context world).1 = .ok scores → scores.length ≤ 2 ^ 32

/-! ## What a run leaves behind -/

section Runs

variable {env : Surroundings κ σ} {tokens : List Token} {context : κ} {sampler : Sampler}
  {world : σ}

/-- Selection in a step takes a word exactly when it succeeds and is random: `skip` does nothing for
a sampler that does not draw. -/
theorem Selects.sampler_cases {scores : Scores} {choice : Option Token} {sampler' : Sampler}
    {world' : σ} (h : Selects env tokens context sampler world scores choice sampler' world')
    (hvalid : env.settings.Valid) (hsized : env.oracle.Sized) :
    (choice = none ∧ sampler' = sampler) ∨ (choice.isSome = true ∧ sampler' = sampler.skip 1) := by
  have hlength : scores.length ≤ 2 ^ 32 := hsized context world scores (congrArg Prod.fst h.predict)
  obtain ⟨-, hscores⟩ := scoresFault_eq_none_iff.mp h.sound
  -- re-weighting keeps the number of scores
  have hnarrows := Scores.reweigh_narrows env.exp (env.settings.startToken :: tokens)
    (Scores.stages_valid hvalid) hscores
  have hpick := h.pick
  rw [Decode.pick] at hpick
  rcases Scores.select_cases env.exp sampler (hnarrows.length_eq.trans_le hlength) with
    hnone | ⟨token, hsome⟩
  · rw [hnone] at hpick
    cases hpick
    exact .inl ⟨rfl, rfl⟩
  · rw [hsome] at hpick
    cases hpick
    exact .inr ⟨rfl, rfl⟩

/-- A run leaves the sampler behind with a word taken for each event, as `Sampler.skip` has it.  By
induction on the run: the steps with an event are those whose selection succeeds. -/
theorem Runs.sampler_eq {remaining : ℕ} {run : Run σ}
    (h : Runs env remaining tokens context sampler world run) (hvalid : env.settings.Valid)
    (hsized : env.oracle.Sized) : run.sampler = sampler.skip run.events.length := by
  -- a step either selects a token and takes a word, or ends the decode without one
  induction h with
  | exhausted | cancelled | predictFault | scoresFault => simp
  | noSelection hselects =>
    rcases hselects.sampler_cases hvalid hsized with ⟨-, rfl⟩ | ⟨hsome, -⟩
    · simp
    · cases hsome
  | stopToken hselects | maxSteps hselects | advanceFault hselects =>
    rcases hselects.sampler_cases hvalid hsized with ⟨hnone, -⟩ | ⟨-, rfl⟩
    · cases hnone
    · rfl
  | step hselects _ _ _ ih =>
    rcases hselects.sampler_cases hvalid hsized with ⟨hnone, -⟩ | ⟨-, rfl⟩
    · cases hnone
    · -- the word of this step and those of the steps after it
      simp only [Run.after, List.length_cons]
      rw [ih, Scores.Sampler.skip_skip, Nat.add_comm]

end Runs

/-! ## Calls -/

/-- A call of `Decoder.decode`: the oracle and its world, who observes and cancels the decode, and
the context to start from. -/
structure Call where
  {κ σ : Type}
  oracle : Oracle κ σ
  cancelled : σ → Bool
  observe : StepEvent → σ → σ
  context : κ
  world : σ

namespace Decoder

variable (d : Decoder) (exp : Float32 → Float32)

/-- What comes of a call: `decode` with its arguments. -/
def call (call : Call) : Run call.σ :=
  d.decode exp call.oracle call.cancelled call.observe call.context call.world

/-- The events that the observer of a `Call` is told. -/
def events (call : Call) : List StepEvent :=
  observed (d.acts exp call.oracle call.cancelled call.observe call.context call.world)

/-- The observer of a `Call` is told the events that its run lists. -/
theorem events_eq (call : Call) : d.events exp call = (d.call exp call).events := by
  obtain ⟨_, _, _, _, -, -, -, hevents⟩ :=
    d.transcribes exp call.oracle call.cancelled call.observe call.context call.world
  exact hevents.symm

/-- The `Decoder` after some calls, each of which leaves its sampler to the next. -/
def afterCalls (calls : List Call) : Decoder :=
  calls.foldl (fun d call => d.after (d.call exp call)) d

/-- How many `events` the observers of some calls are told. -/
def eventCount (exp : Float32 → Float32) : Decoder → List Call → ℕ
  | _, [] => 0
  | d, call :: rest =>
    (d.events exp call).length + eventCount exp (d.after (d.call exp call)) rest

/-- `after` a call the decoder has taken a word for each event, if it draws. -/
theorem after_call {call : Call} (hsized : call.oracle.Sized) :
    d.after (d.call exp call) =
      { d with sampler := d.sampler.skip (d.events exp call).length } := by
  have hruns := runs_steps ⟨exp, d.settings, call.oracle, call.cancelled, call.observe⟩
    d.settings.maxSteps [] call.context d.sampler call.world
  rw [events_eq, after, show (d.call exp call).sampler = _ from hruns.sampler_eq d.valid hsized]
  rfl

/-- `afterCalls` leaves the decoder with a word taken for each event, if it draws. -/
theorem afterCalls_eq (calls : List Call) (hsized : ∀ call ∈ calls, call.oracle.Sized) :
    d.afterCalls exp calls =
      { d with sampler := d.sampler.skip (d.eventCount exp calls) } := by
  -- the decoder is arbitrary, since the later calls start from what the first one leaves
  induction calls generalizing d with
  | nil => simp [afterCalls, eventCount]
  | cons call rest ih =>
    obtain ⟨hcall, hrest⟩ := List.forall_mem_cons.mp hsized
    have hafter := ih (d.after (d.call exp call)) hrest
    rw [afterCalls, List.foldl_cons, eventCount]
    rw [afterCalls] at hafter
    rw [hafter, d.after_call exp hcall, Scores.Sampler.skip_skip]

end Decoder

/-! ## A decoder in use -/

/-- The decoder with the next `n` words taken, whether it draws or not. -/
def Decoder.skip (d : Decoder) (n : ℕ) : Decoder :=
  { d with sampler := { d.sampler with generator := d.sampler.generator.skip n } }

/-- A `Decoder` with a seed, after any calls, has taken one word for each event that their observers
were told, if it draws, and none otherwise.  So its next call is that of any decoder built from the
same settings with those words taken first.  A selection that fails takes no word. -/
theorem decodes_reuse (exp : Float32 → Float32) {settings : Settings} {seed : UInt64}
    (hseed : settings.seed = some seed) (selection : Selection) {unseeded : Generator} {d : Decoder}
    (hnew : Decoder.new settings selection unseeded = .ok d) (calls : List Call)
    (hsized : ∀ call ∈ calls, call.oracle.Sized) :
    let reused := d.afterCalls exp calls
    let words := if selection = .multinomial then d.eventCount exp calls else 0
    reused.sampler.generator = { Generator.ofSeed seed with position := words } ∧
      (∀ (unseeded' : Generator) (fresh : Decoder),
        Decoder.new settings selection unseeded' = .ok fresh → ∀ call : Call,
          reused.call exp call = (fresh.skip words).call exp call ∧
            (selection = .argMax → reused.call exp call = fresh.call exp call)) ∧
      (∀ (s : Sampler) (scores : Scores), scores.length ≤ 2 ^ 32 →
        (s.select exp scores).1 = none → (s.select exp scores).2 = s) := by
  intro reused words
  have hreused : reused = { d with sampler := d.sampler.skip (d.eventCount exp calls) } :=
    d.afterCalls_eq exp calls hsized
  obtain ⟨valid, hd⟩ := Decoder.of_new hnew
  -- with a seed it does not matter where words would come from otherwise
  have hfresh : ∀ unseeded' : Generator,
      reused = Decoder.skip ⟨settings, valid, .new selection settings.seed unseeded'⟩ words := by
    intro unseeded'
    rw [hreused]
    cases selection with
    | multinomial => simp [words, hd, Decoder.skip, Sampler.new, Sampler.skip, hseed]
    | argMax => simp [words, hd, Decoder.skip, Sampler.new, Sampler.skip, hseed, Generator.skip]
  refine ⟨?_, fun unseeded' fresh hnew' call => ?_, fun s scores hlength hnone => ?_⟩
  · rw [hfresh unseeded]
    simp [Decoder.skip, Sampler.new, hseed, Generator.skip_eq, Generator.ofSeed]
  · obtain ⟨valid', rfl⟩ := Decoder.of_new hnew'
    refine ⟨by rw [hfresh unseeded'], fun hselection => ?_⟩
    have hwords : words = 0 := if_neg (by rw [hselection]; decide)
    rw [hfresh unseeded', hwords]
    rfl
  · rcases Scores.select_cases exp s hlength with hselect | ⟨token, hselect⟩
    · rw [hselect]
    · rw [hselect] at hnone
      cases hnone

/-- A `Call` that draws a token and then fails takes one word. -/
theorem decodes_reuse_after_fault :
    ∃ d, Decoder.new { greedy.settings with seed := some 7 } .multinomial greedy.sampler.generator =
        .ok d ∧
      let call : Call := ⟨replay [[0]], fun _ => false, fun _ world => world, 0, ()⟩
      (d.call coarseExp call).outcome = .error (.oracle 1 "no frame left") ∧
        (d.afterCalls coarseExp [call]).sampler.generator =
          { Generator.ofSeed 7 with position := 1 } := by
  have hnew : Decoder.new { greedy.settings with seed := some 7 } .multinomial
      greedy.sampler.generator = .ok _ := Decoder.new_of_valid (by decide)
  refine ⟨_, hnew, by decide +kernel, ?_⟩
  have hsized : ∀ call ∈ [(⟨replay [[0]], fun _ => false, fun _ world => world, 0, ()⟩ : Call)],
      call.oracle.Sized := by
    intro call hcall context world scores hpredict
    obtain rfl := List.mem_singleton.mp hcall
    -- the one frame has one score
    rcases context with _ | context
    · cases hpredict
      decide
    · cases hpredict
  obtain ⟨hgenerator, -⟩ := decodes_reuse coarseExp rfl .multinomial hnew _ hsized
  rw [hgenerator]
  decide +kernel

end Utterance.Decode
