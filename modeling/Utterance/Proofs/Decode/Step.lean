import Utterance.Decode.Decoder

/-!
# One step of a decode

A step is cancelled, or the prediction fails, or the scores are at fault, or a selection takes place
(`step_cases`).  In each case one equation says what `steps` does next, so that proofs about whole
decodes need not unfold it.
-/

namespace Utterance.Decode

open Sampling (Settings)
open Scores (Sampler)

variable {κ σ : Type}

/-- What the sampler picks from predicted scores after `tokens`. -/
def pick (exp : Float32 → Float32) (settings : Settings) (tokens : List Token) (sampler : Sampler)
    (scores : Scores) : Option Token × Sampler :=
  sampler.select exp
    (Scores.reweigh exp (Scores.stages settings) (settings.startToken :: tokens) scores)

/-- A step that gets as far as a selection. -/
structure Selects (env : Surroundings κ σ) (tokens : List Token) (context : κ) (sampler : Sampler)
    (world : σ) (scores : Scores) (choice : Option Token) (sampler' : Sampler) (world' : σ) :
    Prop where
  running : env.cancelled world = false
  predict : env.oracle.predict context world = (.ok scores, world')
  sound : scoresFault scores = none
  pick : pick env.exp env.settings tokens sampler scores = (choice, sampler')

/-- The four ways in which a step may begin, in the order in which `steps` looks at them. -/
theorem step_cases (env : Surroundings κ σ) (tokens : List Token) (context : κ) (sampler : Sampler)
    (world : σ) :
    env.cancelled world = true ∨
      (∃ reason world', env.cancelled world = false ∧
        env.oracle.predict context world = (.error reason, world')) ∨
      (∃ scores world' reason, env.cancelled world = false ∧
        env.oracle.predict context world = (.ok scores, world') ∧
        scoresFault scores = some reason) ∨
      ∃ scores choice sampler' world',
        Selects env tokens context sampler world scores choice sampler' world' := by
  cases hcancelled : env.cancelled world with
  | true => exact .inl rfl
  | false =>
    right
    -- the oracle is asked only now, and its answer decides the rest
    cases hpredict : env.oracle.predict context world with
    | mk answer world' =>
      cases answer with
      | error reason => exact .inl ⟨reason, world', rfl, rfl⟩
      | ok scores =>
        cases hfault : scoresFault scores with
        | some reason => exact .inr (.inl ⟨scores, world', reason, rfl, rfl, hfault⟩)
        | none => exact .inr (.inr ⟨scores, _, _, world', hcancelled, hpredict, hfault, rfl⟩)

section Equations

variable {env : Surroundings κ σ} {n : Nat} {tokens : List Token} {context : κ} {sampler : Sampler}
  {world : σ} {scores : Scores} {sampler' : Sampler} {world' : σ} {token : Token} {reason : String}

/-- `steps` stops at once when the signal is set. -/
theorem steps_of_cancelled (h : env.cancelled world = true) :
    steps env (n + 1) tokens context sampler world =
      ⟨.ok ⟨tokens, .cancelled⟩, [], sampler, world⟩ := by
  simp only [steps, h, if_true]

/-- `steps` reports the reason of a prediction that fails, with the number of the step. -/
theorem steps_of_predict_error (h : env.cancelled world = false)
    (hpredict : env.oracle.predict context world = (.error reason, world')) :
    steps env (n + 1) tokens context sampler world =
      ⟨.error (.oracle tokens.length reason), [], sampler, world'⟩ := by
  simp only [steps, h, hpredict, Bool.false_eq_true, if_false]

/-- `steps` reports what `scoresFault` says of the scores, with the number of the step. -/
theorem steps_of_scoresFault (h : env.cancelled world = false)
    (hpredict : env.oracle.predict context world = (.ok scores, world'))
    (hfault : scoresFault scores = some reason) :
    steps env (n + 1) tokens context sampler world =
      ⟨.error (.oracle tokens.length reason), [], sampler, world'⟩ := by
  simp only [steps, h, hpredict, hfault, Bool.false_eq_true, if_false]

/-- The wording of a selection that fails. -/
def selectionFault : String :=
  "logits admit no distribution after filtering"

/-- `steps` reports a selection that fails. -/
theorem steps_of_none
    (h : Selects env tokens context sampler world scores none sampler' world') :
    steps env (n + 1) tokens context sampler world =
      ⟨.error (.oracle tokens.length selectionFault), [], sampler', world'⟩ := by
  obtain ⟨hrunning, hpredict, hsound, hpick⟩ := h
  rw [pick] at hpick
  simp only [steps, hrunning, hpredict, hsound, hpick, Bool.false_eq_true, if_false, selectionFault]

/-- `steps` shows the stop token to the observer and leaves it out of what is returned. -/
theorem steps_of_stop
    (h : Selects env tokens context sampler world scores (some env.settings.stopToken) sampler'
      world') :
    steps env (n + 1) tokens context sampler world =
      ⟨.ok ⟨tokens, .stopToken⟩, [⟨tokens.length, env.settings.stopToken, true⟩], sampler',
        env.observe ⟨tokens.length, env.settings.stopToken, true⟩ world'⟩ := by
  obtain ⟨hrunning, hpredict, hsound, hpick⟩ := h
  rw [pick] at hpick
  simp only [steps, hrunning, hpredict, hsound, hpick, Bool.false_eq_true, if_false, if_true,
    beq_self_eq_true]

/-- `steps` shows the last token that fits to the observer, and does not feed it back. -/
theorem steps_of_last
    (h : Selects env tokens context sampler world scores (some token) sampler' world')
    (hstop : token ≠ env.settings.stopToken) :
    steps env 1 tokens context sampler world =
      ⟨.ok ⟨tokens ++ [token], .maxSteps⟩, [⟨tokens.length, token, false⟩], sampler',
        env.observe ⟨tokens.length, token, false⟩ world'⟩ := by
  obtain ⟨hrunning, hpredict, hsound, hpick⟩ := h
  rw [pick] at hpick
  have hbeq : (token == env.settings.stopToken) = false := beq_false_of_ne hstop
  simp only [steps, hrunning, hpredict, hsound, hpick, Bool.false_eq_true, if_false, if_true, hstop,
    hbeq]

/-- `steps` reports the reason of an advance that fails, after the token was shown. -/
theorem steps_of_advance_error {world'' : σ} (hn : n ≠ 0)
    (h : Selects env tokens context sampler world scores (some token) sampler' world')
    (hstop : token ≠ env.settings.stopToken)
    (hadvance : env.oracle.advance context token
      (env.observe ⟨tokens.length, token, false⟩ world') = (.error reason, world'')) :
    steps env (n + 1) tokens context sampler world =
      ⟨.error (.oracle tokens.length reason), [⟨tokens.length, token, false⟩], sampler',
        world''⟩ := by
  obtain ⟨hrunning, hpredict, hsound, hpick⟩ := h
  rw [pick] at hpick
  have hbeq : (token == env.settings.stopToken) = false := beq_false_of_ne hstop
  simp only [steps, hrunning, hpredict, hsound, hpick, Bool.false_eq_true, if_false, hstop, hbeq,
    hn, hadvance, Run.after]

/-- `steps` goes on after an advance that succeeds, with the token in its history. -/
theorem steps_of_advance_ok {context' : κ} {world'' : σ} (hn : n ≠ 0)
    (h : Selects env tokens context sampler world scores (some token) sampler' world')
    (hstop : token ≠ env.settings.stopToken)
    (hadvance : env.oracle.advance context token
      (env.observe ⟨tokens.length, token, false⟩ world') = (.ok context', world'')) :
    steps env (n + 1) tokens context sampler world =
      (steps env n (tokens ++ [token]) context' sampler' world'').after
        ⟨tokens.length, token, false⟩ := by
  obtain ⟨hrunning, hpredict, hsound, hpick⟩ := h
  rw [pick] at hpick
  have hbeq : (token == env.settings.stopToken) = false := beq_false_of_ne hstop
  simp only [steps, hrunning, hpredict, hsound, hpick, Bool.false_eq_true, if_false, hstop, hbeq,
    hn, hadvance]

end Equations

end Utterance.Decode
