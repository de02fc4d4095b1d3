import Utterance.Proofs.Decode.Step

/-!
# Runs

The remaining steps of a decode as a relation.  `Runs` has one constructor for each way in which a
step ends, with all that happens in it, and one for a step that leads to the next; `runs_steps` and
`Runs.eq_steps` say that it is what `steps` computes.  What holds of all runs is proved by induction
on it.

## Key results

- `runs_steps`, `Runs.eq_steps`: a run of the relation is the run of `steps`
- `Runs.cancelled_of_finish`, `Runs.length_of_maxSteps`: when a decode ends as cancelled or at its
  limit
-/

namespace Utterance.Decode

open Sampling (Settings)
open Scores (Sampler Selection)

variable {κ σ : Type} {env : Surroundings κ σ}

/-- The run of a decode that may still take some number of tokens after those that it has. -/
inductive Runs (env : Surroundings κ σ) : Nat → List Token → κ → Sampler → σ → Run σ → Prop
  | exhausted (tokens : List Token) (context : κ) (sampler : Sampler) (world : σ) :
      Runs env 0 tokens context sampler world ⟨.ok ⟨tokens, .maxSteps⟩, [], sampler, world⟩
  | cancelled {n : Nat} (tokens : List Token) (context : κ) (sampler : Sampler) {world : σ}
      (h : env.cancelled world = true) :
      Runs env (n + 1) tokens context sampler world
        ⟨.ok ⟨tokens, .cancelled⟩, [], sampler, world⟩
  | predictFault {n : Nat} (tokens : List Token) {context : κ} (sampler : Sampler)
      {world world' : σ} {reason : String} (hrunning : env.cancelled world = false)
      (hpredict : env.oracle.predict context world = (.error reason, world')) :
      Runs env (n + 1) tokens context sampler world
        ⟨.error (.oracle tokens.length reason), [], sampler, world'⟩
  | scoresFault {n : Nat} (tokens : List Token) {context : κ} (sampler : Sampler)
      {world world' : σ} {scores : Scores} {reason : String}
      (hrunning : env.cancelled world = false)
      (hpredict : env.oracle.predict context world = (.ok scores, world'))
      (hfault : scoresFault scores = some reason) :
      Runs env (n + 1) tokens context sampler world
        ⟨.error (.oracle tokens.length reason), [], sampler, world'⟩
  | noSelection {n : Nat} {tokens : List Token} {context : κ} {sampler sampler' : Sampler}
      {world world' : σ} {scores : Scores}
      (hselects : Selects env tokens context sampler world scores none sampler' world') :
      Runs env (n + 1) tokens context sampler world
        ⟨.error (.oracle tokens.length selectionFault), [], sampler', world'⟩
  | stopToken {n : Nat} {tokens : List Token} {context : κ} {sampler sampler' : Sampler}
      {world world' : σ} {scores : Scores}
      (hselects : Selects env tokens context sampler world scores (some env.settings.stopToken)
        sampler' world') :
      Runs env (n + 1) tokens context sampler world
        ⟨.ok ⟨tokens, .stopToken⟩, [⟨tokens.length, env.settings.stopToken, true⟩], sampler',
          env.observe ⟨tokens.length, env.settings.stopToken, true⟩ world'⟩
  | maxSteps {tokens : List Token} {context : κ} {sampler sampler' : Sampler} {world world' : σ}
      {scores : Scores} {token : Token}
      (hselects : Selects env tokens context sampler world scores (some token) sampler' world')
      (hstop : token ≠ env.settings.stopToken) :
      Runs env 1 tokens context sampler world
        ⟨.ok ⟨tokens ++ [token], .maxSteps⟩, [⟨tokens.length, token, false⟩], sampler',
          env.observe ⟨tokens.length, token, false⟩ world'⟩
  | advanceFault {n : Nat} {tokens : List Token} {context : κ} {sampler sampler' : Sampler}
      {world world' world'' : σ} {scores : Scores} {token : Token} {reason : String}
      (hselects : Selects env tokens context sampler world scores (some token) sampler' world')
      (hstop : token ≠ env.settings.stopToken)
      (hadvance : env.oracle.advance context token
        (env.observe ⟨tokens.length, token, false⟩ world') = (.error reason, world'')) :
      Runs env (n + 2) tokens context sampler world
        ⟨.error (.oracle tokens.length reason), [⟨tokens.length, token, false⟩], sampler', world''⟩
  | step {n : Nat} {tokens : List Token} {context context' : κ} {sampler sampler' : Sampler}
      {world world' world'' : σ} {scores : Scores} {token : Token} {run : Run σ}
      (hselects : Selects env tokens context sampler world scores (some token) sampler' world')
      (hstop : token ≠ env.settings.stopToken)
      (hadvance : env.oracle.advance context token
        (env.observe ⟨tokens.length, token, false⟩ world') = (.ok context', world''))
      (hrest : Runs env (n + 1) (tokens ++ [token]) context' sampler' world'' run) :
      Runs env (n + 2) tokens context sampler world (run.after ⟨tokens.length, token, false⟩)

/-- What `steps` computes is one of the `Runs`. -/
theorem runs_steps (env : Surroundings κ σ) (remaining : Nat) :
    ∀ (tokens : List Token) (context : κ) (sampler : Sampler) (world : σ),
      Runs env remaining tokens context sampler world
        (steps env remaining tokens context sampler world) := by
  induction remaining with
  | zero => exact fun tokens context sampler world => .exhausted tokens context sampler world
  | succ n ih =>
    intro tokens context sampler world
    -- one case for each way in which a step can go, as `step_cases` lists them
    rcases step_cases env tokens context sampler world with hcancelled |
      ⟨reason, world', hrunning, hpredict⟩ | ⟨scores, world', reason, hrunning, hpredict, hfault⟩ |
      ⟨scores, choice, sampler', world', hselects⟩
    · rw [steps_of_cancelled hcancelled]
      exact .cancelled _ _ _ hcancelled
    · rw [steps_of_predict_error hrunning hpredict]
      exact .predictFault _ _ hrunning hpredict
    · rw [steps_of_scoresFault hrunning hpredict hfault]
      exact .scoresFault _ _ hrunning hpredict hfault
    · cases choice with
      | none =>
        rw [steps_of_none hselects]
        exact .noSelection hselects
      | some token =>
        by_cases hstop : token = env.settings.stopToken
        · subst hstop
          rw [steps_of_stop hselects]
          exact .stopToken hselects
        · cases n with
          | zero =>
            rw [steps_of_last hselects hstop]
            exact .maxSteps hselects hstop
          | succ n =>
            -- there is room for another token, so this one is fed back
            cases hadvance : env.oracle.advance context token
                (env.observe ⟨tokens.length, token, false⟩ world') with
            | mk answer world'' =>
              cases answer with
              | error reason =>
                rw [steps_of_advance_error n.succ_ne_zero hselects hstop hadvance]
                exact .advanceFault hselects hstop hadvance
              | ok context' =>
                rw [steps_of_advance_ok n.succ_ne_zero hselects hstop hadvance]
                exact .step hselects hstop hadvance (ih _ _ _ _)

namespace Runs

variable {remaining : Nat} {tokens : List Token} {context : κ} {sampler : Sampler} {world : σ}
  {run : Run σ}

/-- No other run is possible than the one that `steps` computes, by induction on the relation. -/
theorem eq_steps (h : Runs env remaining tokens context sampler world run) :
    run = steps env remaining tokens context sampler world := by
  -- a run is built from the same case distinctions as the recursion
  induction h with
  | exhausted => rfl
  | cancelled _ _ _ h => rw [steps_of_cancelled h]
  | predictFault _ _ hrunning hpredict => rw [steps_of_predict_error hrunning hpredict]
  | scoresFault _ _ hrunning hpredict hfault => rw [steps_of_scoresFault hrunning hpredict hfault]
  | noSelection hselects => rw [steps_of_none hselects]
  | stopToken hselects => rw [steps_of_stop hselects]
  | maxSteps hselects hstop => rw [steps_of_last hselects hstop]
  | advanceFault hselects hstop hadvance =>
    rw [steps_of_advance_error (Nat.succ_ne_zero _) hselects hstop hadvance]
  | step hselects hstop hadvance _ ih =>
    rw [steps_of_advance_ok (Nat.succ_ne_zero _) hselects hstop hadvance, ih]

/-- A run that ends as `cancelled` was cancelled in the world that it leaves behind, which is the
one at the start of its last step. -/
theorem cancelled_of_finish (h : Runs env remaining tokens context sampler world run)
    {out : Output} (hout : run.outcome = .ok out) (hfinish : out.finish = .cancelled) :
    env.cancelled run.world = true := by
  induction h with
  | exhausted | stopToken | maxSteps =>
    cases hout
    cases hfinish
  | cancelled _ _ _ hcancelled => exact hcancelled
  | predictFault | scoresFault | noSelection | advanceFault => cases hout
  | step _ _ _ _ ih => exact ih hout

/-- A run that nothing cancels does not end as `cancelled`: there is no world to be cancelled in. -/
theorem finish (h : Runs env remaining tokens context sampler world run)
    (hrunning : ∀ world, env.cancelled world = false) {out : Output}
    (hout : run.outcome = .ok out) : out.finish ≠ .cancelled := by
  intro hfinish
  have hcancelled := h.cancelled_of_finish hout hfinish
  rw [hrunning] at hcancelled
  cases hcancelled

/-- A decode that reaches its limit has taken as many tokens as it could. -/
theorem length_of_maxSteps (h : Runs env remaining tokens context sampler world run)
    {out : Output} (hout : run.outcome = .ok out) (hfinish : out.finish = .maxSteps) :
    out.tokens.length = tokens.length + remaining := by
  -- only the last step allowed ends with the limit reached
  induction h with
  | exhausted =>
    cases hout
    rfl
  | cancelled | stopToken =>
    cases hout
    cases hfinish
  | predictFault | scoresFault | noSelection | advanceFault => cases hout
  | maxSteps =>
    cases hout
    simp
  | step _ _ _ _ ih =>
    have hlength := ih hout
    simp only [List.length_append, List.length_singleton] at hlength
    omega

end Runs

/-- A decode that nothing cancels does not end as `cancelled`. -/
theorem Decoder.finish_of_decode (d : Decoder) {exp : Float32 → Float32} {oracle : Oracle κ σ}
    {cancelled : σ → Bool} {observe : StepEvent → σ → σ} {context : κ} {world : σ} {out : Output}
    (hrunning : ∀ world, cancelled world = false)
    (hout : (d.decode exp oracle cancelled observe context world).outcome = .ok out) :
    out.finish ≠ .cancelled :=
  (runs_steps ⟨exp, d.settings, oracle, cancelled, observe⟩ d.settings.maxSteps [] context d.sampler
    world).finish hrunning hout

/-! ## Building a decoder -/

section New

variable {settings : Settings} {selection : Selection} {unseeded : Random.Generator}

/-- `Decoder.new` accepts settings in range. -/
theorem Decoder.new_of_valid (valid : settings.Valid) :
    Decoder.new settings selection unseeded =
      .ok ⟨settings, valid, .new selection settings.seed unseeded⟩ := by
  rw [Decoder.new]
  split
  · next fault h => cases h.symm.trans valid
  · rfl

/-- `Decoder.new` accepts only settings in range. -/
theorem Decoder.of_new {d : Decoder} (h : Decoder.new settings selection unseeded = .ok d) :
    ∃ valid, d = ⟨settings, valid, .new selection settings.seed unseeded⟩ := by
  rw [Decoder.new] at h
  split at h
  · cases h
  · next valid =>
    cases h
    exact ⟨valid, rfl⟩

/-- With a seed `Decoder.new` does not look at where words would come from otherwise. -/
theorem Decoder.new_congr {unseeded' : Random.Generator}
    (h : settings.seed = none → unseeded = unseeded') :
    Decoder.new settings selection unseeded = Decoder.new settings selection unseeded' := by
  cases hseed : settings.seed with
  | none => rw [h hseed]
  | some seed => simp only [Decoder.new, Sampler.new, hseed, Option.map_some, Option.getD_some]

end New

end Utterance.Decode
