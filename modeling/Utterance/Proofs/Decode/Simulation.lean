import Utterance.Proofs.Decode.Run

/-!
# Decodes in related worlds

A decode notices its world only through the answers of the oracle and through the cancellation.  So
decodes in two worlds that are related, stay related and give the same answers as long as they are,
select the same tokens, end in the same way, and leave related worlds behind.

## Key results

- `Runs.alike`: the runs of two such decodes
- `Decoder.decode_alike`: two such decodes by one decoder
- `decodeTokens_alike`: two such decodes by fresh decoders
-/

namespace Utterance.Decode

open Sampling (Settings)
open Scores (Sampler)

variable {α κ σ τ : Type} {R : σ → τ → Prop}

/-- The same answer, in related worlds. -/
def Alike (R : σ → τ → Prop) (reply : α × σ) (reply' : α × τ) : Prop :=
  reply.1 = reply'.1 ∧ R reply.2 reply'.2

/-- An `Alike` reply in the other world has the same answer. -/
theorem Alike.exists_eq {reply : α × σ} {reply' : α × τ} (h : Alike R reply reply') {answer : α}
    {world : σ} (heq : reply = (answer, world)) :
    ∃ world', reply' = (answer, world') ∧ R world world' := by
  subst heq
  exact ⟨reply'.2, Prod.ext h.1.symm rfl, h.2⟩

/-- In related worlds two oracles give the same answers, and leave related worlds. -/
structure Oracle.Alike (R : σ → τ → Prop) (oracle : Oracle κ σ) (oracle' : Oracle κ τ) : Prop where
  predict {world : σ} {world' : τ} (h : R world world') (context : κ) :
    Decode.Alike R (oracle.predict context world) (oracle'.predict context world')
  advance {world : σ} {world' : τ} (h : R world world') (context : κ) (token : Token) :
    Decode.Alike R (oracle.advance context token world) (oracle'.advance context token world')

/-- Runs that differ in nothing but their worlds, which are related. -/
structure Run.Alike (R : σ → τ → Prop) (run : Run σ) (run' : Run τ) : Prop where
  outcome : run.outcome = run'.outcome
  events : run.events = run'.events
  sampler : run.sampler = run'.sampler
  world : R run.world run'.world

/-- An event in front keeps two runs `Alike`. -/
theorem Run.Alike.after {run : Run σ} {run' : Run τ} (h : run.Alike R run') (event : StepEvent) :
    (run.after event).Alike R (run'.after event) where
  outcome := h.outcome
  events := congrArg (event :: ·) h.events
  sampler := h.sampler
  world := h.world

section Steps

variable {exp : Float32 → Float32} {settings : Settings} {oracle : Oracle κ σ}
  {oracle' : Oracle κ τ}
  {cancelled : σ → Bool} {cancelled' : τ → Bool} {observe : StepEvent → σ → σ}
  {observe' : StepEvent → τ → τ}

/-- What the sampler `Selects` in one world it selects in a related one. -/
theorem Selects.alike {tokens : List Token} {context : κ} {sampler sampler' : Sampler}
    {before after : σ} {before' : τ} {scores : Scores} {choice : Option Token}
    (h : Selects ⟨exp, settings, oracle, cancelled, observe⟩ tokens context sampler before scores
      choice sampler' after)
    (horacle : oracle.Alike R oracle') (hcancelled : cancelled before = cancelled' before')
    (hworld : R before before') :
    ∃ after', R after after' ∧
      Selects ⟨exp, settings, oracle', cancelled', observe'⟩ tokens context sampler before' scores
        choice sampler' after' := by
  obtain ⟨hrunning, hpredict, hsound, hpick⟩ := h
  obtain ⟨after', hpredict', hafter⟩ := (horacle.predict hworld context).exists_eq hpredict
  exact ⟨after', hafter, hcancelled.symm.trans hrunning, hpredict', hsound, hpick⟩

variable (horacle : oracle.Alike R oracle')
  (hcancelled : ∀ {world world'}, R world world' → cancelled world = cancelled' world')
  (hobserve : ∀ {world world'}, R world world' → ∀ event,
    R (observe event world) (observe' event world'))

include horacle hcancelled hobserve

/-- `Runs` in related worlds go the same way, by induction on the first of them. -/
theorem Runs.alike {remaining : Nat} {tokens : List Token} {context : κ} {sampler : Sampler}
    {world : σ} {run : Run σ}
    (h : Runs ⟨exp, settings, oracle, cancelled, observe⟩ remaining tokens context sampler world
      run) {world' : τ} (hworld : R world world') :
    ∃ run', run.Alike R run' ∧
      Runs ⟨exp, settings, oracle', cancelled', observe'⟩ remaining tokens context sampler world'
        run' := by
  induction h generalizing world' with
  | exhausted => exact ⟨_, ⟨rfl, rfl, rfl, hworld⟩, .exhausted _ _ _ _⟩
  | cancelled _ _ _ hstop =>
    exact ⟨_, ⟨rfl, rfl, rfl, hworld⟩, .cancelled _ _ _ ((hcancelled hworld).symm.trans hstop)⟩
  | predictFault _ _ hrunning hpredict =>
    obtain ⟨after', hpredict', hafter⟩ := (horacle.predict hworld _).exists_eq hpredict
    exact ⟨_, ⟨rfl, rfl, rfl, hafter⟩,
      .predictFault _ _ ((hcancelled hworld).symm.trans hrunning) hpredict'⟩
  | scoresFault _ _ hrunning hpredict hfault =>
    obtain ⟨after', hpredict', hafter⟩ := (horacle.predict hworld _).exists_eq hpredict
    exact ⟨_, ⟨rfl, rfl, rfl, hafter⟩,
      .scoresFault _ _ ((hcancelled hworld).symm.trans hrunning) hpredict' hfault⟩
  | noSelection hselects =>
    obtain ⟨after', hafter, hselects'⟩ := hselects.alike horacle (hcancelled hworld) hworld
    exact ⟨_, ⟨rfl, rfl, rfl, hafter⟩, .noSelection hselects'⟩
  | stopToken hselects =>
    obtain ⟨after', hafter, hselects'⟩ := hselects.alike horacle (hcancelled hworld) hworld
    exact ⟨_, ⟨rfl, rfl, rfl, hobserve hafter _⟩, .stopToken hselects'⟩
  | maxSteps hselects hstop =>
    obtain ⟨after', hafter, hselects'⟩ := hselects.alike horacle (hcancelled hworld) hworld
    exact ⟨_, ⟨rfl, rfl, rfl, hobserve hafter _⟩, .maxSteps hselects' hstop⟩
  | advanceFault hselects hstop hadvance =>
    obtain ⟨after', hafter, hselects'⟩ := hselects.alike horacle (hcancelled hworld) hworld
    obtain ⟨next', hadvance', hnext⟩ :=
      (horacle.advance (hobserve hafter _) _ _).exists_eq hadvance
    exact ⟨_, ⟨rfl, rfl, rfl, hnext⟩, .advanceFault hselects' hstop hadvance'⟩
  | step hselects hstop hadvance _ ih =>
    -- the worlds are still related when the next step starts
    obtain ⟨after', hafter, hselects'⟩ := hselects.alike horacle (hcancelled hworld) hworld
    obtain ⟨next', hadvance', hnext⟩ :=
      (horacle.advance (hobserve hafter _) _ _).exists_eq hadvance
    obtain ⟨run', halike, hrest'⟩ := ih hnext
    exact ⟨_, halike.after _, .step hselects' hstop hadvance' hrest'⟩

/-- `decode` in related worlds goes the same way. -/
theorem Decoder.decode_alike (d : Decoder) (exp : Float32 → Float32) (context : κ) {world : σ}
    {world' : τ} (hworld : R world world') :
    (d.decode exp oracle cancelled observe context world).Alike R
      (d.decode exp oracle' cancelled' observe' context world') := by
  obtain ⟨run', halike, hruns⟩ :=
    (runs_steps ⟨exp, d.settings, oracle, cancelled, observe⟩ d.settings.maxSteps [] context
      d.sampler world).alike horacle hcancelled hobserve hworld
  rwa [hruns.eq_steps] at halike

end Steps

/-- `decodeTokens` in each of two related worlds gives one outcome.  Without a seed both must take
their words from the same source. -/
theorem decodeTokens_alike {oracle : Oracle κ σ} {oracle' : Oracle κ τ}
    (horacle : oracle.Alike R oracle') (exp : Float32 → Float32) (settings : Settings)
    {unseeded unseeded' : Utterance.Random.Generator}
    (hunseeded : settings.seed = none → unseeded = unseeded') (context : κ) {world : σ} {world' : τ}
    (hworld : R world world') :
    Alike R (decodeTokens exp settings unseeded oracle context world)
      (decodeTokens exp settings unseeded' oracle' context world') := by
  simp only [decodeTokens, Decoder.new_congr hunseeded]
  split
  · exact ⟨rfl, hworld⟩
  · next d _ =>
    have hrun : (d.decode exp oracle (fun _ => false) (fun _ world => world) context world).Alike R
        (d.decode exp oracle' (fun _ => false) (fun _ world => world) context world') :=
      d.decode_alike horacle (fun _ => rfl) (fun h _ => h) exp context hworld
    exact ⟨hrun.outcome, hrun.world⟩

end Utterance.Decode
