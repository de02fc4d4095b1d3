import Utterance.Proofs.Decode.Transcript

/-!
# The protocol of a decode

What comes out of a decode (`decode_output`) and which calls it makes on the way (`decode_calls`),
for every oracle, observer and cancellation.  Both are read off the transcript: full steps
contribute one prediction, one event and one advance each, and the ending the rest.
-/

namespace Utterance.Decode

open Sampling (Settings)
open Scores (Sampler Numbers)

variable {κ σ : Type} {exp : Float32 → Float32} {settings : Settings}

/-! ## Counting acts -/

section Counting

variable (acts acts' : List (Act κ))

/-- `observed` lists the events of the first acts and then those of the others. -/
@[simp] theorem observed_append : observed (acts ++ acts') = observed acts ++ observed acts' :=
  List.filterMap_append

/-- Each full step shows the observer its token, which `observed` lists with its number. -/
theorem observed_exchangeActs (step : ℕ) (exchanges : List (Exchange κ)) :
    observed (exchangeActs step exchanges) =
      (exchangeTokens exchanges).mapIdx fun i token => ⟨step + i, token, false⟩ := by
  induction exchanges generalizing step with
  | nil => rfl
  | cons e rest ih =>
    have hrest := ih (step + 1)
    simp only [observed] at hrest
    simp only [observed, exchangeActs, exchangeTokens, List.map_cons, List.mapIdx_cons,
      List.filterMap_cons, Act.event?, hrest, Nat.add_zero, Nat.add_assoc, Nat.add_comm 1]

/-- `exchangeActs` has one act of a kind for each full step, if a single full step has one. -/
theorem countP_exchangeActs {kind : Act κ → Bool}
    (hkind : ∀ step e, (exchangeActs step [e]).countP kind = 1) (step : ℕ)
    (exchanges : List (Exchange κ)) :
    (exchangeActs step exchanges).countP kind = exchanges.length := by
  induction exchanges generalizing step with
  | nil => rfl
  | cons e rest ih =>
    have hsplit : exchangeActs step (e :: rest) =
        exchangeActs step [e] ++ exchangeActs (step + 1) rest := rfl
    rw [hsplit, List.countP_append, hkind, ih, List.length_cons, Nat.add_comm]

/-- What `predicts` and `advances` count: one each for a full step, and those of the ending. -/
theorem calls_exchangeActs_append (step : ℕ) (exchanges : List (Exchange κ))
    (ending : List (Act κ)) :
    predicts (exchangeActs step exchanges ++ ending) = exchanges.length + predicts ending ∧
      advances (exchangeActs step exchanges ++ ending) = exchanges.length + advances ending := by
  rw [predicts, advances, List.countP_append, List.countP_append,
    countP_exchangeActs fun _ _ => rfl, countP_exchangeActs fun _ _ => rfl]
  exact ⟨rfl, rfl⟩

end Counting

/-! ## Full steps and endings -/

section Follows

variable {tokens : List Token} {context last : κ} {sampler final : Sampler}
  {exchanges : List (Exchange κ)}

/-- Full steps do not select the stop token: each step of `Follows` excludes it. -/
theorem Follows.stop_notMem
    (h : Follows exp settings tokens context sampler exchanges last final) :
    settings.stopToken ∉ exchangeTokens exchanges := by
  induction h with
  | nil => exact List.not_mem_nil
  | cons _ hstop _ _ ih =>
    rw [exchangeTokens, List.map_cons, List.mem_cons, not_or]
    exact ⟨Ne.symm hstop, ih⟩

/-- Full steps leave room for one more token: each step of `Follows` is below the limit. -/
theorem Follows.length_lt
    (h : Follows exp settings tokens context sampler exchanges last final)
    (hlt : tokens.length < settings.maxSteps) :
    tokens.length + exchanges.length < settings.maxSteps := by
  induction h with
  | nil => exact hlt
  | @cons tokens _ _ e rest _ _ _ _ hlimit _ ih =>
    have hrest := ih (by rwa [List.length_append, List.length_singleton])
    rw [List.length_append, List.length_singleton] at hrest
    rw [List.length_cons]
    omega

end Follows

/-- The oracle answered the act, and with scores that are numbers if it was asked for scores. -/
def Act.Sound : Act κ → Prop
  | .predict _ answer => ∃ scores, answer = .ok scores ∧ scores ≠ [] ∧ Numbers scores
  | .observe _ => True
  | .advance _ _ answer => ∃ next, answer = .ok next

/-- The scores that a token `Picks` from are a sound answer. -/
theorem Picks.sound {tokens : List Token} {sampler sampler' : Sampler} {scores : Scores}
    {choice : Option Token} (h : Picks exp settings tokens sampler scores choice sampler')
    (context : κ) : (Act.predict context (.ok scores)).Sound :=
  ⟨scores, rfl, h.nonempty, h.numbers⟩

/-- Full steps get nothing but `Sound` answers. -/
theorem Follows.sound {tokens : List Token} {context last : κ} {sampler final : Sampler}
    {exchanges : List (Exchange κ)}
    (h : Follows exp settings tokens context sampler exchanges last final) (step : ℕ) :
    ∀ act ∈ exchangeActs step exchanges, act.Sound := by
  induction h generalizing step with
  | nil => exact fun _ hact => absurd hact List.not_mem_nil
  | @cons _ _ _ e _ _ _ hpicks _ _ _ ih =>
    simp only [exchangeActs, List.forall_mem_cons]
    exact ⟨hpicks.sound e.context, trivial, ⟨e.next, rfl⟩, ih (step + 1)⟩

/-- Only the last act of an ending gets an answer that is not `Sound`. -/
theorem Ends.sound {tokens : List Token} {context : κ} {sampler sampler' : Sampler}
    {ending : List (Act κ)} {outcome : Except DecodeFault Output}
    (h : Ends exp settings tokens context sampler ending outcome sampler') :
    ∀ act ∈ ending.dropLast, act.Sound := by
  cases h with
  | cancelled | predictFault | emptyScores | undefinedScores | noSelection =>
    exact fun _ hact => absurd hact List.not_mem_nil
  | stopToken hpicks | maxSteps hpicks =>
    exact List.forall_mem_singleton.mpr (hpicks.sound context)
  | advanceFault _ hpicks =>
    exact List.forall_mem_cons.mpr ⟨hpicks.sound context, List.forall_mem_singleton.mpr trivial⟩

section Transcribes

variable {context : κ} {sampler sampler' : Sampler} {acts : List (Act κ)} {events : List StepEvent}

/-- `exchangeTokens` has one token for each full step. -/
theorem length_exchangeTokens (exchanges : List (Exchange κ)) :
    (exchangeTokens exchanges).length = exchanges.length :=
  List.length_map _

/-- No call follows an answer that is not `Sound`. -/
theorem Transcribes.sound {tokens : List Token} {outcome : Except DecodeFault Output}
    (h : Transcribes exp settings tokens context sampler acts outcome events sampler') :
    ∀ act ∈ acts.dropLast, act.Sound := by
  obtain ⟨exchanges, last, final, ending, hfollows, hends, rfl, -⟩ := h
  intro act hact
  -- without an ending the last act is an advance of the last full step
  by_cases hnil : ending = []
  · rw [hnil, List.append_nil] at hact
    exact hfollows.sound _ act (List.mem_of_mem_dropLast hact)
  · rw [List.dropLast_append_of_ne_nil hnil] at hact
    exact (List.mem_append.mp hact).elim (hfollows.sound _ act) (hends.sound act)

/-- How often a decode that succeeds `predicts` and `advances`. -/
theorem Transcribes.calls_of_ok {out : Output}
    (h : Transcribes exp settings [] context sampler acts (.ok out) events sampler') :
    match out.finish with
    | .stopToken => predicts acts = out.tokens.length + 1 ∧ advances acts = out.tokens.length
    | .maxSteps => predicts acts = out.tokens.length ∧ advances acts + 1 = out.tokens.length
    | .cancelled => predicts acts = out.tokens.length ∧ advances acts = out.tokens.length := by
  obtain ⟨exchanges, last, final, ending, -, hends, rfl, -⟩ := h
  have htokens := length_exchangeTokens exchanges
  rw [List.nil_append] at hends
  obtain ⟨hpredicts, hadvances⟩ := calls_exchangeActs_append 0 exchanges ending
  rw [List.length_nil, hpredicts, hadvances]
  -- of the endings only the stop token costs a prediction that is not followed by an advance
  cases hends with
  | cancelled => exact ⟨htokens.symm, htokens.symm⟩
  | stopToken => exact ⟨congrArg (· + 1) htokens.symm, htokens.symm⟩
  | maxSteps =>
    rw [List.length_append, htokens]
    exact ⟨rfl, rfl⟩

/-- Where a decode fails, and how often it `predicts` and `advances` by then. -/
theorem Transcribes.calls_of_error {fault : DecodeFault}
    (h : Transcribes exp settings [] context sampler acts (.error fault) events sampler') :
    ∃ step reason, fault = .oracle step reason ∧ predicts acts = step + 1 ∧
      ((advances acts = step ∧ (observed acts).length = step ∧ ∃ last answer,
          acts.getLast? = some (.predict last answer) ∧
            ∀ message, answer = .error message → reason = message) ∨
        (advances acts = step + 1 ∧ (observed acts).length = step + 1 ∧ ∃ last token,
          acts.getLast? = some (.advance last token (.error reason)))) := by
  obtain ⟨exchanges, last, final, ending, -, hends, rfl, -⟩ := h
  have htokens := length_exchangeTokens exchanges
  have hnext := congrArg (· + 1) htokens.symm
  have hobserved : (observed (exchangeActs 0 exchanges)).length = exchanges.length := by
    rw [observed_exchangeActs, List.length_mapIdx, htokens]
  rw [List.nil_append] at hends
  obtain ⟨hpredicts, hadvances⟩ := calls_exchangeActs_append 0 exchanges ending
  rw [List.length_nil, hpredicts, hadvances, observed_append, List.length_append, hobserved,
    List.getLast?_append]
  -- only a failed advance comes after the event of its step
  cases hends with
  | predictFault reason =>
    refine ⟨_, reason, rfl, hnext, .inl ⟨htokens.symm, htokens.symm, last, _, rfl, ?_⟩⟩
    exact fun _ hanswer => Except.error.inj hanswer
  | emptyScores | undefinedScores | noSelection =>
    exact ⟨_, _, rfl, hnext, .inl ⟨htokens.symm, htokens.symm, last, _, rfl, nofun⟩⟩
  | advanceFault reason =>
    exact ⟨_, reason, rfl, hnext, .inr ⟨hnext, hnext, last, _, rfl⟩⟩

end Transcribes

/-! ## What comes out -/

/-- An oracle that shows the score vectors one after the other, and fails when none is left. -/
def replay (frames : List Scores) : Oracle ℕ Unit where
  predict position world := ((frames[position]?).elim (.error "no frame left") .ok, world)
  advance position _ world := (.ok (position + 1), world)

/-- A decoder for three steps that takes the highest score as it is, by `argMax`. -/
def greedy : Decoder where
  settings := {
    temperature := 1
    topK := 0
    topP := 1
    repetitionPenalty := 1
    maxSteps := 3
    startToken := 0
    stopToken := 1
  }
  valid := by decide
  sampler := ⟨.argMax, ⟨⟨⟨0, 0, 0, 0⟩, ⟨0, 0, 0, 0⟩⟩, 0⟩⟩

section Decodes

variable (d : Decoder) (exp) (oracle : Oracle κ σ) (cancelled : σ → Bool)
  (observe : StepEvent → σ → σ) (context : κ) (world : σ)

/-- A decode that succeeds respects the limit and leaves out the stop token, it reports the limit
exactly when it reached it, and its observer has seen the tokens in order and then the stop token,
if that is what ended it.  The run lists the same events. -/
theorem decode_output {out : Output}
    (h : (d.decode exp oracle cancelled observe context world).outcome = .ok out) :
    out.tokens.length ≤ d.settings.maxSteps ∧ d.settings.stopToken ∉ out.tokens ∧
      (out.finish = .maxSteps ↔ out.tokens.length = d.settings.maxSteps) ∧
      observed (d.acts exp oracle cancelled observe context world) =
        (out.tokens.mapIdx fun i token => ⟨i, token, false⟩) ++
          (if out.finish = .stopToken then [⟨out.tokens.length, d.settings.stopToken, true⟩]
          else []) ∧
      (d.decode exp oracle cancelled observe context world).events =
        observed (d.acts exp oracle cancelled observe context world) := by
  obtain ⟨exchanges, last, final, ending, hfollows, hends, hacts, hevents⟩ :=
    d.transcribes exp oracle cancelled observe context world
  have hsteps : 0 < d.settings.maxSteps := (d.settings.valid_iff.mp d.valid).2.2.2.1
  have hstop := hfollows.stop_notMem
  have hlength : (exchangeTokens exchanges).length < d.settings.maxSteps := by
    have hlt := hfollows.length_lt hsteps
    rwa [List.length_nil, Nat.zero_add, ← length_exchangeTokens] at hlt
  have hobserved := observed_exchangeActs 0 exchanges
  simp only [Nat.zero_add] at hobserved
  rw [hevents, hacts, observed_append, List.length_nil, hobserved]
  rw [List.nil_append, h] at hends
  -- the endings that succeed add the stop token, the last token, or nothing
  cases hends with
  | cancelled =>
    refine ⟨hlength.le, hstop, iff_of_false nofun hlength.ne, ?_, rfl⟩
    rw [if_neg nofun]
    rfl
  | stopToken hpicks =>
    refine ⟨hlength.le, hstop, iff_of_false nofun hlength.ne, ?_, rfl⟩
    rw [if_pos rfl]
    rfl
  | @maxSteps _ token _ hpicks hother hlimit =>
    have hfull : (exchangeTokens exchanges ++ [token]).length = d.settings.maxSteps := by
      rwa [List.length_append, List.length_singleton]
    refine ⟨hfull.le, ?_, iff_of_true rfl hfull, ?_, rfl⟩
    · rw [List.mem_append, List.mem_singleton, not_or]
      exact ⟨hstop, Ne.symm hother⟩
    · rw [if_neg nofun, List.append_nil, List.mapIdx_concat]
      rfl

/-- Two frames, the second with the stop token in front. -/
theorem decode_output_greedy :
    (greedy.decode id (replay [[2, 1], [0, 3]]) (fun _ => false) (fun _ world => world) 0
        ()).outcome = .ok ⟨[0], .stopToken⟩ ∧
      observed (greedy.acts id (replay [[2, 1], [0, 3]]) (fun _ => false) (fun _ world => world) 0
        ()) = [⟨0, 0, false⟩, ⟨1, 1, true⟩] := by
  have hrun : (greedy.decode id (replay [[2, 1], [0, 3]]) (fun _ => false) (fun _ world => world) 0
      ()).outcome = .ok ⟨[0], .stopToken⟩ := by decide
  obtain ⟨-, -, -, hobserved, -⟩ := decode_output id greedy (replay [[2, 1], [0, 3]])
    (fun _ => false) (fun _ world => world) 0 () hrun
  exact ⟨hrun, hobserved⟩

/-! ## Which calls are made -/

/-- The calls of a decode are those of its full steps and of its ending, and none follows an answer
that is not sound.  A decode that succeeds with `n` tokens made `n + 1` predictions and `n` advances
when it stopped, one advance less than predictions when it reached the limit, and as many when it
was cancelled.  It is cancelled only where `cancelled` was found true at the start of a step, in the
world that it leaves behind.  A fault at a step comes of the last call: of a prediction that failed
with its reason or whose scores admit no selection, or of an advance that failed with its reason. -/
theorem decode_calls :
    let run := d.decode exp oracle cancelled observe context world
    let acts := d.acts exp oracle cancelled observe context world
    (∃ (exchanges : List (Exchange κ)) (last : κ) (final : Sampler) (ending : List (Act κ)),
      Follows exp d.settings [] context d.sampler exchanges last final ∧
      Ends exp d.settings (exchangeTokens exchanges) last final ending run.outcome run.sampler ∧
      acts = exchangeActs 0 exchanges ++ ending) ∧
    (∀ act ∈ acts.dropLast, act.Sound) ∧
    (∀ out, run.outcome = .ok out →
      match out.finish with
      | .stopToken => predicts acts = out.tokens.length + 1 ∧ advances acts = out.tokens.length
      | .maxSteps => predicts acts = out.tokens.length ∧ advances acts + 1 = out.tokens.length
      | .cancelled => predicts acts = out.tokens.length ∧ advances acts = out.tokens.length) ∧
    (∀ out, run.outcome = .ok out → out.finish = .cancelled → cancelled run.world = true) ∧
    (∀ fault, run.outcome = .error fault → ∃ step reason, fault = .oracle step reason ∧
      predicts acts = step + 1 ∧
      ((advances acts = step ∧ (observed acts).length = step ∧ ∃ last answer,
          acts.getLast? = some (.predict last answer) ∧
            ∀ message, answer = .error message → reason = message) ∨
        (advances acts = step + 1 ∧ (observed acts).length = step + 1 ∧ ∃ last token,
          acts.getLast? = some (.advance last token (.error reason))))) := by
  -- the run and its log describe one decode
  have htranscribes := d.transcribes exp oracle cancelled observe context world
  have hruns := runs_steps ⟨exp, d.settings, oracle, cancelled, observe⟩ d.settings.maxSteps []
    context d.sampler world
  refine ⟨?_, htranscribes.sound, fun out hout => ?_,
    fun out hout hfinish => hruns.cancelled_of_finish hout hfinish, fun fault hfault => ?_⟩
  · obtain ⟨exchanges, last, final, ending, hfollows, hends, hacts, -⟩ := htranscribes
    exact ⟨exchanges, last, final, ending, hfollows, hends, hacts⟩
  · rw [hout] at htranscribes
    exact htranscribes.calls_of_ok
  · rw [hfault] at htranscribes
    exact htranscribes.calls_of_error

end Decodes

end Utterance.Decode
