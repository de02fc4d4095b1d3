import Utterance.Proofs.Decode.Selection
import Utterance.Proofs.Decode.Simulation
import Utterance.Proofs.Scores.Lead

/-!
# Decodes that leave nothing to chance

A decode uses its sampler only to pick tokens.  As long as all samplers would pick alike from the
predictions that a decode comes to, it goes the same way with any of them.  That is so when only
the highest score is kept, and there is one.

A decode that picks the highest score makes little of truncation: it takes the same tokens without,
except among zeros.

## Key results

- `Runs.resample`: a run with any other sampler, where all samplers pick alike
- `decode_greedy`: random selection from the highest score only is greedy selection
- `greedy_truncation`: what truncation changes for a greedy decode
-/

namespace Utterance.Decode

open Binary
open Sampling (Settings)
open Scores (Sampler Numbers Peaked Retains Demoted)

variable {κ σ : Type} {exp : Float32 → Float32} {settings : Settings}

/-- All samplers `pick` alike from the sound predictions among some acts, which follow on
`tokens`. -/
def Settles (exp : Float32 → Float32) (settings : Settings) (tokens : List Token)
    (acts : List (Act κ)) : Prop :=
  ∀ before context scores after, acts = before ++ .predict context (.ok scores) :: after →
    scoresFault scores = none → ∀ s s' : Sampler,
      (pick exp settings (tokens ++ shown before) s scores).1 =
        (pick exp settings (tokens ++ shown before) s' scores).1

/-- `Settles` goes on to hold of the acts after a full step, which follow on its token. -/
theorem Settles.rest {tokens : List Token} {context context' : κ} {answer : Except String Scores}
    {event : StepEvent} {token : Token} {answer' : Except String κ} {acts : List (Act κ)}
    (h : Settles exp settings tokens
      (.predict context answer :: .observe event :: .advance context' token answer' :: acts)) :
    Settles exp settings (tokens ++ [event.token]) acts := by
  intro before later scores after hacts hsound s s'
  have hpick := h (.predict context answer :: .observe event ::
    .advance context' token answer' :: before) later scores after (by rw [hacts]; rfl) hsound s s'
  rwa [shown_cons, List.append_cons] at hpick

section Resample

variable {env : Surroundings κ σ} {tokens : List Token} {context : κ} {sampler other : Sampler}

/-- A sampler for which `pick` answers alike `Selects` what this one does. -/
theorem Selects.resample {world world' : σ} {scores : Scores} {choice : Option Token}
    {sampler' : Sampler} {rest : List (Act κ)}
    (h : Selects env tokens context sampler world scores choice sampler' world')
    (hother : other = sampler ∨
      Settles env.exp env.settings tokens (.predict context (.ok scores) :: rest)) :
    ∃ picked, (picked = sampler' ∨
        Settles env.exp env.settings tokens (.predict context (.ok scores) :: rest)) ∧
      Selects env tokens context other world scores choice picked world' := by
  obtain rfl | hsettles := hother
  · exact ⟨sampler', .inl rfl, h⟩
  · have hpick := hsettles [] context scores rest rfl h.sound other sampler
    rw [shown_nil, List.append_nil, h.pick] at hpick
    exact ⟨(Decode.pick env.exp env.settings tokens other scores).2, .inr hsettles,
      h.running, h.predict, h.sound, Prod.ext hpick rfl⟩

/-- The record of a run is that of the same run with another `Sampler`, if all samplers pick alike
from what is predicted in it.  The induction is on the run, and its log is arbitrary so that the
record of the rest can be appended to it. -/
theorem Runs.resample {remaining : ℕ} {world : σ} {run : Run σ}
    (h : Runs env remaining tokens context sampler world run) :
    ∃ acts, ∀ other, other = sampler ∨ Settles env.exp env.settings tokens acts →
      ∃ final, ∀ log, Runs env.recorded remaining tokens context other (world, log)
        ⟨run.outcome, run.events, final, run.world, log ++ acts⟩ := by
  induction h with
  | exhausted tokens context sampler world =>
    refine ⟨[], fun other _ => ⟨other, fun log => ?_⟩⟩
    rw [List.append_nil]
    exact .exhausted tokens context other (world, log)
  | cancelled tokens context sampler hcancelled =>
    refine ⟨[], fun other _ => ⟨other, fun log => ?_⟩⟩
    rw [List.append_nil]
    exact .cancelled tokens context other hcancelled
  | predictFault tokens sampler hrunning hpredict =>
    exact ⟨_, fun other _ => ⟨other, fun log =>
      .predictFault tokens other hrunning (recorded_predict log hpredict)⟩⟩
  | scoresFault tokens sampler hrunning hpredict hfault =>
    exact ⟨_, fun other _ => ⟨other, fun log =>
      .scoresFault tokens other hrunning (recorded_predict log hpredict) hfault⟩⟩
  -- from here on the other sampler has to pick, which `Selects.resample` does for it
  | @noSelection _ _ context _ _ _ _ scores hselects =>
    refine ⟨[.predict context (.ok scores)], fun other hother => ?_⟩
    obtain ⟨picked, -, hselects'⟩ := hselects.resample hother
    exact ⟨picked, fun log => .noSelection (hselects'.recorded log)⟩
  | @stopToken n tokens context _ _ _ _ scores hselects =>
    refine ⟨[.predict context (.ok scores), .observe ⟨tokens.length, env.settings.stopToken, true⟩],
      fun other hother => ?_⟩
    obtain ⟨picked, -, hselects'⟩ := hselects.resample hother
    refine ⟨picked, fun log => ?_⟩
    have hrecorded := Runs.stopToken (n := n) (hselects'.recorded log)
    simpa only [recorded_settings, recorded_observe, List.append_assoc, List.cons_append,
      List.nil_append] using hrecorded
  | @maxSteps tokens context _ _ _ _ scores token hselects hstop =>
    refine ⟨[.predict context (.ok scores), .observe ⟨tokens.length, token, false⟩],
      fun other hother => ?_⟩
    obtain ⟨picked, -, hselects'⟩ := hselects.resample hother
    refine ⟨picked, fun log => ?_⟩
    have hrecorded := Runs.maxSteps (hselects'.recorded log) hstop
    simpa only [recorded_observe, List.append_assoc, List.cons_append, List.nil_append]
      using hrecorded
  | @advanceFault n tokens context _ _ _ _ _ scores token reason hselects hstop hadvance =>
    refine ⟨[.predict context (.ok scores), .observe ⟨tokens.length, token, false⟩,
      .advance context token (.error reason)], fun other hother => ?_⟩
    obtain ⟨picked, -, hselects'⟩ := hselects.resample hother
    refine ⟨picked, fun log => ?_⟩
    have hrecorded := Runs.advanceFault (n := n) (hselects'.recorded log) hstop
      (recorded_advance _ hadvance)
    simpa only [List.append_assoc, List.cons_append, List.nil_append] using hrecorded
  | @step n tokens context context' _ _ _ _ _ scores token _ hselects hstop hadvance _ ih =>
    obtain ⟨acts, hrest⟩ := ih
    refine ⟨.predict context (.ok scores) :: .observe ⟨tokens.length, token, false⟩ ::
      .advance context token (.ok context') :: acts, fun other hother => ?_⟩
    obtain ⟨picked, hpicked, hselects'⟩ := hselects.resample hother
    -- the rest of the run goes on with what the other sampler has become
    have hpicked' := hpicked.imp_right Settles.rest
    obtain ⟨final, hfinal⟩ := hrest picked hpicked'
    refine ⟨final, fun log => ?_⟩
    have hrecorded := Runs.step (hselects'.recorded log) hstop (recorded_advance _ hadvance)
      (hfinal _)
    simpa only [Run.after, List.append_assoc, List.cons_append, List.nil_append] using hrecorded

end Resample

/-- Two decoders that differ in their samplers answer alike from `decode` if all samplers pick alike
from the predictions that the first one comes to. -/
theorem Decoder.decode_of_settles {valid : settings.Valid} {s : Sampler} (s' : Sampler)
    {oracle : Oracle κ σ} {cancelled : σ → Bool} {observe : StepEvent → σ → σ} {context : κ}
    {world : σ} :
    let run := (Decoder.mk settings valid s).decode exp oracle cancelled observe context world
    let run' := (Decoder.mk settings valid s').decode exp oracle cancelled observe context world
    let acts := (Decoder.mk settings valid s).acts exp oracle cancelled observe context world
    Settles exp settings [] acts →
      run'.outcome = run.outcome ∧ run'.events = run.events ∧ run'.world = run.world ∧
      (Decoder.mk settings valid s').acts exp oracle cancelled observe context world = acts := by
  intro run run' acts hsettles
  obtain ⟨recorded, hothers⟩ := (runs_steps ⟨exp, settings, oracle, cancelled, observe⟩
    settings.maxSteps [] context s world).resample
  obtain ⟨_, hrecord⟩ := hothers s (.inl rfl)
  have hacts : acts = recorded := congrArg (fun run => run.world.2) (hrecord []).eq_steps.symm
  obtain ⟨final, hother⟩ := hothers s' (.inr (hacts ▸ hsettles))
  -- the record of the second decode, which the run with its sampler determines
  have hrecord' : (Decoder.mk settings valid s').record exp oracle cancelled observe context world =
      ⟨run.outcome, run.events, final, run.world, recorded⟩ := (hother []).eq_steps.symm
  have hplain := Decoder.record_eq ⟨settings, valid, s'⟩ exp oracle cancelled observe context world
  rw [hrecord', Run.mk.injEq, Prod.mk.injEq] at hplain
  obtain ⟨houtcome, hevents, -, hworld, hacts'⟩ := hplain
  exact ⟨houtcome.symm, hevents.symm, hworld.symm, hacts'.symm.trans hacts.symm⟩

/-- Every `predict` among the acts has an answer of the oracle. -/
def Oracle.Told (oracle : Oracle κ σ) (acts : List (Act κ)) : Prop :=
  ∀ context answer, .predict context answer ∈ acts →
    ∃ world, (oracle.predict context world).1 = answer

/-- `Told` goes on to hold after an act other than a prediction, which needs no answer. -/
theorem Oracle.Told.append {oracle : Oracle κ σ} {acts : List (Act κ)} (h : oracle.Told acts)
    {act : Act κ} (hact : act.isPredict = false) : oracle.Told (acts ++ [act]) := by
  intro context answer hmem
  obtain hmem | hmem := List.mem_append.mp hmem
  · exact h context answer hmem
  · rw [← List.mem_singleton.mp hmem] at hact
    exact absurd hact nofun

/-- The recorded oracle logs nothing but its own answers: `Told` is an invariant of the log. -/
theorem Oracle.recorded_told (oracle : Oracle κ σ) :
    oracle.recorded.Alike (fun w w' => w = w' ∧ oracle.Told w.2) oracle.recorded where
  predict := by
    rintro ⟨world, log⟩ _ ⟨rfl, htold⟩ context
    -- what was told before was told, and the new answer is one of the oracle
    refine ⟨rfl, rfl, fun context' answer hmem => ?_⟩
    obtain hmem | hmem := List.mem_append.mp hmem
    · exact htold context' answer hmem
    · cases List.mem_singleton.mp hmem
      exact ⟨world, rfl⟩
  advance := by
    rintro ⟨world, log⟩ _ ⟨rfl, htold⟩ context token
    exact ⟨rfl, rfl, htold.append rfl⟩

/-- A decode is told nothing but answers of its oracle: `Told` holds of its acts. -/
theorem Decoder.told (d : Decoder) (exp : Float32 → Float32) (oracle : Oracle κ σ)
    (cancelled : σ → Bool) (observe : StepEvent → σ → σ) (context : κ) (world : σ) :
    oracle.Told (d.acts exp oracle cancelled observe context world) := by
  -- the decode beside itself, with an invariant of the log
  have halike : (d.record exp oracle cancelled observe context world).Alike
      (fun w w' => w = w' ∧ oracle.Told w.2)
      (d.record exp oracle cancelled observe context world) :=
    d.decode_alike oracle.recorded_told (fun h => by rw [h.1])
      (fun h event => ⟨by rw [h.1], h.2.append rfl⟩) exp context ⟨rfl, fun _ _ => nofun⟩
  exact halike.world.2

/-- When only the highest score is kept, and each sound prediction that a greedy decode comes to has
a peak after penalty and temperature, a `decode` by random selection does the same as the greedy
one: it has the same outcome, shows the same events and makes the same calls, whatever the words
that it draws. -/
theorem decode_greedy (hzero : exp 0 = 1) (valid : settings.Valid) (htop : settings.topK = 1)
    (words words' : Random.Generator) (oracle : Oracle κ σ) (cancelled : σ → Bool)
    (observe : StepEvent → σ → σ) (context : κ) (world : σ) :
    let random : Decoder := ⟨settings, valid, .multinomial, words⟩
    let greedy : Decoder := ⟨settings, valid, .argMax, words'⟩
    let run := random.decode exp oracle cancelled observe context world
    let run' := greedy.decode exp oracle cancelled observe context world
    let acts := random.acts exp oracle cancelled observe context world
    let acts' := greedy.acts exp oracle cancelled observe context world
    (∀ before context' scores after, acts' = before ++ .predict context' (.ok scores) :: after →
      scores ≠ [] → Numbers scores →
      Peaked (Scores.reweigh exp (Scores.rescaling settings)
        (settings.startToken :: shown before) scores)) →
    run.outcome = run'.outcome ∧ run.events = run'.events ∧ acts = acts' ∧
      run.world = run'.world := by
  intro random greedy run run' acts acts' hpeaked
  -- a peak leaves every sampler the same choice
  have hsettles : Settles exp settings [] acts' := by
    intro before context' scores after hacts hsound s s'
    obtain ⟨hne, hscores⟩ := scoresFault_eq_none_iff.mp hsound
    exact Scores.select_reweigh_of_peaked valid htop hzero _ hscores
      (hpeaked before context' scores after hacts hne hscores) s s'
  obtain ⟨houtcome, hevents, hworld, hacts⟩ :=
    Decoder.decode_of_settles random.sampler hsettles
  exact ⟨houtcome, hevents, hacts, hworld⟩

/-- The `Settings` for a decode of few steps that draws one of the highest scores only. -/
def peaking : Settings where
  temperature := 2
  topK := 1
  topP := 1 / 2
  repetitionPenalty := 1
  maxSteps := 3
  startToken := 0
  stopToken := 1

/-- Two frames with a peak, a seed, and a generator without one: both decoders with `peaking`
agree. -/
theorem decode_greedy_peaking :
    let oracle := replay [[4, 1], [2, 3]]
    let random : Decoder := ⟨peaking, by decide, .multinomial, .ofSeed 7⟩
    let greedy : Decoder := ⟨peaking, by decide, .argMax, greedy.sampler.generator⟩
    (random.decode coarseExp oracle (fun _ => false) (fun _ world => world) 0 ()).outcome =
      (greedy.decode coarseExp oracle (fun _ => false) (fun _ world => world) 0 ()).outcome := by
  intro oracle random greedy
  refine (decode_greedy isExp_coarseExp.zero (by decide) rfl _ _ oracle (fun _ => false)
    (fun _ world => world) 0 () ?_).1
  intro before position scores after hacts hne hscores
  have hmem : Act.predict position (.ok scores) ∈
      greedy.acts coarseExp oracle (fun _ => false) (fun _ world => world) 0 () :=
    hacts ▸ List.mem_append_right _ List.mem_cons_self
  obtain ⟨_, hanswer⟩ := greedy.told _ _ _ _ _ _ position _ hmem
  have hrescaling : Scores.rescaling peaking = [.temperature 2] := by decide
  rw [hrescaling]
  -- the temperature does not depend on what has been selected before
  change Peaked (Scores.temper 2 scores)
  rcases position with _ | _ | position
  · cases hanswer
    decide
  · cases hanswer
    decide
  · cases hanswer

/-! ## The highest score after truncation -/

/-- Truncation to the highest scores and to a nucleus of them leaves the highest score where it is,
at the lowest position of equal ones, unless that score is `-0`, is masked, and a `0` after it is
kept; then the first `0` is the highest.  So the token of each step of a greedy decode is the one
with the highest score after penalty and temperature, whatever the truncation, with that
exception. -/
theorem greedy_truncation (d : Decoder) (hgreedy : d.sampler.selection = .argMax)
    (exp : Float32 → Float32) (oracle : Oracle κ σ) (cancelled : σ → Bool)
    (observe : StepEvent → σ → σ) (context : κ) (world : σ) :
    (∀ (scores : Scores) (k : ℕ) (mass : Float32), Numbers scores → 0 < mass →
      let truncated := Scores.keepNucleus exp mass (Scores.keepTop k scores)
      (Scores.argMax truncated = Scores.argMax scores ∨
        ∃ i j, Demoted scores truncated i j ∧ Scores.argMax truncated = Scores.tokenAt? j) ∧
      (0 ∉ scores ∨ negZero ∉ scores → Scores.argMax truncated = Scores.argMax scores)) ∧
    ∀ before event after,
      d.acts exp oracle cancelled observe context world = before ++ .observe event :: after →
      ∃ earlier context' scores, before = earlier ++ [.predict context' (.ok scores)] ∧
        let history := d.settings.startToken :: shown earlier
        let rescaled := Scores.reweigh exp (Scores.rescaling d.settings) history scores
        let reweighed := Scores.reweigh exp (Scores.stages d.settings) history scores
        Scores.argMax reweighed = some event.token ∧
          (Scores.argMax rescaled = some event.token ∨ ∃ i j, Demoted rescaled reweighed i j) := by
  refine ⟨fun scores k mass hscores hmass => ?_, fun before event after h => ?_⟩
  · have hretains := Scores.retains_truncation hscores exp k hmass
    refine ⟨hretains.imp_right ?_, hretains.argMax_eq⟩
    rintro ⟨i, j, hdemoted⟩
    exact ⟨i, j, hdemoted, Scores.argMax_eq_of_leads hdemoted.leads_after⟩
  · have htranscribes := d.transcribes exp oracle cancelled observe context world
    obtain ⟨earlier, context', scores, picking, picked, hbefore, hpicks, hselection⟩ :=
      htranscribes.at_event_selection h
    -- the way to select is the same in all steps
    have hargMax := congrArg Prod.fst hpicks.pick_eq
    rw [pick, Sampler.select, hselection, hgreedy, List.nil_append] at hargMax
    refine ⟨earlier, context', scores, hbefore, hargMax, ?_⟩
    have hretains := Scores.retains_reweigh d.valid hpicks.numbers exp
      (d.settings.startToken :: shown earlier)
    exact hretains.imp_left fun heq => heq.symm.trans hargMax

/-- A decoder for one step that picks the highest score of half of the mass, by `keepNucleus`. -/
def halved : Decoder where
  settings := {
    temperature := 1
    topK := 0
    topP := 1 / 2
    repetitionPenalty := 1
    maxSteps := 1
    startToken := 7
    stopToken := 5
  }
  valid := by decide
  sampler := ⟨.argMax, ⟨⟨⟨0, 0, 0, 0⟩, ⟨0, 0, 0, 0⟩⟩, 0⟩⟩

/-- `halved` shows the token with the highest score that nucleus truncation leaves. -/
private theorem halved_decode {scores : Scores} {token : Token}
    (hsound : scoresFault scores = none)
    (hargMax : Scores.argMax (Scores.keepNucleus coarseExp halved.settings.topP scores) =
      some token) (hstop : token ≠ halved.settings.stopToken) :
    (halved.decode coarseExp (replay [scores]) (fun _ => false) (fun _ world => world) 0
      ()).outcome = .ok ⟨[token], .maxSteps⟩ := by
  have hstages : Scores.stages halved.settings = [.topP halved.settings.topP] := by decide +kernel
  have hselects : Selects ⟨coarseExp, halved.settings, replay [scores], fun _ => false,
      fun _ world => world⟩ [] 0 halved.sampler () scores (some token) halved.sampler () := by
    refine ⟨rfl, rfl, hsound, ?_⟩
    rw [pick, hstages]
    exact Prod.ext hargMax rfl
  exact congrArg Run.outcome (steps_of_last hselects hstop)

/-- A `-0` before a `0` has the lead, but the ranking starts with the `0`, which has half of the
mass. -/
theorem greedy_truncation_zeros :
    let scores : Scores := [negZero, 0]
    let mass := halved.settings.topP
    Numbers scores ∧ 0 < mass ∧ mass ≤ 1 ∧ Scores.argMax scores = some 0 ∧
      Scores.argMax (Scores.keepNucleus coarseExp mass (Scores.keepTop 0 scores)) = some 1 ∧
      (halved.decode coarseExp (replay [scores]) (fun _ => false) (fun _ world => world) 0
        ()).outcome = .ok ⟨[1], .maxSteps⟩ := by
  intro scores mass
  have hscores : Numbers scores := by
    unfold Numbers
    decide
  -- negative zero has the lower rank, so it comes last although it stands first
  have hranking : Scores.ranking scores = [1, 0] := by
    have hrank : ¬rank 0 ≤ rank negZero := by decide
    simp [scores, Scores.ranking, Scores.ranked, List.mergeSort,
      List.MergeSort.Internal.splitInTwo, List.splitAt, List.splitAt.go, hrank]
  have hsoftmax : Scores.softmax coarseExp scores = some [1 / 2, 1 / 2] := by decide +kernel
  have hkept : Scores.keepNucleus coarseExp mass scores = [negInfinity, 0] := by
    refine (Scores.keepNucleus_eq_keepRanked (m := 1) hsoftmax (by decide) ?_).trans ?_
    · rw [hranking]
      decide +kernel
    · rw [Scores.keepRanked, hranking]
      decide +kernel
  have hargMax : Scores.argMax (Scores.keepNucleus coarseExp mass scores) = some 1 := by
    rw [hkept]
    decide
  refine ⟨hscores, by decide, by decide, by decide, ?_, halved_decode (by decide) hargMax ?_⟩
  · rwa [Scores.keepTop_zero]
  · decide

/-- Of three equal scores `argMax` picks the first, though the others have more than half of the
mass. -/
theorem greedy_truncation_tied :
    let scores : Scores := [1, 2, 2, 2]
    let mass := halved.settings.topP
    halved.sampler.selection = .argMax ∧ Numbers scores ∧ 0 < mass ∧
      Scores.argMax (Scores.keepNucleus coarseExp mass (Scores.keepTop 1 scores)) = some 1 ∧
      (halved.decode coarseExp (replay [scores]) (fun _ => false) (fun _ world => world) 0
        ()).outcome = .ok ⟨[1], .maxSteps⟩ := by
  intro scores mass
  have hscores : Numbers scores := by
    unfold Numbers
    decide
  have hzero : 0 ∉ scores := by
    simp only [scores, List.mem_cons, List.not_mem_nil]
    decide
  obtain ⟨htruncation, -⟩ := greedy_truncation halved rfl coarseExp (replay [scores])
    (fun _ => false) (fun _ world => world) 0 ()
  -- without a zero the truncation does not matter, for any count
  have hargMax : ∀ k,
      Scores.argMax (Scores.keepNucleus coarseExp mass (Scores.keepTop k scores)) = some 1 :=
    fun k => ((htruncation scores k mass hscores (by decide)).2 (.inl hzero)).trans (by decide)
  refine ⟨rfl, hscores, by decide, hargMax 1, halved_decode (by decide) ?_ (by decide)⟩
  have huntruncated := hargMax 0
  rwa [Scores.keepTop_zero] at huntruncated

end Utterance.Decode
