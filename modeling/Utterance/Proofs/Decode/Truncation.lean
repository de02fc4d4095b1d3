import Mathlib.Data.ENat.Basic
import Utterance.Proofs.Decode.Run
import Utterance.Proofs.Decode.Selection

/-!
# Early stops

A lower step limit and a cancellation both cut a decode short.  Until the cut the shorter decode
does what the longer one does, so it either comes to the same end or returns the first tokens that
the longer one selected.

## Key results

- `Runs.truncates`: the run of a decode that is cut short, against its run to the end
- `decode_truncated`: the same for whole decodes, by outcome
- `firstVisible_ticking`: a cancellation can become visible at every step
-/

namespace Utterance.Decode

open Sampling (Settings)
open Scores (Sampler)

variable {κ σ : Type}

/-! ## When a cancellation becomes visible -/

/-- The starts of steps that a decode comes to from the start of one, by what it `Selects`: the
tokens selected by then, and the world. -/
inductive Reaches (env : Surroundings κ σ) :
    List Token → κ → Sampler → σ → List Token → σ → Prop
  | here (tokens : List Token) (context : κ) (sampler : Sampler) (world : σ) :
      Reaches env tokens context sampler world tokens world
  | step {tokens : List Token} {context context' : κ} {sampler sampler' : Sampler}
      {world world' world'' : σ} {scores : Scores} {token : Token} {selected : List Token}
      {last : σ}
      (hselects : Selects env tokens context sampler world scores (some token) sampler' world')
      (hstop : token ≠ env.settings.stopToken) (hlimit : tokens.length + 1 < env.settings.maxSteps)
      (hadvance : env.oracle.advance context token
        (env.observe ⟨tokens.length, token, false⟩ world') = (.ok context', world''))
      (hrest : Reaches env (tokens ++ [token]) context' sampler' world'' selected last) :
      Reaches env tokens context sampler world selected last

/-- The `Surroundings` without cancellation. -/
def Surroundings.uncancelled (env : Surroundings κ σ) : Surroundings κ σ :=
  { env with cancelled := fun _ => false }

/-- In a decode that goes on regardless, the cancellation is first visible at the start of the step
after `c` tokens, or never if `c` is infinite. -/
def FirstVisible (env : Surroundings κ σ) (tokens : List Token) (context : κ) (sampler : Sampler)
    (world : σ) (c : ℕ∞) : Prop :=
  ∀ (selected : List Token) (last : σ),
    Reaches env.uncancelled tokens context sampler world selected last →
      (selected.length < c → env.cancelled last = false) ∧
        (selected.length = c → env.cancelled last = true)

/-! ## Cutting a run short -/

/-- What is left of a decode that selects `tokens` when it is cut short: by a cancellation that is
visible after `c` tokens, or else by the limit. -/
noncomputable def truncated (tokens : List Token) (limit : ℕ) (c : ℕ∞) : Output :=
  if c < limit then ⟨tokens.take c.toNat, .cancelled⟩ else ⟨tokens.take limit, .maxSteps⟩

namespace Run

variable (run : Run σ) (tokens : List Token)

/-- The tokens that a run selected, without the stop token, if it had `tokens` at the start. -/
def selected : List Token :=
  match run.outcome with
  | .ok out => out.tokens
  | .error _ => tokens ++ run.events.map (·.token)

/-- The number of the step in which a `Run` ended. -/
def lastStep : ℕ :=
  match run.outcome with
  | .ok ⟨tokens, .maxSteps⟩ => tokens.length - 1
  | .ok ⟨tokens, _⟩ => tokens.length
  | .error (.oracle step _) => step
  | .error (.invalidSettings _) => 0

/-- In `Run.after` an event in front of a run is one more token at its start. -/
theorem selected_after (event : StepEvent) :
    (run.after event).selected tokens = run.selected (tokens ++ [event.token]) := by
  simp only [selected, after]
  split
  · rfl
  · simp

/-- In `Run.after` an event in front of a run does not change the step in which it ended. -/
theorem lastStep_after (event : StepEvent) : (run.after event).lastStep = run.lastStep :=
  rfl

end Run

/-- A run selects tokens after those that it starts with, and ends no earlier: what it has
`selected` starts with them, by induction on the run. -/
theorem Runs.starts {env : Surroundings κ σ} {remaining : ℕ} {tokens : List Token} {context : κ}
    {sampler : Sampler} {world : σ} {run : Run σ}
    (h : Runs env remaining tokens context sampler world run) (hne : remaining ≠ 0) :
    tokens <+: run.selected tokens ∧ tokens.length ≤ run.lastStep := by
  -- a decode that ends selects no more than one token, and others go on from there
  induction h with
  | exhausted => exact absurd rfl hne
  | cancelled => exact ⟨List.prefix_rfl, le_rfl⟩
  | predictFault | scoresFault | noSelection => simp [Run.selected, Run.lastStep]
  | stopToken => exact ⟨List.prefix_rfl, le_rfl⟩
  | maxSteps => simp [Run.selected, Run.lastStep]
  | advanceFault => simp [Run.selected, Run.lastStep]
  | step _ _ _ _ ih =>
    obtain ⟨hstart, hlast⟩ := ih (Nat.succ_ne_zero _)
    rw [Run.selected_after, Run.lastStep_after]
    rw [List.length_append] at hlast
    exact ⟨(List.prefix_append _ _).trans hstart, by omega⟩

/-- The run `short` is the whole one, if that ends before the cut, and truncates it otherwise. -/
structure Truncates (limit : ℕ) (c : ℕ∞) (tokens : List Token) (run short : Run σ) : Prop where
  whole : (run.selected tokens).length < limit → run.lastStep < c → short = run
  cut : ¬((run.selected tokens).length < limit ∧ run.lastStep < c) →
    short.outcome = .ok (truncated (run.selected tokens) limit c)

section Truncates

variable {limit : ℕ} {c : ℕ∞} {tokens : List Token} {run short : Run σ}

/-- A run that ends before the cut `Truncates` itself. -/
theorem Truncates.refl (hlimit : (run.selected tokens).length < limit) (hc : run.lastStep < c) :
    Truncates limit c tokens run run where
  whole _ _ := rfl
  cut h := absurd ⟨hlimit, hc⟩ h

/-- When the cancellation becomes visible first, the run that it stops `Truncates` the whole one. -/
theorem Truncates.of_cancelled (hstart : tokens <+: run.selected tokens)
    (hlast : tokens.length ≤ run.lastStep) (hc : tokens.length = c) (hlimit : tokens.length < limit)
    (hshort : short.outcome = .ok ⟨tokens, .cancelled⟩) : Truncates limit c tokens run short where
  whole _ h := by
    rw [← hc, Nat.cast_lt] at h
    omega
  cut _ := by
    have htake := List.prefix_iff_eq_take.mp hstart
    have hlt : (tokens.length : ℕ∞) < limit := Nat.cast_lt.mpr hlimit
    rw [hshort, truncated, ← hc, if_pos hlt, ENat.toNat_natCast, ← htake]

/-- When the limit is reached first, the run that it ends `Truncates` the whole one. -/
theorem Truncates.of_limit {full : List Token} (hstart : full <+: run.selected tokens)
    (hfull : full.length = limit) (hc : limit ≤ c)
    (hshort : short.outcome = .ok ⟨full, .maxSteps⟩) : Truncates limit c tokens run short where
  whole h := by
    have hle := hstart.length_le
    omega
  cut _ := by
    have htake := List.prefix_iff_eq_take.mp hstart
    rw [hshort, truncated, if_neg (not_lt.mpr hc), ← hfull, ← htake]

/-- If one run `Truncates` another, it does so with an event in front of both. -/
theorem Truncates.after {event : StepEvent}
    (h : Truncates limit c (tokens ++ [event.token]) run short) :
    Truncates limit c tokens (run.after event) (short.after event) where
  whole hlimit hc := by
    rw [Run.selected_after] at hlimit
    rw [h.whole hlimit hc]
  cut hcut := by
    rw [Run.selected_after, Run.lastStep_after] at hcut
    rw [Run.selected_after]
    exact h.cut hcut

end Truncates

/-! ## Runs that are cut short -/

section Runs

variable {exp : Float32 → Float32} {settings : Settings} {oracle : Oracle κ σ}
  {observe : StepEvent → σ → σ} {cancelled : σ → Bool} {limit : ℕ} {c : ℕ∞}
  {tokens : List Token} {context : κ} {sampler : Sampler} {world : σ} {run : Run σ}

/-- What `Selects` in a step without cancellation does so before this becomes visible, and below a
lower limit. -/
theorem Selects.truncated {scores : Scores} {choice : Option Token} {sampler' : Sampler}
    {world' : σ}
    (h : Selects ⟨exp, settings, oracle, fun _ => false, observe⟩ tokens context sampler world
      scores choice sampler' world') (hrunning : cancelled world = false) :
    Selects ⟨exp, { settings with maxSteps := limit }, oracle, cancelled, observe⟩ tokens context
      sampler world scores choice sampler' world' where
  running := hrunning
  predict := h.predict
  sound := h.sound
  pick := h.pick

/-- A cancellation that is first visible after `c` tokens is so seen from the next step as well. -/
theorem FirstVisible.of_step {context' : κ} {sampler' : Sampler} {world' world'' : σ}
    {scores : Scores} {token : Token}
    (h : FirstVisible ⟨exp, settings, oracle, cancelled, observe⟩ tokens context sampler world c)
    (hselects : Selects ⟨exp, settings, oracle, fun _ => false, observe⟩ tokens context sampler
      world scores (some token) sampler' world')
    (hstop : token ≠ settings.stopToken) (hlimit : tokens.length + 1 < settings.maxSteps)
    (hadvance : oracle.advance context token (observe ⟨tokens.length, token, false⟩ world') =
      (.ok context', world'')) :
    FirstVisible ⟨exp, settings, oracle, cancelled, observe⟩ (tokens ++ [token]) context' sampler'
      world'' c :=
  fun _ _ hrest => h _ _ (.step hselects hstop hlimit hadvance hrest)

/-- At the start of a step the cancellation is visible, or it is not and there is a step to take:
what `FirstVisible` says of that start. -/
theorem FirstVisible.cases
    (h : FirstVisible ⟨exp, settings, oracle, cancelled, observe⟩ tokens context sampler world c)
    (hle : tokens.length ≤ c) :
    (tokens.length = c ∧ cancelled world = true) ∨
      (tokens.length < c ∧ cancelled world = false) := by
  obtain ⟨hbefore, hat⟩ := h tokens world (.here _ _ _ _)
  rcases hle.eq_or_lt with heq | hlt
  · exact .inl ⟨heq, hat heq⟩
  · exact .inr ⟨hlt, hbefore hlt⟩

/-- A run that is cut short at once, because the cancellation is visible, `Truncates` the whole
one. -/
theorem Runs.truncates_of_cancelled {remaining left : ℕ}
    (h : Runs ⟨exp, settings, oracle, fun _ => false, observe⟩ remaining tokens context sampler
      world run) (hne : remaining ≠ 0) (hlimit : tokens.length + (left + 1) = limit)
    (hc : tokens.length = c) (hcancelled : cancelled world = true) :
    ∃ short, Truncates limit c tokens run short ∧
      Runs ⟨exp, { settings with maxSteps := limit }, oracle, cancelled, observe⟩ (left + 1) tokens
        context sampler world short := by
  obtain ⟨hstart, hlast⟩ := h.starts hne
  exact ⟨_, .of_cancelled hstart hlast hc (by omega) rfl, .cancelled _ _ _ hcancelled⟩

/-- A run that is cut short by the limit, after the token that its first step `Selects`, truncates
the whole one. -/
theorem Selects.truncates_of_limit {scores : Scores} {token : Token} {sampler' : Sampler}
    {world' : σ}
    (h : Selects ⟨exp, settings, oracle, fun _ => false, observe⟩ tokens context sampler world
      scores (some token) sampler' world') (hstop : token ≠ settings.stopToken)
    (hstart : tokens ++ [token] <+: run.selected tokens) (hlimit : tokens.length + 1 = limit)
    (hc : tokens.length < c) (hrunning : cancelled world = false) :
    ∃ short, Truncates limit c tokens run short ∧
      Runs ⟨exp, { settings with maxSteps := limit }, oracle, cancelled, observe⟩ 1 tokens context
        sampler world short := by
  have hc' : ((tokens.length + 1 : ℕ) : ℕ∞) ≤ c := by exact_mod_cast Order.add_one_le_of_lt hc
  refine ⟨_, .of_limit hstart ?_ ?_ rfl, .maxSteps (h.truncated hrunning) hstop⟩
  · rw [List.length_append, List.length_singleton, hlimit]
  · rwa [← hlimit]

/-- A run with a lower limit and a cancellation that is not visible yet `Truncates` the whole one.
The induction is on the whole run; each case decides whether the cut comes before the end of its
step. -/
private theorem Runs.truncates_of_running {remaining : ℕ}
    (h : Runs ⟨exp, settings, oracle, fun _ => false, observe⟩ remaining tokens context sampler
      world run) :
    ∀ left : ℕ, left + 1 ≤ remaining → tokens.length + remaining = settings.maxSteps →
      tokens.length + (left + 1) = limit → tokens.length < c → cancelled world = false →
      FirstVisible ⟨exp, settings, oracle, cancelled, observe⟩ tokens context sampler world c →
      ∃ short, Truncates limit c tokens run short ∧
        Runs ⟨exp, { settings with maxSteps := limit }, oracle, cancelled, observe⟩ (left + 1)
          tokens context sampler world short := by
  induction h with
  | exhausted => exact fun left hleft => absurd hleft (by omega)
  | cancelled _ _ _ hcancelled => exact absurd hcancelled Bool.false_ne_true
  | predictFault tokens sampler _ hpredict =>
    intro left _ _ hlimit hc hrunning _
    refine ⟨_, .refl ?_ hc, .predictFault _ _ hrunning hpredict⟩
    simp [Run.selected]
    omega
  | scoresFault tokens sampler _ hpredict hfault =>
    intro left _ _ hlimit hc hrunning _
    refine ⟨_, .refl ?_ hc, .scoresFault _ _ hrunning hpredict hfault⟩
    simp [Run.selected]
    omega
  | noSelection hselects =>
    intro left _ _ hlimit hc hrunning _
    refine ⟨_, .refl ?_ hc, .noSelection (hselects.truncated hrunning)⟩
    simp [Run.selected]
    omega
  | stopToken hselects =>
    intro left _ _ hlimit hc hrunning _
    refine ⟨_, .refl ?_ hc, .stopToken (hselects.truncated hrunning)⟩
    simp [Run.selected]
    omega
  | maxSteps hselects hstop =>
    intro left hleft _ hlimit hc hrunning _
    obtain rfl : left = 0 := by omega
    exact hselects.truncates_of_limit hstop List.prefix_rfl hlimit hc hrunning
  | advanceFault hselects hstop hadvance =>
    intro left _ _ hlimit hc hrunning _
    cases left with
    | zero =>
      -- the limit comes before the advance that fails
      exact hselects.truncates_of_limit hstop List.prefix_rfl hlimit hc hrunning
    | succ left =>
      refine ⟨_, .refl ?_ hc, .advanceFault (hselects.truncated hrunning) hstop hadvance⟩
      simp [Run.selected]
      omega
  | @step _ tokens _ _ _ _ _ _ _ _ token run hselects hstop hadvance hrest ih =>
    intro left hleft hremaining hlimit hc hrunning hvisible
    cases left with
    | zero =>
      have hstart := (hrest.starts (Nat.succ_ne_zero _)).1
      rw [← Run.selected_after _ _ ⟨tokens.length, token, false⟩] at hstart
      exact hselects.truncates_of_limit hstop hstart hlimit hc hrunning
    | succ left =>
      -- both runs come to the next step, where the cancellation may be visible
      have hlength : (tokens ++ [token]).length = tokens.length + 1 := by simp
      have hle : ((tokens ++ [token]).length : ℕ∞) ≤ c := by
        rw [hlength]
        exact_mod_cast Order.add_one_le_of_lt hc
      have hvisible' := hvisible.of_step hselects hstop (by omega) hadvance
      obtain ⟨short, htruncates, hshort⟩ : ∃ short,
          Truncates limit c (tokens ++ [token]) run short ∧
            Runs ⟨exp, { settings with maxSteps := limit }, oracle, cancelled, observe⟩ (left + 1)
              (tokens ++ [token]) _ _ _ short := by
        rcases hvisible'.cases hle with ⟨heq, hcancelled⟩ | ⟨hlt, hrunning'⟩
        · exact hrest.truncates_of_cancelled (Nat.succ_ne_zero _) (by omega) heq hcancelled
        · exact ih left (by omega) (by omega) (by omega) hlt hrunning' hvisible'
      exact ⟨_, htruncates.after, .step (hselects.truncated hrunning) hstop hadvance hshort⟩

/-- A run with a lower limit and a cancellation `Truncates` the whole run. -/
theorem Runs.truncates {remaining left : ℕ}
    (h : Runs ⟨exp, settings, oracle, fun _ => false, observe⟩ remaining tokens context sampler
      world run) (hleft : left + 1 ≤ remaining)
    (hremaining : tokens.length + remaining = settings.maxSteps)
    (hlimit : tokens.length + (left + 1) = limit) (hc : tokens.length ≤ c)
    (hvisible : FirstVisible ⟨exp, settings, oracle, cancelled, observe⟩ tokens context sampler
      world c) :
    ∃ short, Truncates limit c tokens run short ∧
      Runs ⟨exp, { settings with maxSteps := limit }, oracle, cancelled, observe⟩ (left + 1) tokens
        context sampler world short := by
  rcases hvisible.cases hc with ⟨heq, hcancelled⟩ | ⟨hlt, hrunning⟩
  · exact h.truncates_of_cancelled (by omega) hlimit heq hcancelled
  · exact h.truncates_of_running left hleft hremaining hlimit hlt hrunning hvisible

end Runs

/-! ## Decodes that are cut short -/

section Decodes

variable (d d' : Decoder) (exp : Float32 → Float32) (oracle : Oracle κ σ) (cancelled : σ → Bool)
  (observe : StepEvent → σ → σ) (context : κ) (world : σ)

/-- The decoder `d'` differs from `d` in nothing but a lower limit. -/
structure Decoder.Lowers (d d' : Decoder) : Prop where
  settings : d'.settings = { d.settings with maxSteps := d'.settings.maxSteps }
  limit : d'.settings.maxSteps ≤ d.settings.maxSteps
  sampler : d'.sampler = d.sampler

variable {d d'} in
/-- A decode with a lower limit and a cancellation `Truncates` the one that goes on to the end. -/
theorem Decoder.Lowers.truncates (h : d.Lowers d') {c : ℕ∞}
    (hvisible : FirstVisible ⟨exp, d.settings, oracle, cancelled, observe⟩ [] context d.sampler
      world c) :
    Truncates d'.settings.maxSteps c []
      (d.decode exp oracle (fun _ => false) observe context world)
      (d'.decode exp oracle cancelled observe context world) := by
  have hpos : 0 < d'.settings.maxSteps := (d'.settings.valid_iff.mp d'.valid).2.2.2.1
  obtain ⟨left, hleft⟩ : ∃ left, d'.settings.maxSteps = left + 1 :=
    ⟨_, (Nat.succ_pred hpos.ne').symm⟩
  have hle := h.limit
  -- the limit of the shorter decode is the number of steps after which the other is cut
  obtain ⟨short, htruncates, hshort⟩ :=
    (runs_steps ⟨exp, d.settings, oracle, fun _ => false, observe⟩ d.settings.maxSteps [] context
      d.sampler world).truncates (show left + 1 ≤ d.settings.maxSteps by omega) (by simp)
      (show ([] : List Token).length + (left + 1) = d'.settings.maxSteps by simp [hleft])
      (by simp) hvisible
  rw [hshort.eq_steps, ← h.settings, ← hleft] at htruncates
  rw [Decoder.decode, Decoder.decode, h.sampler]
  exact htruncates

/-- What a decode that nothing cancels has `selected` before it fails, and in which step it does. -/
theorem Decoder.selected_of_error {step : ℕ} {reason : String}
    (h : (d.decode exp oracle cancelled observe context world).outcome =
      .error (.oracle step reason)) :
    (d.decode exp oracle cancelled observe context world).selected [] =
        shown (d.acts exp oracle cancelled observe context world) ∧
      (d.decode exp oracle cancelled observe context world).lastStep = step := by
  obtain ⟨_, _, _, _, -, -, -, hevents⟩ := d.transcribes exp oracle cancelled observe context world
  simp only [Run.selected, Run.lastStep, h, hevents, List.nil_append, shown, and_self]

/-- A `decode` that is cut short, by a limit that is lower or by a cancellation, does the same as
the decode to the end if that ends before the cut, and returns the first of its tokens otherwise.
The end comes before the cut if it is a stop token or a prediction that fails or admits no selection
after fewer tokens than the limit, and if the cancellation is not visible at that step.  An advance
that fails takes one more token before the limit. -/
theorem decode_truncated (hlowers : d.Lowers d') (c : ℕ∞)
    (hvisible : FirstVisible ⟨exp, d.settings, oracle, cancelled, observe⟩ [] context d.sampler
      world c) :
    let whole := d.decode exp oracle (fun _ => false) observe context world
    let acts := d.acts exp oracle (fun _ => false) observe context world
    let short := d'.decode exp oracle cancelled observe context world
    let limit := d'.settings.maxSteps
    (∀ out, whole.outcome = .ok out →
      (out.finish = .stopToken ∧ out.tokens.length < limit ∧ out.tokens.length < c →
        short = whole) ∧
      (¬(out.finish = .stopToken ∧ out.tokens.length < limit ∧ out.tokens.length < c) →
        short.outcome = .ok (truncated out.tokens limit c))) ∧
    (∀ fault, whole.outcome = .error fault → ∃ step reason, fault = .oracle step reason ∧
      (((∃ last answer, acts.getLast? = some (.predict last answer)) ∧
          (short.outcome = .error fault ↔ step < limit ∧ step < c)) ∨
        ((∃ last token, acts.getLast? = some (.advance last token (.error reason))) ∧
          (short.outcome = .error fault ↔ step + 1 < limit ∧ step < c))) ∧
      (short.outcome = .error fault → short = whole) ∧
      (short.outcome ≠ .error fault →
        short.outcome = .ok (truncated (shown acts) limit c))) := by
  -- the two runs are compared once, and the outcomes are read off that
  intro whole acts short limit
  have htruncates : Truncates limit c [] whole short :=
    hlowers.truncates exp oracle cancelled observe context world hvisible
  refine ⟨fun out hout => ?_, fun fault hfault => ?_⟩
  · have hruns : Runs _ _ _ _ _ _ whole :=
      runs_steps ⟨exp, d.settings, oracle, fun _ => false, observe⟩ d.settings.maxSteps [] context
        d.sampler world
    obtain ⟨tokens, finish⟩ := out
    have hselected : whole.selected [] = tokens := by simp only [Run.selected, hout]
    obtain ⟨hwhole, hcut⟩ := htruncates
    rw [hselected] at hwhole hcut
    cases finish with
    | stopToken =>
      have hlast : whole.lastStep = tokens.length := by simp only [Run.lastStep, hout]
      rw [hlast] at hwhole hcut
      exact ⟨fun h => hwhole h.2.1 h.2.2, fun h => hcut fun hends => h ⟨rfl, hends⟩⟩
    | maxSteps =>
      -- the whole decode took no fewer tokens than the limit
      have hlength : tokens.length = 0 + d.settings.maxSteps := hruns.length_of_maxSteps hout rfl
      have hle := hlowers.limit
      exact ⟨fun h => absurd h.1 nofun, fun _ => hcut fun hends => by omega⟩
    | cancelled => exact absurd rfl (hruns.finish (fun _ => rfl) hout)
  · have htranscribes := d.transcribes exp oracle (fun _ => false) observe context world
    rw [show (d.decode exp oracle _ observe context world).outcome = _ from hfault] at htranscribes
    obtain ⟨step, reason, rfl, -, hcalls⟩ := htranscribes.calls_of_error
    obtain ⟨hselected, hlast⟩ := d.selected_of_error exp oracle _ observe context world hfault
    obtain ⟨hwhole, hcut⟩ := htruncates
    rw [hselected, hlast] at hwhole hcut
    -- a truncation succeeds, so the shorter decode fails only as the whole one does
    have hiff : short.outcome = .error (.oracle step reason) ↔
        (shown acts).length < limit ∧ step < c := by
      refine ⟨fun h => ?_, fun h => (hwhole h.1 h.2).symm ▸ hfault⟩
      by_contra hends
      rw [hcut hends] at h
      cases h
    refine ⟨step, reason, rfl, ?_, fun h => ?_, fun h => hcut fun hends => h (hiff.mpr hends)⟩
    · rcases hcalls with ⟨-, hevents, last, answer, hacts, -⟩ | ⟨-, hevents, last, token, hacts⟩
      · have hshown : (shown acts).length = step := by rw [shown, List.length_map, hevents]
        exact .inl ⟨⟨last, answer, hacts⟩, by rw [hiff, hshown]⟩
      · have hshown : (shown acts).length = step + 1 := by rw [shown, List.length_map, hevents]
        exact .inr ⟨⟨last, token, hacts⟩, by rw [hiff, hshown]⟩
    · obtain ⟨hlimit, hc⟩ := hiff.mp h
      exact hwhole hlimit hc

end Decodes

/-! ## A cancellation at every step -/

/-- The `Oracle` with a clock that counts its advances, as a world in which a signal can be set. -/
def Oracle.ticking (oracle : Oracle κ σ) : Oracle κ (σ × ℕ) where
  predict context world :=
    let reply := oracle.predict context world.1
    (reply.1, reply.2, world.2)
  advance context token world :=
    let reply := oracle.advance context token world.1
    (reply.1, reply.2, world.2 + 1)

/-- At the start of every step that a decode `Reaches` the clock tells the number of tokens
selected. -/
theorem Reaches.clock {env : Surroundings κ (σ × ℕ)} {oracle : Oracle κ σ}
    {tokens selected : List Token} {context : κ} {sampler : Sampler} {world last : σ × ℕ}
    (h : Reaches env tokens context sampler world selected last)
    (horacle : env.oracle = oracle.ticking)
    (hobserve : ∀ event world, (env.observe event world).2 = world.2)
    (hclock : world.2 = tokens.length) : last.2 = selected.length := by
  induction h with
  | here => exact hclock
  | step hselects _ _ hadvance _ ih =>
    have hpredict := congrArg (·.2.2) hselects.predict
    have hadvance' := congrArg (·.2.2) hadvance
    simp only [horacle, Oracle.ticking, hobserve] at hpredict hadvance'
    apply ih
    rw [List.length_append, List.length_singleton, ← hclock, ← hadvance', ← hpredict]

/-- A cancellation by the clock is first visible at the step for which it is set, so that every `c`
that `decode_truncated` speaks of occurs. -/
theorem firstVisible_ticking (exp : Float32 → Float32) (settings : Settings) (oracle : Oracle κ σ)
    (observe : StepEvent → σ → σ) (context : κ) (sampler : Sampler) (world : σ) (c : ℕ) :
    FirstVisible ⟨exp, settings, oracle.ticking, fun world => decide (c ≤ world.2),
      fun event world => (observe event world.1, world.2)⟩ [] context sampler (world, 0) c := by
  intro selected last h
  have hclock := h.clock (show _ = oracle.ticking from rfl) (fun _ _ => rfl) rfl
  simp only [Nat.cast_lt, Nat.cast_inj, hclock, decide_eq_false_iff_not, decide_eq_true_eq, not_le]
  exact ⟨id, fun h => h.ge⟩

/-- The second of two tokens comes after the cut: a decode of the `ticking` oracle up to a
signal. -/
theorem decode_truncated_greedy :
    let oracle := (replay [[2, 1], [2, 1], [0, 3]]).ticking
    let shorter : Decoder :=
      { greedy with settings := { greedy.settings with maxSteps := 2 }, valid := by decide }
    greedy.Lowers shorter ∧
      (greedy.decode id oracle (fun _ => false) (fun _ world => world) 0 ((), 0)).outcome =
        .ok ⟨[0, 0], .stopToken⟩ ∧
      (shorter.decode id oracle (fun world => decide (1 ≤ world.2)) (fun _ world => world) 0
        ((), 0)).outcome = .ok ⟨[0], .cancelled⟩ := by
  intro oracle shorter
  have hlowers : greedy.Lowers shorter := ⟨rfl, by decide, rfl⟩
  have hwhole : (greedy.decode id oracle (fun _ => false) (fun _ world => world) 0
      ((), 0)).outcome = .ok ⟨[0, 0], .stopToken⟩ := by decide
  -- the signal fires with the first call, so it is seen before the second step
  have hvisible := firstVisible_ticking id greedy.settings (replay [[2, 1], [2, 1], [0, 3]])
    (fun _ world => world) 0 greedy.sampler () 1
  obtain ⟨hok, -⟩ := decode_truncated greedy shorter id oracle _ _ 0 ((), 0) hlowers 1 hvisible
  refine ⟨hlowers, hwhole, ((hok _ hwhole).2 fun h => ?_).trans ?_⟩
  · exact absurd h.2.1 (by decide)
  · rw [truncated, if_pos (by decide)]
    rfl

end Utterance.Decode
