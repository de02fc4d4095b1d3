import Utterance.Proofs.Decode.Protocol
import Utterance.Proofs.Scores.Selection

/-!
# What becomes of a prediction

A prediction of sound scores is followed by the token that was picked from them, or by nothing when
none was (`Transcribes.at_prediction`), and every token that the observer is shown was picked from
the prediction just before (`Transcribes.at_event`).  Together with what selection can pick, this
says which tokens a decode takes and when it finds none.
-/

namespace Utterance.Decode

open Binary
open Sampling (Settings)
open Scores (Sampler Numbers Usable Spared Addressed IsExp)

variable {κ σ : Type} {exp : Float32 → Float32} {settings : Settings}

/-- The tokens of the events that are `observed`, in order. -/
def shown (acts : List (Act κ)) : List Token :=
  (observed acts).map (·.token)

/-- No acts have `shown` any tokens. -/
@[simp] theorem shown_nil : shown ([] : List (Act κ)) = [] :=
  rfl

/-- The acts of a full step have `shown` its token first. -/
theorem shown_cons (context : κ) (answer : Except String Scores) (event : StepEvent) (context' : κ)
    (token : Token) (answer' : Except String κ) (acts : List (Act κ)) :
    shown (.predict context answer :: .observe event :: .advance context' token answer' :: acts) =
      event.token :: shown acts :=
  rfl

/-- In `exchangeTokens` the token of the first full step comes first. -/
theorem exchangeTokens_cons (e : Exchange κ) (rest : List (Exchange κ)) :
    exchangeTokens (e :: rest) = e.token :: exchangeTokens rest :=
  rfl

/-- `shown` lists the tokens of the first acts and then those of the others. -/
@[simp] theorem shown_append (acts acts' : List (Act κ)) :
    shown (acts ++ acts') = shown acts ++ shown acts' := by
  rw [shown, observed_append, List.map_append]
  rfl

/-- The acts of full steps have `shown` the tokens that these select, by induction on the steps. -/
theorem shown_exchangeActs (step : ℕ) (exchanges : List (Exchange κ)) :
    shown (exchangeActs step exchanges) = exchangeTokens exchanges := by
  induction exchanges generalizing step with
  | nil => rfl
  | cons e rest ih => rw [exchangeActs, shown_cons, ih, exchangeTokens_cons]

/-- A token is `shown` because some event had it. -/
theorem exists_of_mem_shown {acts : List (Act κ)} {token : Token} (h : token ∈ shown acts) :
    ∃ event, event.token = token ∧ .observe event ∈ acts := by
  obtain ⟨event, hevent, rfl⟩ := List.mem_map.mp h
  obtain ⟨act, hact, hsome⟩ := List.mem_filterMap.mp hevent
  cases act with
  | observe shown =>
    obtain rfl := Option.some.inj hsome
    exact ⟨shown, rfl, hact⟩
  | predict | advance => cases hsome

/-- What follows once a selection was made after `tokens`. -/
inductive Continues (settings : Settings) (tokens : List Token) :
    Option Token → List (Act κ) → Except DecodeFault Output → Prop
  | fault : Continues settings tokens none [] (.error (.oracle tokens.length selectionFault))
  | stop :
      Continues settings tokens (some settings.stopToken)
        [.observe ⟨tokens.length, settings.stopToken, true⟩] (.ok ⟨tokens, .stopToken⟩)
  | token {token : Token} {rest : List (Act κ)} {outcome : Except DecodeFault Output}
      (hstop : token ≠ settings.stopToken) :
      Continues settings tokens (some token) (.observe ⟨tokens.length, token, false⟩ :: rest)
        outcome

section Continues

variable {tokens : List Token} {after : List (Act κ)} {outcome : Except DecodeFault Output}

/-- Without a choice the decode ends with `selectionFault`. -/
theorem Continues.of_none (h : Continues settings tokens none after outcome) :
    after = [] ∧ outcome = .error (.oracle tokens.length selectionFault) := by
  cases h
  exact ⟨rfl, rfl⟩

/-- A token that was chosen is the one that the next `observe` tells. -/
theorem Continues.of_some {token : Token}
    (h : Continues settings tokens (some token) after outcome) :
    ∃ event rest, after = .observe event :: rest ∧ event.token = token := by
  cases h with
  | stop => exact ⟨_, [], rfl, rfl⟩
  | token => exact ⟨_, _, rfl, rfl⟩

/-- The stop token, once chosen, is told by `observe` and ends the decode. -/
theorem Continues.of_stop
    (h : Continues settings tokens (some settings.stopToken) after outcome) :
    after = [.observe ⟨tokens.length, settings.stopToken, true⟩] ∧
      outcome = .ok ⟨tokens, .stopToken⟩ := by
  cases h with
  | stop => exact ⟨rfl, rfl⟩
  | token hother => exact absurd rfl hother

end Continues

section Ends

variable {tokens : List Token} {context : κ} {sampler sampler' : Sampler} {ending : List (Act κ)}
  {outcome : Except DecodeFault Output}

/-- An ending predicts only at its start: `isPredict` is false from its second act on. -/
theorem Ends.isPredict_tail
    (h : Ends exp settings tokens context sampler ending outcome sampler') :
    ∀ act ∈ ending.tail, act.isPredict = false := by
  cases h <;> simp [Act.isPredict]

/-- An ending shows a token only as its second act: `event?` answers nothing from its third act
on. -/
theorem Ends.event?_drop
    (h : Ends exp settings tokens context sampler ending outcome sampler') :
    ∀ act ∈ ending.drop 2, act.event? = none := by
  cases h <;> simp [Act.event?]

/-- A `predict` of sound scores in an ending is its first act, and what `Picks` gives decides the
rest. -/
theorem Ends.at_prediction {before after : List (Act κ)} {context' : κ} {scores : Scores}
    (h : Ends exp settings tokens context sampler
      (before ++ .predict context' (.ok scores) :: after) outcome sampler')
    (hne : scores ≠ []) (hscores : Numbers scores) :
    before = [] ∧ ∃ choice picked, Picks exp settings tokens sampler scores choice picked ∧
      Continues settings tokens choice after outcome := by
  cases before with
  | nil =>
    refine ⟨rfl, ?_⟩
    rw [List.nil_append] at h
    cases h with
    | emptyScores => exact absurd rfl hne
    | undefinedScores hnan =>
      obtain ⟨x, hx, hxnan⟩ := hnan
      rw [hscores x hx] at hxnan
      -- the vector is sound, so that what follows depends on the choice alone
      cases hxnan
    | noSelection hpicks => exact ⟨_, _, hpicks, .fault⟩
    | stopToken hpicks => exact ⟨_, _, hpicks, .stop⟩
    | maxSteps hpicks hstop _ => exact ⟨_, _, hpicks, .token hstop⟩
    | advanceFault _ hpicks hstop _ => exact ⟨_, _, hpicks, .token hstop⟩
  | cons act before =>
    -- the prediction would not be the first act
    have hmem : .predict context' (.ok scores) ∈
        before ++ .predict context' (.ok scores) :: after :=
      List.mem_append_right _ List.mem_cons_self
    exact absurd (h.isPredict_tail _ hmem) nofun

/-- A token that an ending shows by `observe` was picked from its prediction. -/
theorem Ends.at_event {before after : List (Act κ)} {event : StepEvent}
    (h : Ends exp settings tokens context sampler (before ++ .observe event :: after) outcome
      sampler') :
    ∃ scores picked, before = [.predict context (.ok scores)] ∧
      Picks exp settings tokens sampler scores (some event.token) picked := by
  rcases before with _ | ⟨act, _ | ⟨act', before⟩⟩
  · cases h
  · rw [List.singleton_append] at h
    cases h with
    | stopToken hpicks | maxSteps hpicks | advanceFault _ hpicks => exact ⟨_, _, rfl, hpicks⟩
  · have hmem : .observe event ∈ before ++ .observe event :: after :=
      List.mem_append_right _ List.mem_cons_self
    exact absurd (h.event?_drop _ hmem) nofun

end Ends

/-- What `Picks` leaves of the sampler does not select in another way. -/
theorem Picks.selection_eq {tokens : List Token} {sampler picked : Sampler} {scores : Scores}
    {choice : Option Token} (h : Picks exp settings tokens sampler scores choice picked) :
    picked.selection = sampler.selection := by
  have hpicked := congrArg Prod.snd h.pick_eq
  rw [pick] at hpicked
  rw [← show _ = picked from hpicked, Scores.selection_select]

section Transcribes

variable {tokens : List Token} {context : κ} {sampler sampler' : Sampler} {acts : List (Act κ)}
  {outcome : Except DecodeFault Output} {events : List StepEvent} {before after : List (Act κ)}

/-- From sound scores `Picks` has a token, after the tokens shown before, or the decode ends. The
induction is on the full steps; the prediction belongs to the first of them or to the rest. -/
theorem Transcribes.at_prediction {context' : κ} {scores : Scores}
    (h : Transcribes exp settings tokens context sampler acts outcome events sampler')
    (hacts : acts = before ++ .predict context' (.ok scores) :: after)
    (hne : scores ≠ []) (hscores : Numbers scores) :
    ∃ picking choice picked,
      Picks exp settings (tokens ++ shown before) picking scores choice picked ∧
        Continues settings (tokens ++ shown before) choice after outcome := by
  obtain ⟨exchanges, last, final, ending, hfollows, hends, rfl, -⟩ := h
  clear events
  -- the prediction is in one of the exchanges, or in the ending
  induction hfollows generalizing before with
  | nil tokens context sampler =>
    simp only [exchangeActs, exchangeTokens, List.map_nil, List.append_nil, List.nil_append]
      at hacts hends
    subst hacts
    obtain ⟨rfl, choice, picked, hpicks, hcontinues⟩ := hends.at_prediction hne hscores
    rw [shown_nil, List.append_nil]
    exact ⟨sampler, choice, picked, hpicks, hcontinues⟩
  | @cons tokens sampler picked e rest _ _ hpicks hstop _ _ ih =>
    rcases before with _ | ⟨_, _ | ⟨_, _ | ⟨_, before⟩⟩⟩
    · -- this step predicts
      simp only [exchangeActs, List.nil_append, List.cons_append, List.cons.injEq,
        Act.predict.injEq, Except.ok.injEq] at hacts
      obtain ⟨⟨rfl, rfl⟩, rfl⟩ := hacts
      rw [shown_nil, List.append_nil]
      exact ⟨sampler, _, picked, hpicks, .token hstop⟩
    · simp [exchangeActs] at hacts
    · simp [exchangeActs] at hacts
    · -- a later one does
      simp only [exchangeActs, List.cons_append, List.cons.injEq] at hacts
      obtain ⟨rfl, rfl, rfl, hacts⟩ := hacts
      rw [exchangeTokens_cons, List.append_cons] at hends
      rw [← List.length_singleton, ← List.length_append] at hacts
      rw [shown_cons, List.append_cons]
      exact ih hends hacts

/-- A token shown was picked from the scores just before, after the tokens shown before it and in
the way to select that the decode started with.  The induction is on the full steps, as in
`Transcribes.at_prediction`. -/
theorem Transcribes.at_event_selection {event : StepEvent}
    (h : Transcribes exp settings tokens context sampler acts outcome events sampler')
    (hacts : acts = before ++ .observe event :: after) :
    ∃ (earlier : List (Act κ)) (context' : κ) (scores : Scores) (picking picked : Sampler),
      before = earlier ++ [.predict context' (.ok scores)] ∧
        Picks exp settings (tokens ++ shown earlier) picking scores (some event.token) picked ∧
        picking.selection = sampler.selection := by
  obtain ⟨exchanges, last, final, ending, hfollows, hends, rfl, -⟩ := h
  clear events
  -- the event is in one of the exchanges, or in the ending
  induction hfollows generalizing before with
  | nil tokens context sampler =>
    simp only [exchangeActs, exchangeTokens, List.map_nil, List.append_nil, List.nil_append]
      at hacts hends
    subst hacts
    obtain ⟨scores, picked, rfl, hpicks⟩ := hends.at_event
    refine ⟨[], context, scores, sampler, picked, rfl, ?_, rfl⟩
    rwa [shown_nil, List.append_nil]
  | @cons tokens sampler picked e rest _ _ hpicks hstop _ _ ih =>
    rcases before with _ | ⟨_, _ | ⟨_, _ | ⟨_, before⟩⟩⟩
    · simp [exchangeActs] at hacts
    · -- this step shows the token
      simp only [exchangeActs, List.nil_append, List.cons_append, List.cons.injEq,
        Act.observe.injEq] at hacts
      obtain ⟨rfl, rfl, rfl⟩ := hacts
      refine ⟨[], e.context, e.scores, sampler, picked, rfl, ?_, rfl⟩
      rwa [shown_nil, List.append_nil]
    · simp [exchangeActs] at hacts
    · -- a later one does
      simp only [exchangeActs, List.cons_append, List.cons.injEq] at hacts
      obtain ⟨rfl, rfl, rfl, hacts⟩ := hacts
      rw [exchangeTokens_cons, List.append_cons] at hends
      rw [← List.length_singleton, ← List.length_append] at hacts
      obtain ⟨earlier, context', scores, picking, picked', rfl, hpicks', hselection⟩ :=
        ih hends hacts
      refine ⟨_ :: _ :: _ :: earlier, context', scores, picking, picked', rfl, ?_,
        hselection.trans hpicks.selection_eq⟩
      rwa [shown_cons, List.append_cons]

/-- `Transcribes.at_event_selection` without the way to select. -/
theorem Transcribes.at_event {event : StepEvent}
    (h : Transcribes exp settings tokens context sampler acts outcome events sampler')
    (hacts : acts = before ++ .observe event :: after) :
    ∃ (earlier : List (Act κ)) (context' : κ) (scores : Scores) (picking picked : Sampler),
      before = earlier ++ [.predict context' (.ok scores)] ∧
        Picks exp settings (tokens ++ shown earlier) picking scores (some event.token) picked := by
  obtain ⟨earlier, context', scores, picking, picked, hbefore, hpicks, -⟩ :=
    h.at_event_selection hacts
  exact ⟨earlier, context', scores, picking, picked, hbefore, hpicks⟩

/-- The tokens that come out were `shown`. -/
theorem Transcribes.mem_shown {out : Output}
    (h : Transcribes exp settings [] context sampler acts (.ok out) events sampler') {token : Token}
    (htoken : token ∈ out.tokens) : token ∈ shown acts := by
  obtain ⟨exchanges, last, final, ending, -, hends, rfl, -⟩ := h
  rw [List.nil_append] at hends
  rw [List.length_nil, shown_append, shown_exchangeActs, List.mem_append]
  cases hends with
  | cancelled | stopToken => exact .inl htoken
  | maxSteps => exact List.mem_append.mp htoken

end Transcribes

/-- Where there are certain tokens, `reweigh` and `select` lead to one of them. -/
theorem Decoder.select_certain (d : Decoder) (hexp : IsExp exp) (history : List Token) (s : Sampler)
    {scores : Scores} (hscores : Numbers scores) (hmem : infinity ∈ scores) :
    ∃ i, (s.select exp (Scores.reweigh exp (Scores.stages d.settings) history scores)).1 =
      Scores.tokenAt? i ∧ scores[i]? = some infinity := by
  obtain ⟨-, -, ⟨hfinite, hone⟩, -⟩ := d.settings.valid_iff.mp d.valid
  obtain ⟨i, x, hselect, hx, -, hinf⟩ := Scores.select_reweigh_of_spared d.valid hexp history s
    hscores (Scores.spared_of_infinity_mem hfinite hone history hmem)
  exact ⟨i, hselect, hinf hmem ▸ hx⟩

/-- The function `exp` as it is at zero and far below it, which is all that the witnesses use. -/
def coarseExp (x : Float32) : Float32 :=
  if x == 0 then 1 else 0

/-- `coarseExp` has the properties of the exponential function that selection relies on. -/
theorem isExp_coarseExp : IsExp coarseExp where
  range x _ := by
    unfold coarseExp
    split
    · decide
    · decide
  zero := by decide

section Decodes

variable (d : Decoder) (oracle : Oracle κ σ) (cancelled : σ → Bool)
  (observe : StepEvent → σ → σ) (context : κ) (world : σ)

/-! ## Which scores are selected -/

/-- A token that is selected from re-weighted scores had a score above `-inf`, and where some scores
are `inf` the position of one of them is selected, which has a token when it fits in an id.  So
every token that a decode shows has a score above `-inf` in the prediction just before, every token
that it returns was shown, and a prediction that makes only the stop token certain ends it. -/
theorem selection_support (hexp : IsExp exp) :
    let run := d.decode exp oracle cancelled observe context world
    let acts := d.acts exp oracle cancelled observe context world
    (∀ (history : List Token) (s : Sampler) (scores : Scores), Numbers scores →
      let choice := (s.select exp (Scores.reweigh exp (Scores.stages d.settings) history scores)).1
      (∀ token, choice = some token → ∃ x, scores[token.toNat]? = some x ∧ negInfinity < x) ∧
      (infinity ∈ scores → ∃ i, choice = Scores.tokenAt? i ∧ scores[i]? = some infinity) ∧
      (infinity ∈ scores → (∀ i, scores[i]? = some infinity → i < 2 ^ 32) →
        ∃ token, choice = some token ∧ scores[token.toNat]? = some infinity)) ∧
    (∀ before event after, acts = before ++ .observe event :: after →
      ∃ earlier context' scores x, before = earlier ++ [.predict context' (.ok scores)] ∧
        scores[event.token.toNat]? = some x ∧ negInfinity < x) ∧
    (∀ out, run.outcome = .ok out → ∀ token ∈ out.tokens,
      ∃ event, event.token = token ∧ .observe event ∈ acts) ∧
    (∀ before context' scores after, acts = before ++ .predict context' (.ok scores) :: after →
      Numbers scores → (∀ i, scores[i]? = some infinity ↔ i = d.settings.stopToken.toNat) →
      after = [.observe ⟨(shown before).length, d.settings.stopToken, true⟩] ∧
        run.outcome = .ok ⟨shown before, .stopToken⟩) := by
  have htranscribes := d.transcribes exp oracle cancelled observe context world
  refine ⟨fun history s scores hscores => ⟨fun token h => ?_, fun hmem => ?_, fun hmem hids => ?_⟩,
    fun before event after h => ?_, fun out h token htoken => ?_,
    fun before context' scores after h hscores honly => ?_⟩
  · -- what is selected was above `-inf` before re-weighting
    obtain ⟨x, hx, hlt, -⟩ := Scores.select_reweigh_of_some d.valid hexp history s hscores h
    exact ⟨x, hx, hlt⟩
  · exact d.select_certain hexp history s hscores hmem
  · obtain ⟨i, hchoice, hi⟩ := d.select_certain hexp history s hscores hmem
    have htoken : Scores.tokenAt? i = some i.toUInt32 := if_pos (hids i hi)
    refine ⟨_, hchoice.trans htoken, ?_⟩
    rwa [Scores.tokenAt?_eq_some_iff.mp htoken]
  · -- an event shows what was selected from the scores predicted just before
    obtain ⟨earlier, context', scores, picking, picked, hbefore, hpicks⟩ := htranscribes.at_event h
    have hchoice := congrArg Prod.fst hpicks.pick_eq
    obtain ⟨x, hx, hlt, -⟩ :=
      Scores.select_reweigh_of_some d.valid hexp _ picking hpicks.numbers hchoice
    exact ⟨earlier, context', scores, x, hbefore, hx, hlt⟩
  · -- a token of the output has been shown, and only selected tokens are shown
    rw [h] at htranscribes
    exact exists_of_mem_shown (htranscribes.mem_shown htoken)
  · -- a certain stop token leaves nothing else to select
    have hmem : infinity ∈ scores := List.mem_of_getElem? ((honly _).mpr rfl)
    obtain ⟨picking, choice, picked, hpicks, hcontinues⟩ :=
      htranscribes.at_prediction h (List.ne_nil_of_mem hmem) hscores
    obtain ⟨i, hchoice, hi⟩ := d.select_certain hexp
      (d.settings.startToken :: ([] ++ shown before)) picking hscores hmem
    have hpicked : (pick exp d.settings ([] ++ shown before) picking scores).1 = choice :=
      congrArg Prod.fst hpicks.pick_eq
    have hstop : choice = some d.settings.stopToken :=
      hpicked.symm.trans
        (hchoice.trans (Scores.tokenAt?_eq_some_iff.mpr ((honly i).mp hi).symm))
    rw [hstop] at hcontinues
    exact hcontinues.of_stop

/-- A decode by `greedy` from a mask, and then a certain stop token. -/
theorem selection_support_greedy :
    (∃ x, [300, 0, negInfinity][0]? = some x ∧ negInfinity < x) ∧
      (greedy.decode coarseExp (replay [[0, infinity]]) (fun _ => false) (fun _ world => world) 0
        ()).outcome = .ok ⟨[], .stopToken⟩ := by
  obtain ⟨hselect, -, -, hstop⟩ := selection_support greedy (replay [[0, infinity]])
    (fun _ => false) (fun _ world => world) 0 () isExp_coarseExp
  -- the first part for one vector of scores, the last for a decode
  refine ⟨(hselect [] greedy.sampler [300, 0, negInfinity] ?_).1 0 (by decide),
    (hstop [] 0 [0, infinity] [.observe ⟨0, 1, true⟩] rfl ?_ fun i => ?_).2⟩
  · unfold Numbers
    decide
  · unfold Numbers
    decide
  · -- the two positions, and those beyond
    rcases i with _ | _ | i
    · decide
    · decide
    · exact iff_of_false nofun nofun

/-! ## When nothing is selected -/

/-- Re-weighting leaves numbers, and a score above `-inf` among them exactly when the penalty spares
one; it is the only stage that can mask them all.  So either way to select succeeds exactly then, if
the scores above `-inf` have tokens, and a decode that finds no token in a usable prediction has met
scores that the penalty did not spare. -/
theorem selection_succeeds_iff (hexp : IsExp exp) :
    let run := d.decode exp oracle cancelled observe context world
    let acts := d.acts exp oracle cancelled observe context world
    let penalty := d.settings.repetitionPenalty
    (∀ (history : List Token) (s : Sampler) (scores : Scores), Numbers scores →
      let reweighed := Scores.reweigh exp (Scores.stages d.settings) history scores
      Numbers reweighed ∧ (Usable reweighed ↔ Spared penalty history scores) ∧
        (Addressed scores →
          ((s.select exp reweighed).1.isSome = true ↔ Spared penalty history scores))) ∧
    (∀ before context' scores after, acts = before ++ .predict context' (.ok scores) :: after →
      Numbers scores → Usable scores → Addressed scores →
      (Spared penalty (d.settings.startToken :: shown before) scores →
        ∃ event rest, after = .observe event :: rest) ∧
      (¬Spared penalty (d.settings.startToken :: shown before) scores →
        after = [] ∧ run.outcome = .error (.oracle (shown before).length selectionFault))) := by
  have htranscribes := d.transcribes exp oracle cancelled observe context world
  refine ⟨fun history s scores hscores => ⟨?_, ?_, fun hids => ?_⟩,
    fun before context' scores after h hscores husable hids => ?_⟩
  · exact (Scores.reweigh_narrows exp history (Scores.stages_valid d.valid) hscores).numbers
  · exact Scores.reweigh_usable_iff exp history d.valid hscores
  · exact Scores.isSome_select_reweigh_iff d.valid hexp history s hscores hids
  · -- the selection of a decode sees the history that has been shown so far
    obtain ⟨x, hx, -⟩ := husable
    obtain ⟨picking, choice, picked, hpicks, hcontinues⟩ :=
      htranscribes.at_prediction h (List.ne_nil_of_mem hx) hscores
    have hiff := Scores.isSome_select_reweigh_iff d.valid hexp
      (d.settings.startToken :: ([] ++ shown before)) picking hscores hids
    have hpicked : (pick exp d.settings ([] ++ shown before) picking scores).1 = choice :=
      congrArg Prod.fst hpicks.pick_eq
    rw [show (picking.select exp _).1 = choice from hpicked] at hiff
    cases choice with
    | none => exact ⟨fun hspared => absurd (hiff.mpr hspared) nofun, fun _ => hcontinues.of_none⟩
    | some token =>
      obtain ⟨event, rest, hafter, -⟩ := hcontinues.of_some
      exact ⟨fun _ => ⟨event, rest, hafter⟩, fun hspared => absurd (hiff.mp rfl) hspared⟩

/-- A `Decoder` for one step that draws a token, where used ones have their scores halved. -/
def halving : Decoder where
  settings := {
    temperature := 1
    topK := 0
    topP := 1
    repetitionPenalty := 2
    maxSteps := 1
    startToken := 0
    stopToken := 5
  }
  valid := by decide
  sampler := ⟨.multinomial, ⟨⟨⟨0, 0, 0, 0⟩, ⟨0, 0, 0, 0⟩⟩, 0⟩⟩

/-- The start token counts as used, so a lone score of `-3e38` is not spared: its product with the
penalty overflows. -/
theorem selection_fails_on_overflow :
    let scores : Scores := [.ofBits 0xff61b1e6]
    let reweighed := Scores.reweigh coarseExp (Scores.stages halving.settings)
      [halving.settings.startToken] scores
    Numbers scores ∧ Usable scores ∧ reweighed = [negInfinity] ∧
      (Sampler.select coarseExp halving.sampler reweighed).1 = none ∧
      (Sampler.select coarseExp greedy.sampler reweighed).1 = none ∧
      (halving.decode coarseExp (replay [scores]) (fun _ => false) (fun _ world => world) 0
        ()).outcome = .error (.oracle 0 selectionFault) := by
  refine ⟨?_, ?_, by decide +kernel, by decide +kernel, by decide +kernel, by decide +kernel⟩
  · unfold Numbers
    decide
  · unfold Usable
    decide

/-- A second token that has not been used is spared by the decoder `halving`. -/
theorem selection_succeeds_iff_halving :
    (Sampler.select coarseExp halving.sampler
      (Scores.reweigh coarseExp (Scores.stages halving.settings) [halving.settings.startToken]
        [.ofBits 0xff61b1e6, 0])).1.isSome = true := by
  obtain ⟨hselect, -⟩ := selection_succeeds_iff halving (replay []) (fun _ => false)
    (fun _ world => world) 0 () isExp_coarseExp
  obtain ⟨-, -, hiff⟩ := hselect [halving.settings.startToken] halving.sampler
    [.ofBits 0xff61b1e6, 0] (by unfold Numbers; decide)
  refine (hiff fun i x hx _ => ?_).mpr ⟨1, 0, rfl, by decide, fun hused => absurd hused (by decide)⟩
  obtain ⟨hi, -⟩ := List.getElem?_eq_some_iff.mp hx
  have hlength : i < 2 := hi
  omega

end Decodes

end Utterance.Decode
