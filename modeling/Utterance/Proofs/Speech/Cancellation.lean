import Utterance.Proofs.Speech.Timeline

/-!
# Cancellation

A cancellation is noticed at the start of a decoding step and nowhere else, so some calls of a
request may still start after it.  How many that are, and whether the request still succeeds,
follows from what a decode, a chunk and all chunks together do about it.

## Key results

- `Runs.heeds`: what a decode does about a cancellation
- `speakChunk_heeds`, `speakChunks_heed`: the same for one chunk, and for all chunks of a request
- `speak_after_cancellation`: which calls may start after a cancellation, and which requests succeed
-/

namespace Utterance.Speech

open Decode (Act Decoder Output Runs runs_steps)
open Sampling (Settings Overrides)
open Scores (Sampler)

variable {κ σ : Type}

/-! ## Decodes -/

/-- A step over timed worlds adds `call` to the timeline and does not take a cancellation back. -/
structure Happens (cancelled : σ → Bool) (call : Call κ) (world world' : σ × List (Timed κ σ)) :
    Prop where
  timeline : world'.2 = world.2 ++ [⟨call, world.1, world'.1⟩]
  latches : cancelled world.1 = true → cancelled world'.1 = true

section Latching

variable {s : Synthesizer κ σ} (h : s.Latching) {world world' : σ × List (Timed κ σ)}

include h

/-- `Model.prefill` goes on the timeline and latches. -/
theorem Synthesizer.Latching.happens_prefill {text : String} {start : Token}
    {answer : Except SpeechFault κ}
    (hcall : s.timed.model.prefill text start world = (answer, world')) :
    Happens s.cancelled (.prefill text start answer) world world' := by
  cases hcall
  exact ⟨rfl, h.prefill text start⟩

/-- `Model.predict` goes on the timeline and latches. -/
theorem Synthesizer.Latching.happens_predict {context : κ} {answer : Except String Scores}
    (hcall : s.timed.model.predict context world = (answer, world')) :
    Happens s.cancelled (.oracle (.predict context answer)) world world' := by
  cases hcall
  exact ⟨rfl, h.predict context⟩

/-- `Model.advance` goes on the timeline and latches. -/
theorem Synthesizer.Latching.happens_advance {context : κ} {token : Token}
    {answer : Except String κ}
    (hcall : s.timed.model.advance context token world = (answer, world')) :
    Happens s.cancelled (.oracle (.advance context token answer)) world world' := by
  cases hcall
  exact ⟨rfl, h.advance context token⟩

/-- `Model.vocode` goes on the timeline and latches. -/
theorem Synthesizer.Latching.happens_vocode {tokens : List Token}
    {answer : Except SpeechFault (List Float32)}
    (hcall : s.timed.model.vocode tokens world = (answer, world')) :
    Happens s.cancelled (.vocode tokens answer) world world' := by
  cases hcall
  exact ⟨rfl, h.vocode tokens⟩

end Latching

/-- What a decode does about a cancellation.  When it starts after one it is over at once
(`refused`), and otherwise only an advance may start after one (`late_cases`).  It comes to an end
of its own with a prediction that starts before the cancellation (`finished`). -/
structure Heeds (cancelled : σ → Bool) (world : σ) (acts : List (Timed κ σ)) (last : σ)
    (outcome : Except DecodeFault Output) : Prop where
  linked : Linked cancelled world acts last
  isOracle : ∀ entry ∈ acts, ∃ act, entry.call = .oracle act
  refused : cancelled world = true → acts = [] ∧ ∃ tokens, outcome = .ok ⟨tokens, .cancelled⟩
  late_cases : late cancelled acts = [] ∨
    ∃ context token answer, late cancelled acts = [.oracle (.advance context token answer)]
  finished : ∀ out, outcome = .ok out → out.finish ≠ .cancelled →
    ∃ earlier prediction context scores, acts = earlier ++ [prediction] ∧
      prediction.call = .oracle (.predict context (.ok scores)) ∧
      cancelled prediction.start = false

namespace Heeds

variable {cancelled : σ → Bool} {context : κ} {scores : Scores} {token : Token}
  {world middle next : σ × List (Timed κ σ)} {outcome : Except DecodeFault Output}

/-- A decode that looks for a cancellation and finds one `Heeds` it without a call. -/
theorem refuse (tokens : List Token) {world : σ} :
    Heeds cancelled world ([] : List (Timed κ σ)) world (.ok ⟨tokens, .cancelled⟩) where
  linked := .nil id
  isOracle := by simp
  refused _ := ⟨rfl, tokens, rfl⟩
  late_cases := .inl rfl
  finished out hout hfinish := by
    cases hout
    exact absurd rfl hfinish

/-- A decode that ends with its first `predict`, well or not, `Heeds` the cancellation. -/
theorem of_predict {answer : Except String Scores} (hrunning : cancelled world.1 = false)
    (hpredict : Happens cancelled (.oracle (.predict context answer)) world middle)
    (hok : ∀ out, outcome = .ok out → ∃ scores, answer = .ok scores) :
    Heeds cancelled world.1 [⟨.oracle (.predict context answer), world.1, middle.1⟩] middle.1
      outcome where
  linked := .cons id hpredict.latches (.nil id)
  isOracle := by simp
  refused h := by simp [hrunning] at h
  late_cases := .inl (late_cons_of_running hrunning)
  finished out hout _ := by
    obtain ⟨scores, rfl⟩ := hok out hout
    exact ⟨[], _, context, scores, rfl, rfl, hrunning⟩

/-- A decode that ends with its first `advance`, which fails, `Heeds` the cancellation. -/
theorem of_advance {answer : Except String κ} {fault : DecodeFault}
    (hrunning : cancelled world.1 = false)
    (hpredict : Happens cancelled (.oracle (.predict context (.ok scores))) world middle)
    (hadvance : Happens cancelled (.oracle (.advance context token answer)) middle next) :
    Heeds cancelled world.1
      [⟨.oracle (.predict context (.ok scores)), world.1, middle.1⟩,
        ⟨.oracle (.advance context token answer), middle.1, next.1⟩] next.1 (.error fault) where
  linked := .cons id hpredict.latches (.cons id hadvance.latches (.nil id))
  isOracle := by simp
  refused h := by simp [hrunning] at h
  late_cases := by
    rw [late_cons_of_running hrunning]
    cases hcancelled : cancelled middle.1 with
    | false => exact .inl (late_cons_of_running hcancelled)
    | true => exact .inr ⟨_, _, _, late_cons_of_cancelled hcancelled⟩
  finished := nofun

/-- A full step in front of a decode that `Heeds` a cancellation. -/
theorem step {context' : κ} {acts : List (Timed κ σ)} {last : σ}
    (h : Heeds cancelled next.1 acts last outcome) (hrunning : cancelled world.1 = false)
    (hpredict : Happens cancelled (.oracle (.predict context (.ok scores))) world middle)
    (hadvance : Happens cancelled (.oracle (.advance context token (.ok context'))) middle next) :
    Heeds cancelled world.1
      (⟨.oracle (.predict context (.ok scores)), world.1, middle.1⟩ ::
        ⟨.oracle (.advance context token (.ok context')), middle.1, next.1⟩ :: acts)
      last outcome where
  linked := .cons id hpredict.latches (.cons id hadvance.latches h.linked)
  isOracle := by simpa using h.isOracle
  refused h := by simp [hrunning] at h
  late_cases := by
    rw [late_cons_of_running hrunning]
    -- only the advance can start late: the prediction comes right after the look for a cancellation
    cases hcancelled : cancelled middle.1 with
    | false =>
      rw [late_cons_of_running hcancelled]
      exact h.late_cases
    | true =>
      -- the advance starts late, so the next step does not take place
      obtain ⟨rfl, -⟩ := h.refused (hadvance.latches hcancelled)
      exact .inr ⟨_, _, _, late_cons_of_cancelled hcancelled⟩
  finished out hout hfinish := by
    obtain ⟨earlier, prediction, context, scores, rfl, hprediction⟩ := h.finished out hout hfinish
    exact ⟨_ :: _ :: earlier, prediction, context, scores, rfl, hprediction⟩

section Finished

variable {world last : σ} {acts : List (Timed κ σ)} {output : Output}
  (h : Heeds cancelled world acts last (.ok output)) (hfinish : output.finish ≠ .cancelled)

include h hfinish

/-- A decode that comes to an end of its own does not start after the cancellation: `refused` would
have it end as `.cancelled`. -/
theorem running_of_finished : cancelled world = false := by
  by_contra hcancelled
  obtain ⟨-, tokens, houtput⟩ := h.refused (Bool.not_eq_false _ ▸ hcancelled)
  cases houtput
  exact hfinish rfl

/-- None of the calls of a decode that comes to an end of its own is `late`. -/
theorem late_of_finished : late cancelled acts = [] := by
  have hlinked := h.linked
  obtain ⟨earlier, prediction, _, _, rfl, -, hrunning⟩ := h.finished output rfl hfinish
  rw [late_append, late_cons_of_running hrunning,
    late_of_early (hlinked.before.early hrunning), late_nil, List.append_nil]

end Finished

end Heeds

/-- Every run `Heeds` a cancellation, which it looks for at the start of each step. -/
theorem Runs.heeds {s : Synthesizer κ σ} (hlatching : s.Latching) {exp : Float32 → Float32}
    {settings : Settings} {remaining : ℕ} {tokens : List Token} {context : κ} {sampler : Sampler}
    {world : σ × List (Timed κ σ)} {run : Decode.Run (σ × List (Timed κ σ))}
    (h : Runs ⟨exp, settings, s.timed.model.toOracle, s.timed.cancelled, fun _ world => world⟩
      remaining tokens context sampler world run) (hne : remaining ≠ 0) :
    ∃ acts, run.world.2 = world.2 ++ acts ∧
      Heeds s.cancelled world.1 acts run.world.1 run.outcome := by
  -- a decode without a step to go does not look for a cancellation
  induction h with
  | exhausted => exact absurd rfl hne
  | cancelled tokens => exact ⟨[], (List.append_nil _).symm, .refuse tokens⟩
  | predictFault _ _ hrunning hpredict | scoresFault _ _ hrunning hpredict =>
    have hfirst := hlatching.happens_predict hpredict
    exact ⟨_, hfirst.timeline, .of_predict hrunning hfirst nofun⟩
  | noSelection hselects =>
    have hfirst := hlatching.happens_predict hselects.predict
    exact ⟨_, hfirst.timeline, .of_predict hselects.running hfirst nofun⟩
  | stopToken hselects | maxSteps hselects =>
    have hfirst := hlatching.happens_predict hselects.predict
    exact ⟨_, hfirst.timeline, .of_predict hselects.running hfirst fun _ _ => ⟨_, rfl⟩⟩
  | advanceFault hselects _ hadvance =>
    have hfirst := hlatching.happens_predict hselects.predict
    have hsecond := hlatching.happens_advance hadvance
    refine ⟨_, ?_, .of_advance hselects.running hfirst hsecond⟩
    rw [hsecond.timeline, hfirst.timeline, List.append_assoc]
    rfl
  | step hselects _ hadvance _ ih =>
    have hfirst := hlatching.happens_predict hselects.predict
    have hsecond := hlatching.happens_advance hadvance
    obtain ⟨acts, hacts, hheeds⟩ := ih (Nat.succ_ne_zero _)
    refine ⟨_, ?_, hheeds.step hselects.running hfirst hsecond⟩
    rw [Decode.Run.after, hacts, hsecond.timeline, hfirst.timeline, List.append_assoc,
      List.append_assoc]
    rfl

/-! ## Chunks -/

/-- How many calls of each kind start after the cancellation: no prediction, and at most one of each
other kind. -/
structure Limited (calls : List (Call κ)) : Prop where
  predicts : calls.countP Call.isPredict = 0
  advances : calls.countP Call.isAdvance ≤ 1
  vocodes : calls.countP Call.isVocode ≤ 1
  prefills : calls.countP Call.isPrefill ≤ 1

/-- No calls are `Limited`. -/
theorem Limited.nil : Limited ([] : List (Call κ)) :=
  ⟨rfl, Nat.zero_le _, Nat.zero_le _, Nat.zero_le _⟩

/-- A single call is `Limited`, if it is not a prediction. -/
theorem Limited.singleton {call : Call κ} (h : call.isPredict = false) : Limited [call] := by
  have hle : ∀ p : Call κ → Bool, [call].countP p ≤ 1 := fun p => List.countP_le_length
  exact ⟨by simp [h], hle _, hle _, hle _⟩

/-- A vocoding and a prefill are `Limited`: they are the two calls that may start late between two
chunks. -/
theorem Limited.vocode_prefill {tokens : List Token} {audio : Except SpeechFault (List Float32)}
    {text : String} {start : Token} {answer : Except SpeechFault κ} :
    Limited [.vocode tokens audio, .prefill text start answer] :=
  ⟨rfl, Nat.zero_le _, Nat.le_refl _, Nat.le_refl _⟩

/-- Some of the calls that are `Limited` are so too. -/
theorem Limited.of_sublist {calls calls' : List (Call κ)} (h : Limited calls')
    (hsub : calls.Sublist calls') : Limited calls :=
  ⟨Nat.le_zero.mp (hsub.countP_le.trans h.predicts.le), hsub.countP_le.trans h.advances,
    hsub.countP_le.trans h.vocodes, hsub.countP_le.trans h.prefills⟩

/-- A timeline that ends with a chunk that is spoken: the prefill, the acts of a decode of which the
last is the `predict` that finishes it, and the vocoding.  The cancellation does not come before
that prediction starts. -/
inductive Finishes (cancelled : σ → Bool) (report : ChunkReport) : List (Timed κ σ) → Prop
  | intro {before acts : List (Timed κ σ)} {prefilling prediction vocoding : Timed κ σ}
      {start : Token} {context last : κ} {scores : Scores} {tokens : List Token}
      {audio : List Float32}
      (hprefilling : prefilling.call = .prefill report.text start (.ok context))
      (hacts : ∀ entry ∈ acts, ∃ act, entry.call = .oracle act)
      (hprediction : prediction.call = .oracle (.predict last (.ok scores)))
      (hvocoding : vocoding.call = .vocode tokens (.ok audio))
      (htokens : report.tokens = tokens.length)
      (hfinish : report.finish = .stopToken ∨ report.finish = .maxSteps)
      (hearly : ∀ entry ∈ before ++ prefilling :: acts, entry.Early cancelled)
      (hrunning : cancelled prediction.start = false) :
      Finishes cancelled report (before ++ prefilling :: acts ++ [prediction, vocoding])

section Finishes

variable {cancelled : σ → Bool} {report : ChunkReport} {entries : List (Timed κ σ)}

/-- Early calls in front of a timeline that `Finishes` do not matter. -/
theorem Finishes.after {earlier : List (Timed κ σ)} (h : Finishes cancelled report entries)
    (hearlier : ∀ entry ∈ earlier, entry.Early cancelled) :
    Finishes cancelled report (earlier ++ entries) := by
  obtain ⟨hprefilling, hacts, hprediction, hvocoding, htokens, hfinish, hearly, hrunning⟩ := h
  rw [← List.append_assoc, ← List.append_assoc]
  refine .intro hprefilling hacts hprediction hvocoding htokens hfinish ?_ hrunning
  rw [List.append_assoc]
  exact List.forall_mem_append.mpr ⟨hearlier, hearly⟩

/-- The timeline of a chunk `Finishes` its report, when its decode `Heeds` the cancellation and
comes to an end of its own. -/
theorem Finishes.of_heeds {world last : σ} {acts : List (Timed κ σ)} {output : Output}
    {prefilling vocoding : Timed κ σ} {chunk : String} {start : Token} {context : κ}
    {audio : List Float32} (h : Heeds cancelled world acts last (.ok output))
    (hfinish : output.finish ≠ .cancelled)
    (hprefilling : prefilling.call = .prefill chunk start (.ok context))
    (hearly : prefilling.Early cancelled)
    (hvocoding : vocoding.call = .vocode output.tokens (.ok audio)) :
    Finishes cancelled ⟨chunk, output.tokens.length, output.finish⟩
      (prefilling :: acts ++ [vocoding]) := by
  have hcases : output.finish = .stopToken ∨ output.finish = .maxSteps := by
    cases hcase : output.finish with
    | stopToken => exact .inl rfl
    | maxSteps => exact .inr rfl
    | cancelled => exact absurd hcase hfinish
  -- the last prediction came while the token was unset, so everything before it did
  have hlinked := h.linked
  have hacts := h.isOracle
  obtain ⟨earlier, prediction, last, scores, rfl, hprediction, hrunning⟩ :=
    h.finished output rfl hfinish
  have hsplit : prefilling :: (earlier ++ [prediction]) ++ [vocoding] =
      [] ++ prefilling :: earlier ++ [prediction, vocoding] := by simp
  rw [hsplit]
  refine .intro hprefilling (fun entry hentry => hacts entry (List.mem_append_left _ hentry))
    hprediction hvocoding rfl hcases ?_ hrunning
  exact List.forall_mem_cons.mpr ⟨hearly, hlinked.before.early hrunning⟩

/-- A timeline that `Finishes` does not start after the cancellation. -/
theorem Finishes.running {world last : σ} (h : Finishes cancelled report entries)
    (hlinked : Linked cancelled world entries last) : cancelled world = false := by
  obtain ⟨-, -, -, -, -, -, -, hrunning⟩ := h
  exact Bool.eq_false_iff.mpr (mt hlinked.before.cancelled_last (by simp [hrunning]))

end Finishes

/-- What a chunk does about a cancellation.  When it starts after one then only its prefill takes
place (`refused`); when it fails then few of its calls start after one (`failed`), and when it is
spoken then only its vocoding does (`spoken`). -/
structure ChunkHeeds (cancelled : σ → Bool) (chunk : String) (world : σ)
    (entries : List (Timed κ σ)) (last : σ)
    (answer : Except SpeechFault (ChunkReport × List Float32)) : Prop where
  linked : Linked cancelled world entries last
  refused : cancelled world = true →
    (∃ start reply, entries.map (·.call) = [.prefill chunk start reply]) ∧
      ∃ fault, answer = .error fault
  failed : ∀ fault, answer = .error fault → Limited (late cancelled entries)
  spoken : ∀ report audio, answer = .ok (report, audio) →
    report.text = chunk ∧ Finishes cancelled report entries ∧
      (late cancelled entries = [] ∨
        ∃ tokens reply, late cancelled entries = [.vocode tokens reply])

namespace ChunkHeeds

variable {cancelled : σ → Bool} {chunk : String} {start : Token} {context : κ}
  {world prefilled decoded vocoded : σ × List (Timed κ σ)} {drawn : σ} {acts : List (Timed κ σ)}

/-- A chunk that fails with its `prefill`, or with the settings for its decode, heeds the
cancellation. -/
theorem of_prefill {reply : Except SpeechFault κ} {last : σ} {fault : SpeechFault}
    (hprefill : Happens cancelled (.prefill chunk start reply) world prefilled)
    (hdrawn : cancelled prefilled.1 = true → cancelled last = true) :
    ChunkHeeds cancelled chunk world.1 [⟨.prefill chunk start reply, world.1, prefilled.1⟩] last
      (.error fault) where
  linked := .cons id hprefill.latches (.nil hdrawn)
  refused _ := ⟨⟨start, reply, rfl⟩, fault, rfl⟩
  -- a single call follows, late just when the token had fired
  failed _ _ := by
    cases hcancelled : cancelled world.1 with
    | false =>
      rw [late_cons_of_running hcancelled]
      exact .nil
    | true =>
      rw [late_cons_of_cancelled hcancelled]
      exact .singleton rfl
  spoken := nofun

section Decoded

variable (hprefill : Happens cancelled (.prefill chunk start (.ok context)) world prefilled)
  (hdrawn : cancelled prefilled.1 = true → cancelled drawn = true)

include hprefill hdrawn

/-- A chunk that fails with its decode, or is cancelled in it, heeds the cancellation as the decode
`Heeds` it. -/
theorem of_decode {outcome : Except DecodeFault Output} {fault : SpeechFault}
    (h : Heeds cancelled drawn acts decoded.1 outcome) :
    ChunkHeeds cancelled chunk world.1
      (⟨.prefill chunk start (.ok context), world.1, prefilled.1⟩ :: acts) decoded.1
      (.error fault) where
  linked := .cons id hprefill.latches (h.linked.of_latches hdrawn)
  refused hworld := by
    obtain ⟨rfl, -⟩ := h.refused (hdrawn (hprefill.latches hworld))
    exact ⟨⟨start, .ok context, rfl⟩, fault, rfl⟩
  failed _ _ := by
    cases hcancelled : cancelled world.1 with
    | false =>
      rw [late_cons_of_running hcancelled]
      obtain hlate | ⟨_, _, _, hlate⟩ := h.late_cases
      · exact hlate ▸ .nil
      · exact hlate ▸ .singleton rfl
    | true =>
      -- the decode does not make any calls
      obtain ⟨rfl, -⟩ := h.refused (hdrawn (hprefill.latches hcancelled))
      rw [late_cons_of_cancelled hcancelled]
      exact .singleton rfl
  spoken := nofun

/-- A chunk that is decoded and then goes to `vocode`, with or without success, heeds the
cancellation. -/
theorem of_vocode {output : Output} {reply : Except SpeechFault (List Float32)}
    (h : Heeds cancelled drawn acts decoded.1 (.ok output)) (hfinish : output.finish ≠ .cancelled)
    (hvocode : Happens cancelled (.vocode output.tokens reply) decoded vocoded) :
    ChunkHeeds cancelled chunk world.1
      (⟨.prefill chunk start (.ok context), world.1, prefilled.1⟩ :: acts ++
        [⟨.vocode output.tokens reply, decoded.1, vocoded.1⟩]) vocoded.1
      (reply.map fun audio => (⟨chunk, output.tokens.length, output.finish⟩, audio)) := by
  have hnotDrawn : cancelled drawn = false := h.running_of_finished hfinish
  have hnotPrefilled : cancelled prefilled.1 = false :=
    Bool.eq_false_iff.mpr (mt hdrawn (by simp [hnotDrawn]))
  have hnotWorld : cancelled world.1 = false :=
    Bool.eq_false_iff.mpr (mt hprefill.latches (by simp [hnotPrefilled]))
  -- so nothing but the vocoding may start late
  have hlate : late cancelled (⟨.prefill chunk start (.ok context), world.1, prefilled.1⟩ :: acts ++
      [⟨.vocode output.tokens reply, decoded.1, vocoded.1⟩]) =
        if cancelled decoded.1 then [.vocode output.tokens reply] else [] := by
    rw [late_append, late_cons_of_running hnotWorld, h.late_of_finished hfinish, late_singleton,
      List.nil_append]
  refine ⟨.cons id hprefill.latches ((h.linked.of_latches hdrawn).append
    (.cons id hvocode.latches (.nil id))), fun h => ?_, fun fault _ => ?_,
    fun report audio hreply => ?_⟩
  · simp [hnotWorld] at h
  · rw [hlate]
    split
    · exact .singleton rfl
    · exact .nil
  · cases reply with
    | error fault => cases hreply
    | ok audio =>
      cases hreply
      refine ⟨rfl, ?_, ?_⟩
      · exact .of_heeds h hfinish rfl ⟨hnotWorld, hnotPrefilled⟩ rfl
      · rw [hlate]
        split
        · exact .inr ⟨_, _, rfl⟩
        · exact .inl rfl

end Decoded

end ChunkHeeds

/-- What some chunks do about a cancellation.  When they start after one then at most one prefill
takes place (`refused`).  In any case few of their calls start after one (`limited`), and they are
all spoken only if the last of them finishes in time (`finished`). -/
structure ChunksHeed (cancelled : σ → Bool) (chunks : List String) (world : σ)
    (entries : List (Timed κ σ)) (last : σ)
    (answer : Except SpeechFault (List ChunkReport × List Float32)) : Prop where
  linked : Linked cancelled world entries last
  refused : cancelled world = true → entries = [] ∨
    ∃ chunk start reply, entries.map (·.call) = [.prefill chunk start reply]
  limited : Limited (late cancelled entries)
  finished : ∀ reports samples, answer = .ok (reports, samples) →
    chunks = [] ∧ reports = [] ∧ entries = [] ∨
      ∃ report, reports.getLast? = some report ∧ chunks.getLast? = some report.text ∧
        Finishes cancelled report entries

namespace ChunksHeed

variable {cancelled : σ → Bool} {chunk : String} {rest : List String} {world middle last : σ}
  {entries entries' : List (Timed κ σ)}

/-- When nothing is done for the chunks, no call is made that could start late, so `ChunksHeed`
holds. -/
theorem of_nothing {chunks : List String} (fault : SpeechFault) :
    ChunksHeed cancelled chunks world ([] : List (Timed κ σ)) world (.error fault) where
  linked := .nil id
  refused _ := .inl rfl
  limited := .nil
  finished := nofun

/-- Without chunks `ChunksHeed` holds, as there is nothing that could start late. -/
theorem nil : ChunksHeed cancelled [] world ([] : List (Timed κ σ)) world (.ok ([], [])) where
  linked := .nil id
  refused _ := .inl rfl
  limited := .nil
  finished _ _ h := by
    cases h
    exact .inl ⟨rfl, rfl, rfl⟩

/-- The first chunk fails, and the others are left alone: `ChunksHeed` is `ChunkHeeds` of the
first. -/
theorem of_failed {fault : SpeechFault}
    (h : ChunkHeeds cancelled chunk world entries last (.error fault)) :
    ChunksHeed cancelled (chunk :: rest) world entries last (.error fault) where
  linked := h.linked
  refused hworld := .inr ⟨chunk, (h.refused hworld).1⟩
  limited := h.failed fault rfl
  finished := nofun

/-- The first chunk is spoken, and the others follow.  Calls of both that are `late` can only be a
vocoding of the first and a prefill of the second. -/
theorem of_spoken {report : ChunkReport} {audio : List Float32}
    {answer answer' : Except SpeechFault (List ChunkReport × List Float32)}
    (h : ChunkHeeds cancelled chunk world entries middle (.ok (report, audio)))
    (hrest : ChunksHeed cancelled rest middle entries' last answer)
    (hanswer : ∀ reports samples, answer' = .ok (reports, samples) →
      ∃ reports' samples', answer = .ok (reports', samples') ∧ reports = report :: reports') :
    ChunksHeed cancelled (chunk :: rest) world (entries ++ entries') last answer' := by
  obtain ⟨htext, hfinishes, hlate⟩ := h.spoken report audio rfl
  refine ⟨h.linked.append hrest.linked, fun hworld => ?_, ?_, fun reports samples hok => .inr ?_⟩
  · obtain ⟨-, fault, hfault⟩ := h.refused hworld
    cases hfault
  · cases hmiddle : cancelled middle with
    | false =>
      rw [late_append, late_of_early (h.linked.early hmiddle), List.nil_append]
      exact hrest.limited
    | true =>
      -- the chunk may have vocoded late, and of the others nothing but a prefill takes place
      have hfirst : ∃ tokens reply,
          (late cancelled entries).Sublist [.vocode tokens reply] := by
        obtain hnone | ⟨tokens, reply, hone⟩ := hlate
        · exact ⟨[], .ok [], hnone ▸ List.nil_sublist _⟩
        · exact ⟨tokens, reply, hone ▸ List.Sublist.refl _⟩
      have hothers : ∃ chunk start reply,
          (late cancelled entries').Sublist [.prefill chunk start reply] := by
        obtain rfl | ⟨chunk, start, reply, hone⟩ := hrest.refused hmiddle
        · exact ⟨chunk, 0, .error .cancelled, List.nil_sublist _⟩
        · exact ⟨chunk, start, reply, hone ▸ late_sublist⟩
      obtain ⟨tokens, reply, hfirst⟩ := hfirst
      obtain ⟨chunk, start, answer, hothers⟩ := hothers
      rw [late_append]
      exact Limited.vocode_prefill.of_sublist (hfirst.append hothers)
  · obtain ⟨reports', samples', hok', rfl⟩ := hanswer reports samples hok
    obtain ⟨rfl, rfl, rfl⟩ | ⟨final, hfinal, hchunk, hlast⟩ := hrest.finished reports' samples' hok'
    · rw [List.append_nil]
      exact ⟨report, rfl, by rw [htext]; rfl, hfinishes⟩
    · -- the others finish in time, so this chunk is over before the cancellation
      have hrunning := hlast.running hrest.linked
      refine ⟨final, ?_, ?_, hlast.after (h.linked.early hrunning)⟩
      · rw [List.getLast?_cons, hfinal, Option.getD_some]
      · rw [List.getLast?_cons, hchunk, Option.getD_some]

end ChunksHeed

section Requests

variable {s : Synthesizer κ σ} (hlatching : s.Latching) (settings : Settings)

include hlatching

/-- Every decode by a new decoder `Heeds` a cancellation. -/
theorem Decoder.heeds (d : Decoder) (context : κ) (world : σ × List (Timed κ σ)) :
    let run := d.decode s.exp s.timed.model.toOracle s.timed.cancelled (fun _ world => world)
      context world
    ∃ acts, run.world.2 = world.2 ++ acts ∧
      Heeds s.cancelled world.1 acts run.world.1 run.outcome :=
  Runs.heeds hlatching
    (runs_steps ⟨s.exp, d.settings, s.timed.model.toOracle, s.timed.cancelled, fun _ world => world⟩
      d.settings.maxSteps [] context d.sampler world)
    (d.settings.valid_iff.mp d.valid).2.2.2.1.ne'

/-- `speakChunk` heeds a cancellation. -/
theorem speakChunk_heeds (chunk : String) (world : σ × List (Timed κ σ)) :
    ∃ entries, (s.timed.speakChunk settings chunk world).2.2 = world.2 ++ entries ∧
      ChunkHeeds s.cancelled chunk world.1 entries (s.timed.speakChunk settings chunk world).2.1
        (s.timed.speakChunk settings chunk world).1 := by
  -- from call to call, as far as the chunk comes; each case is one of `ChunkHeeds`
  cases hcall : s.timed.model.prefill chunk settings.startToken world with
  | mk reply prefilled =>
    have hprefill := hlatching.happens_prefill hcall
    cases reply with
    | error fault =>
      simp only [Synthesizer.speakChunk, hcall]
      exact ⟨_, hprefill.timeline, .of_prefill hprefill id⟩
    | ok context =>
      rw [Synthesizer.speakChunk_of_prefill hcall]
      cases Decoder.new settings .multinomial (s.timed.entropy prefilled).1 with
      | error fault => exact ⟨_, hprefill.timeline, .of_prefill hprefill hlatching.entropy⟩
      | ok d =>
        obtain ⟨acts, hacts, hheeds⟩ := Decoder.heeds hlatching d context
          (s.timed.entropy prefilled).2
        have hentropy : (s.timed.entropy prefilled).2.2 = prefilled.2 := rfl
        have hexp : s.timed.exp = s.exp := rfl
        rw [hentropy, hprefill.timeline, List.append_assoc] at hacts
        simp only [hexp]
        generalize d.decode s.exp s.timed.model.toOracle s.timed.cancelled (fun _ world => world)
          context (s.timed.entropy prefilled).2 = run at hacts hheeds ⊢
        obtain ⟨outcome, events, sampler, decoded⟩ := run
        cases outcome with
        | error fault => exact ⟨_, hacts, .of_decode hprefill hlatching.entropy hheeds⟩
        | ok output =>
          by_cases hfinish : output.finish = .cancelled
          · simp only [if_pos hfinish]
            exact ⟨_, hacts, .of_decode hprefill hlatching.entropy hheeds⟩
          · simp only [if_neg hfinish]
            cases hvocode : s.timed.model.vocode output.tokens decoded with
            | mk reply vocoded =>
              have hlast := hlatching.happens_vocode hvocode
              have hchunk : ChunkHeeds s.cancelled chunk world.1 _ _ _ :=
                .of_vocode hprefill hlatching.entropy hheeds hfinish hlast
              have htimeline := hlast.timeline
              rw [hacts, List.append_assoc] at htimeline
              cases reply <;> exact ⟨_, htimeline, hchunk⟩

/-- `speakChunks` heeds a cancellation. -/
theorem speakChunks_heed (gap : List Float32) (chunks : List String)
    (world : σ × List (Timed κ σ)) :
    ∃ entries, (s.timed.speakChunks settings gap chunks world).2.2 = world.2 ++ entries ∧
      ChunksHeed s.cancelled chunks world.1 entries
        (s.timed.speakChunks settings gap chunks world).2.1
        (s.timed.speakChunks settings gap chunks world).1 := by
  -- induction on the chunks: the heed of the first, then that of the rest
  induction chunks generalizing world with
  | nil => exact ⟨[], (List.append_nil _).symm, .nil⟩
  | cons chunk rest ih =>
    obtain ⟨entries, htimeline, hchunk⟩ := speakChunk_heeds hlatching settings chunk world
    cases hanswer : s.timed.speakChunk settings chunk world with
    | mk answer next =>
      rw [hanswer] at htimeline hchunk
      cases answer with
      | error fault =>
        simp only [Synthesizer.speakChunks, hanswer]
        exact ⟨entries, htimeline, .of_failed hchunk⟩
      | ok spoken =>
        obtain ⟨entries', htimeline', hrest⟩ := ih next
        simp only [Synthesizer.speakChunks, hanswer]
        cases hothers : s.timed.speakChunks settings gap rest next with
        | mk answer last =>
          rw [hothers] at htimeline' hrest
          rw [htimeline, List.append_assoc] at htimeline'
          cases answer with
          | error fault => exact ⟨_, htimeline', .of_spoken hchunk hrest (by rintro _ _ ⟨⟩)⟩
          | ok others =>
            -- the answers of the chunks are put together
            refine ⟨_, htimeline', .of_spoken hchunk hrest fun reports samples hok => ?_⟩
            cases hok
            exact ⟨others.1, others.2, rfl, rfl⟩

/-- `speak` does about a cancellation what its chunks do. -/
theorem speak_heeds (text : String) (overrides : Overrides) (world : σ) :
    ∃ answer, ChunksHeed s.cancelled (Text.prepare s.text text).2 world
        (s.timeline text overrides world) (s.speak text overrides world).2 answer ∧
      ∀ synthesis, (s.speak text overrides world).1 = .ok synthesis →
        (Text.prepare s.text text).2 ≠ [] ∧ answer = .ok (synthesis.chunks, synthesis.samples) := by
  -- the timeline is what the timed synthesizer records
  suffices h : ∃ answer, ChunksHeed s.cancelled (Text.prepare s.text text).2 world
        (s.timed.speak text overrides (world, [])).2.2
        (s.timed.speak text overrides (world, [])).2.1 answer ∧
      ∀ synthesis, (s.timed.speak text overrides (world, [])).1 = .ok synthesis →
        (Text.prepare s.text text).2 ≠ [] ∧ answer = .ok (synthesis.chunks, synthesis.samples) by
    simpa only [s.speak_timed] using h
  cases hoverride : s.timed.sampling.override overrides with
  | error fault =>
    simp only [Synthesizer.speak, hoverride]
    exact ⟨_, .of_nothing (.ofSettings fault), by rintro _ ⟨⟩⟩
  | ok settings =>
    by_cases hchunks : (Text.prepare s.timed.text text).2 = []
    · simp only [Synthesizer.speak, hoverride, hchunks]
      exact ⟨_, .of_nothing .emptyText, by rintro _ ⟨⟩⟩
    · -- the settings are in force and there is a chunk to speak
      rw [s.timed.speak_of_chunks hoverride hchunks]
      obtain ⟨entries, htimeline, hheed⟩ := speakChunks_heed hlatching settings
        (Audio.silence s.timed.model.rate s.timed.text.chunkSilence)
        (Text.prepare s.timed.text text).2 (world, [])
      generalize s.timed.speakChunks settings _ _ _ = spoken at htimeline hheed ⊢
      obtain ⟨answer, last, timeline⟩ := spoken
      cases htimeline
      refine ⟨answer, ?_, ?_⟩
      · -- the answer of the chunks is the answer of the request
        cases answer <;> exact hheed
      · cases answer with
        | error fault => rintro _ ⟨⟩
        | ok spoken =>
          intro synthesis hsynthesis
          cases hsynthesis
          exact ⟨hchunks, rfl⟩

end Requests

/-! ## Requests -/

namespace Synthesizer

variable (s : Synthesizer κ σ)

/-- The world after some requests, each answered by `speak`. -/
def afterwards (requests : List (String × Overrides)) (world : σ) : σ :=
  requests.foldl (fun world request => (s.speak request.1 request.2 world).2) world

/-- `speak` fails, with at most one call, which is a prefill. -/
def Refuses (text : String) (overrides : Overrides) (world : σ) : Prop :=
  (∃ fault last, s.speak text overrides world = (.error fault, last)) ∧
    (s.calls text overrides world = [] ∨
      ∃ chunk start answer, s.calls text overrides world = [.prefill chunk start answer])

variable {s} (hlatching : s.Latching)

include hlatching

/-- A cancellation outlasts a request: it is there after `speak` if it was there before. -/
theorem cancelled_speak (text : String) (overrides : Overrides) {world : σ}
    (hworld : s.cancelled world = true) :
    s.cancelled (s.speak text overrides world).2 = true := by
  obtain ⟨_, hheed, -⟩ := speak_heeds hlatching text overrides world
  exact hheed.linked.cancelled_last hworld

/-- A cancellation outlasts any number of requests, by `cancelled_speak`. -/
theorem cancelled_afterwards (requests : List (String × Overrides)) {world : σ}
    (hworld : s.cancelled world = true) : s.cancelled (s.afterwards requests world) = true := by
  induction requests generalizing world with
  | nil => exact hworld
  | cons request rest ih => exact ih (cancelled_speak hlatching request.1 request.2 hworld)

/-- The synthesizer `Refuses` a request that starts after the cancellation. -/
theorem refuses_of_cancelled (text : String) (overrides : Overrides) {world : σ}
    (hworld : s.cancelled world = true) : s.Refuses text overrides world := by
  obtain ⟨answer, hheed, hok⟩ := speak_heeds hlatching text overrides world
  constructor
  · cases hspeak : s.speak text overrides world with
    | mk outcome last =>
      cases outcome with
      | error fault => exact ⟨fault, last, rfl⟩
      | ok synthesis =>
        -- to succeed, the last chunk would have to finish before the cancellation
        obtain ⟨hchunks, hanswer⟩ := hok synthesis (by rw [hspeak])
        obtain ⟨hnone, -⟩ | ⟨_, -, -, hfinishes⟩ := hheed.finished _ _ hanswer
        · exact absurd hnone hchunks
        · simp [hfinishes.running hheed.linked] at hworld
  · rw [← s.map_call_timeline]
    exact (hheed.refused hworld).imp_left (by rintro h; rw [h, List.map_nil])

end Synthesizer

/-- What `speak` does about a cancellation that is not taken back.  No prediction starts after it,
and of each other kind at most one call does (`Limited`).  The request succeeds only if the
cancellation does not come before the prediction starts that finishes its last chunk (`Finishes`).
The synthesizer `Refuses` every request that starts after the cancellation. -/
theorem speak_after_cancellation (s : Synthesizer κ σ) (hlatching : s.Latching) (text : String)
    (overrides : Overrides) (world : σ) :
    (s.timeline text overrides world).map (·.call) = s.calls text overrides world ∧
    Limited (late s.cancelled (s.timeline text overrides world)) ∧
    (∀ synthesis last, s.speak text overrides world = (.ok synthesis, last) →
      ∃ report, synthesis.chunks.getLast? = some report ∧
        (Text.prepare s.text text).2.getLast? = some report.text ∧
        Finishes s.cancelled report (s.timeline text overrides world)) ∧
    (s.cancelled world = true → s.Refuses text overrides world) ∧
    ((s.cancelled world = true ∨
        ∃ entry ∈ s.timeline text overrides world, s.cancelled entry.last = true) →
      ∀ between text' overrides',
        s.Refuses text' overrides' (s.afterwards between (s.speak text overrides world).2)) := by
  obtain ⟨answer, hheed, hok⟩ := speak_heeds hlatching text overrides world
  refine ⟨s.map_call_timeline text overrides world, hheed.limited, fun synthesis last hspeak => ?_,
    fun hworld => Synthesizer.refuses_of_cancelled hlatching text overrides hworld,
    fun hcancelled between text' overrides' => ?_⟩
  · -- an accepted request has chunks, so the last of them finishes its decode
    obtain ⟨hchunks, hanswer⟩ := hok synthesis (by rw [hspeak])
    obtain ⟨hnone, -⟩ | hfinished := hheed.finished _ _ hanswer
    · exact absurd hnone hchunks
    · exact hfinished
  · -- a fired token stays fired to the end of the request
    have hlast : s.cancelled (s.speak text overrides world).2 = true := by
      by_contra hrunning
      rw [Bool.not_eq_true] at hrunning
      obtain hworld | ⟨entry, hentry, hend⟩ := hcancelled
      · simp [hheed.linked.cancelled_last hworld] at hrunning
      · simp [(hheed.linked.early hrunning entry hentry).2] at hend
    exact Synthesizer.refuses_of_cancelled hlatching text' overrides'
      (Synthesizer.cancelled_afterwards hlatching between hlast)

/-- A synthesizer that reads `"One."` with one token, and is cancelled with the fourth call of its
model. -/
def sleeper : Synthesizer ℕ ℕ where
  exp := Decode.coarseExp
  model :=
    { predict := fun position calls =>
        (((Decode.replay [[0], [0, Binary.infinity]]).predict position ()).1, calls + 1)
      advance := fun position _ calls => (.ok (position + 1), calls + 1)
      rate := 10
      prefill := fun _ _ calls => (.ok 0, calls + 1)
      vocode := fun tokens calls => (.ok (tokens.map fun _ => 1), calls + 1) }
  sampling := reader.sampling
  valid := reader.valid
  text := {}
  cancelled calls := 4 ≤ calls
  entropy calls := (.ofSeed 0, calls)

/-- The cancellation of the `sleeper` counts calls, so nothing takes it back. -/
theorem latching_sleeper : sleeper.Latching := by
  have hcount : ∀ calls, sleeper.cancelled calls = true → sleeper.cancelled (calls + 1) = true := by
    intro calls h
    simp only [sleeper, decide_eq_true_eq] at h ⊢
    omega
  exact ⟨fun _ _ => hcount _, fun _ => hcount _, fun _ _ => hcount _, fun _ => hcount _, id⟩

/-- The fourth call of the `sleeper` is the prediction that finishes the only chunk, so the request
succeeds, with its vocoding after the cancellation.  All others are refused. -/
theorem speak_after_cancellation_sleeper :
    sleeper.Latching ∧
    (∃ synthesis report, sleeper.speak "One." {} 0 = (.ok synthesis, 5) ∧
      synthesis.chunks.getLast? = some report ∧ report.text = "One." ∧
      Finishes sleeper.cancelled report (sleeper.timeline "One." {} 0)) ∧
    (late sleeper.cancelled (sleeper.timeline "One." {} 0)).map Call.isVocode = [true] ∧
    ∀ text overrides, sleeper.Refuses text overrides 5 := by
  obtain ⟨-, -, hfinished, -, hlater⟩ :=
    speak_after_cancellation sleeper latching_sleeper "One." {} 0
  -- the runs of the sleeper, evaluated
  have hanswer : (sleeper.speak "One." {} 0).1.isOk = true := by decide +kernel
  have hlast : (sleeper.speak "One." {} 0).2 = 5 := by decide +kernel
  have hchunks : (Text.prepare sleeper.text "One.").2 = ["One."] := by decide +kernel
  have hended : (sleeper.timeline "One." {} 0).any (fun entry => sleeper.cancelled entry.last) =
      true := by decide +kernel
  have hlate : (late sleeper.cancelled (sleeper.timeline "One." {} 0)).map Call.isVocode =
      [true] := by decide +kernel
  refine ⟨latching_sleeper, ?_, hlate, fun text overrides => ?_⟩
  · cases hspeak : sleeper.speak "One." {} 0 with
    | mk answer last =>
      rw [hspeak] at hanswer hlast
      cases hlast
      cases answer with
      | error fault => cases hanswer
      | ok synthesis =>
        obtain ⟨report, hreport, hchunk, hfinishes⟩ := hfinished synthesis 5 hspeak
        rw [hchunks, List.getLast?_singleton] at hchunk
        exact ⟨synthesis, report, rfl, hreport, (Option.some.inj hchunk).symm, hfinishes⟩
  · have hrefused := hlater (.inr (List.any_eq_true.mp hended)) [] text overrides
    rwa [hlast] at hrefused

end Utterance.Speech
