import Utterance.Proofs.Speech.Transcript

/-!
# Requests that do not influence each other

When the answers of the model depend on nothing but what it is asked, and every decode has a seed,
then the world does not show in the answer to a request.  So a synthesizer in use answers each
request as if it were the first.

## Key results

- `Model.Stateless.alike`: such a model answers alike in any two worlds
- `speakAll_eq_map`: the answers to requests one after the other, in terms of any one synthesizer
- `speakAll_independent`: the answers are those of new synthesizers, in any order
-/

namespace Utterance.Speech

open Sampling (Overrides)

variable {κ σ : Type}

/-- The answers of the `Model` depend only on what it is asked. -/
structure Model.Stateless (model : Model κ σ) : Prop where
  predict (context : κ) (world world' : σ) :
    (model.predict context world).1 = (model.predict context world').1
  advance (context : κ) (token : Token) (world world' : σ) :
    (model.advance context token world).1 = (model.advance context token world').1
  prefill (text : String) (start : Token) (world world' : σ) :
    (model.prefill text start world).1 = (model.prefill text start world').1
  vocode (tokens : List Token) (world world' : σ) :
    (model.vocode tokens world).1 = (model.vocode tokens world').1

/-- A model that is `Stateless` answers alike in any two worlds. -/
theorem Model.Stateless.alike {model : Model κ σ} (h : model.Stateless) :
    model.Alike (fun _ _ => True) model where
  rate := rfl
  oracle := ⟨fun _ context => ⟨h.predict context _ _, trivial⟩,
    fun _ context token => ⟨h.advance context token _ _, trivial⟩⟩
  prefill _ text start := ⟨h.prefill text start _ _, trivial⟩
  vocode _ tokens := ⟨h.vocode tokens _ _, trivial⟩

/-- A text to speak, with some `Overrides`. -/
structure Request where
  text : String
  overrides : Overrides

namespace Synthesizer

/-- Answers requests one after the other, each with `speak`. -/
def speakAll (s : Synthesizer κ σ) : List Request → σ → List (Except SpeechFault Synthesis) × σ
  | [], world => ([], world)
  | request :: rest, world =>
    let (answer, world) := s.speak request.text request.overrides world
    let (answers, world) := s.speakAll rest world
    (answer :: answers, world)

/-- `new` puts together what it is given, if the settings are valid. -/
theorem of_new {exp : Float32 → Float32} {model : Model κ σ} {sampling : Sampling.Settings}
    {text : Text.Settings} {cancelled : σ → Bool} {entropy : σ → Random.Generator × σ}
    {s : Synthesizer κ σ} (h : new exp model sampling text cancelled entropy = .ok s) :
    ∃ valid, s = ⟨exp, model, sampling, valid, text, cancelled, entropy⟩ := by
  unfold new at h
  split at h
  · cases h
  · next valid =>
    cases h
    exact ⟨valid, rfl⟩

/-- `speak` answers a request with a seed alike in any two worlds, by synthesizers that nothing
cancels. -/
theorem speak_eq_of_stateless {s fresh : Synthesizer κ σ} (halike : s.Alike (fun _ _ => True) fresh)
    {request : Request} (hseed : (request.overrides.seed.or s.sampling.seed).isSome = true)
    (world start : σ) :
    (s.speak request.text request.overrides world).1 =
      (fresh.speak request.text request.overrides start).1 := by
  have hseeded : request.overrides.seed.or s.sampling.seed ≠ none :=
    Option.isSome_iff_ne_none.mp hseed
  exact (halike.speak request.text request.overrides (fun hnone => absurd hnone hseeded)
    trivial).1

/-- `speakAll` answers each request as any synthesizer that is alike does, whatever was asked
before. -/
theorem speakAll_eq_map {s fresh : Synthesizer κ σ} (halike : s.Alike (fun _ _ => True) fresh)
    (start : σ) (requests : List Request)
    (hseeds : ∀ request ∈ requests,
      (request.overrides.seed.or s.sampling.seed).isSome = true) (world : σ) :
    (s.speakAll requests world).1 =
      requests.map fun request => (fresh.speak request.text request.overrides start).1 := by
  induction requests generalizing world with
  | nil => rfl
  | cons request rest ih =>
    obtain ⟨hseed, hrest⟩ := List.forall_mem_cons.mp hseeds
    simp only [speakAll, List.map_cons]
    rw [speak_eq_of_stateless halike hseed world start, ih hrest]

/-- Requests that each have a seed, to a synthesizer with a model that is `Stateless` and that
nothing cancels, are answered as if each were the first request to a synthesizer that was just
built, and the settings stay as they were.  Requests in another order get their answers in that
order. -/
theorem speakAll_independent {exp : Float32 → Float32} {model : Model κ σ}
    (hstateless : model.Stateless) {sampling : Sampling.Settings} {text : Text.Settings}
    {cancelled : σ → Bool} (hrunning : ∀ world, cancelled world = false)
    {entropy : σ → Random.Generator × σ} {s : Synthesizer κ σ}
    (hnew : new exp model sampling text cancelled entropy = .ok s) (requests : List Request)
    (hseeds : ∀ request ∈ requests, (request.overrides.seed.or sampling.seed).isSome = true)
    (world : σ) :
    s.sampling = sampling ∧
      (∀ (cancelled' : σ → Bool) (entropy' : σ → Random.Generator × σ) (fresh : Synthesizer κ σ),
        (∀ world, cancelled' world = false) →
        new exp model sampling text cancelled' entropy' = .ok fresh → ∀ start : σ,
          (s.speakAll requests world).1 =
            requests.map fun request => (fresh.speak request.text request.overrides start).1) ∧
      ∀ requests' : List Request, requests.Perm requests' → ∀ world' : σ,
        (requests.zip (s.speakAll requests world).1).Perm
          (requests'.zip (s.speakAll requests' world').1) := by
  obtain ⟨valid, rfl⟩ := of_new hnew
  have halike : ∀ (cancelled' : σ → Bool) (entropy' : σ → Random.Generator × σ),
      (∀ world, cancelled' world = false) →
      (⟨exp, model, sampling, valid, text, cancelled, entropy⟩ : Synthesizer κ σ).Alike
        (fun _ _ => True) ⟨exp, model, sampling, valid, text, cancelled', entropy'⟩ :=
    fun _ _ hrunning' =>
      ⟨rfl, rfl, rfl, hstateless.alike, fun _ => (hrunning _).trans (hrunning' _).symm,
        fun _ => trivial⟩
  refine ⟨rfl, fun cancelled' entropy' fresh hrunning' hfresh start => ?_,
    fun requests' hperm world' => ?_⟩
  · obtain ⟨-, rfl⟩ := of_new hfresh
    exact speakAll_eq_map (halike cancelled' entropy' hrunning') start requests hseeds world
  · have hseeds' : ∀ request ∈ requests',
        (request.overrides.seed.or sampling.seed).isSome = true :=
      fun request hrequest => hseeds request (hperm.mem_iff.mpr hrequest)
    -- each request is paired with an answer that depends on nothing else
    rw [speakAll_eq_map (halike cancelled entropy hrunning) world requests hseeds,
      speakAll_eq_map (halike cancelled entropy hrunning) world requests' hseeds']
    rw [← List.map_prod_left_eq_zip, ← List.map_prod_left_eq_zip]
    exact hperm.map _

/-- A model that keeps a log of its calls by `recorded` does not let it show in its answers: after
two requests that fail, the third one is answered as if they had not been there. -/
theorem speakAll_independent_reader :
    let requests : List Request := [⟨"Two!", {}⟩, ⟨"One.", { topK := some (-1) }⟩, ⟨"One.", {}⟩]
    reader.model.recorded.Stateless ∧
      (reader.recorded.speakAll requests ((), [])).1.map
          (fun answer => answer.map (·.chunks)) =
        [.error (.synthesis "not a one"), .error (.ofSettings (.negativeTopK (-1))),
          .ok [⟨"One.", 1, .stopToken⟩]] := by
  intro requests
  have hstateless : reader.model.recorded.Stateless :=
    ⟨fun _ _ _ => rfl, fun _ _ _ _ => rfl, fun _ _ _ _ => rfl, fun _ _ _ => rfl⟩
  -- the recording synthesizer is made afresh, so each answer is that of a request alone
  have hnew : new reader.exp reader.model.recorded reader.sampling reader.text (fun _ => false)
      reader.recorded.entropy = .ok reader.recorded := rfl
  obtain ⟨-, hanswers, -⟩ := speakAll_independent hstateless (fun _ => rfl) hnew requests
    (by decide) ((), [])
  refine ⟨hstateless, ?_⟩
  rw [hanswers _ _ _ (fun _ => rfl) hnew ((), [])]
  decide +kernel

end Synthesizer

end Utterance.Speech
