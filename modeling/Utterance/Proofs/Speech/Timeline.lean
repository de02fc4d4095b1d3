import Utterance.Proofs.Speech.Transcript

/-!
# The timeline of a request

`Synthesizer.timed` notes down the calls of the model together with the worlds in which they start
and end.  Such a timeline tells which calls start after a cancellation, as long as nothing takes a
cancellation back.

## Key results

- `speak_timed`: keeping a timeline changes nothing else about a request
- `map_call_timeline`: the calls on the timeline are those of the request
- `Linked.early`, `Linked.before`: where a cancellation can come in a timeline
-/

namespace Utterance.Speech

open Sampling (Overrides)

variable {κ σ : Type}

/-! ## Timelines -/

namespace Call

/-- The call is a `prefill`. -/
def isPrefill : Call κ → Bool
  | .prefill _ _ _ => true
  | _ => false

/-- The call is a `predict` of the oracle. -/
def isPredict : Call κ → Bool
  | .oracle act => act.isPredict
  | _ => false

/-- The call is an `advance` of the oracle. -/
def isAdvance : Call κ → Bool
  | .oracle act => act.isAdvance
  | _ => false

/-- The call is a `vocode`. -/
def isVocode : Call κ → Bool
  | .vocode _ _ => true
  | _ => false

end Call

/-- A `Call` of a model, with the worlds in which it starts and ends. -/
structure Timed (κ σ : Type) where
  call : Call κ
  start : σ
  last : σ

/-- The model, with every `Call` added to a timeline. -/
def Model.timed (model : Model κ σ) : Model κ (σ × List (Timed κ σ)) where
  predict context world :=
    let reply := model.predict context world.1
    (reply.1, reply.2, world.2 ++ [⟨.oracle (.predict context reply.1), world.1, reply.2⟩])
  advance context token world :=
    let reply := model.advance context token world.1
    (reply.1, reply.2, world.2 ++ [⟨.oracle (.advance context token reply.1), world.1, reply.2⟩])
  rate := model.rate
  prefill text start world :=
    let reply := model.prefill text start world.1
    (reply.1, reply.2, world.2 ++ [⟨.prefill text start reply.1, world.1, reply.2⟩])
  vocode tokens world :=
    let reply := model.vocode tokens world.1
    (reply.1, reply.2, world.2 ++ [⟨.vocode tokens reply.1, world.1, reply.2⟩])

namespace Synthesizer

variable (s : Synthesizer κ σ)

/-- The synthesizer, with every call of its model added to a timeline by `Model.timed`. -/
def timed : Synthesizer κ (σ × List (Timed κ σ)) where
  exp := s.exp
  model := s.model.timed
  sampling := s.sampling
  valid := s.valid
  text := s.text
  cancelled world := s.cancelled world.1
  entropy world := ((s.entropy world.1).1, (s.entropy world.1).2, world.2)

/-- The calls that `speak` makes to the model, with the worlds in which they start and end. -/
def timeline (text : String) (overrides : Overrides) (world : σ) : List (Timed κ σ) :=
  (s.timed.speak text overrides (world, [])).2.2

/-- `timed` keeps a timeline and changes nothing else. -/
theorem timed_alike : s.Alike (fun world timed => world = timed.1) s.timed where
  exp := rfl
  sampling := rfl
  text := rfl
  model :=
    { rate := rfl
      oracle := ⟨fun h _ => h ▸ ⟨rfl, rfl⟩, fun h _ _ => h ▸ ⟨rfl, rfl⟩⟩
      prefill := fun h _ _ => h ▸ ⟨rfl, rfl⟩
      -- every answer of the timed model is that of the model itself
      vocode := fun h _ => h ▸ ⟨rfl, rfl⟩ }
  cancelled h := h ▸ rfl
  entropy h := h ▸ rfl

/-- The log of `recorded` and the timeline of `timed` get the same calls. -/
theorem recorded_alike_timed :
    s.recorded.Alike (fun logged timed => logged = (timed.1, timed.2.map (·.call))) s.timed where
  exp := rfl
  sampling := rfl
  text := rfl
  model :=
    { rate := rfl
      oracle :=
        ⟨fun h _ => h ▸ ⟨rfl, by simp [recorded, Model.recorded, timed, Model.timed]⟩,
          fun h _ _ => h ▸ ⟨rfl, by simp [recorded, Model.recorded, timed, Model.timed]⟩⟩
      prefill := fun h _ _ => h ▸ ⟨rfl, by simp [recorded, Model.recorded, timed, Model.timed]⟩
      vocode := fun h _ => h ▸ ⟨rfl, by simp [recorded, Model.recorded, timed, Model.timed]⟩ }
  cancelled h := h ▸ rfl
  entropy h := h ▸ rfl

/-- The answer to `speak` and the world after it, from the request with a timeline. -/
theorem speak_timed (text : String) (overrides : Overrides) (world : σ) :
    s.timed.speak text overrides (world, []) =
      ((s.speak text overrides world).1, (s.speak text overrides world).2,
        s.timeline text overrides world) := by
  have halike : Decode.Alike _ (s.speak text overrides world)
      (s.timed.speak text overrides (world, [])) :=
    s.timed_alike.speak text overrides (fun _ _ _ h => h ▸ rfl) rfl
  exact Prod.ext halike.1.symm (Prod.ext halike.2.symm rfl)

/-- The calls on the `timeline` of a request are its `calls`. -/
theorem map_call_timeline (text : String) (overrides : Overrides) (world : σ) :
    (s.timeline text overrides world).map (·.call) = s.calls text overrides world := by
  have halike : Decode.Alike _ (s.recorded.speak text overrides (world, []))
      (s.timed.speak text overrides (world, [])) :=
    s.recorded_alike_timed.speak text overrides (fun _ _ _ h => h ▸ rfl) rfl
  exact (congrArg Prod.snd halike.2).symm

end Synthesizer

/-! ## Cancellations that are not taken back -/

/-- Once cancelled, always cancelled: neither a call of the model nor drawing a generator by
`entropy` takes a cancellation back. -/
structure Synthesizer.Latching (s : Synthesizer κ σ) : Prop where
  prefill (text : String) (start : Token) {world : σ} (h : s.cancelled world = true) :
    s.cancelled (s.model.prefill text start world).2 = true
  predict (context : κ) {world : σ} (h : s.cancelled world = true) :
    s.cancelled (s.model.predict context world).2 = true
  advance (context : κ) (token : Token) {world : σ} (h : s.cancelled world = true) :
    s.cancelled (s.model.advance context token world).2 = true
  vocode (tokens : List Token) {world : σ} (h : s.cancelled world = true) :
    s.cancelled (s.model.vocode tokens world).2 = true
  entropy {world : σ} (h : s.cancelled world = true) : s.cancelled (s.entropy world).2 = true

/-- Timed calls one after the other between two worlds, over which a cancellation is not taken back,
be it in a call or between two of them. -/
inductive Linked (cancelled : σ → Bool) : σ → List (Timed κ σ) → σ → Prop
  | nil {world last : σ} (h : cancelled world = true → cancelled last = true) :
      Linked cancelled world [] last
  | cons {world last : σ} {entry : Timed κ σ} {rest : List (Timed κ σ)}
      (hstart : cancelled world = true → cancelled entry.start = true)
      (hlast : cancelled entry.start = true → cancelled entry.last = true)
      (hrest : Linked cancelled entry.last rest last) :
      Linked cancelled world (entry :: rest) last

/-- The call starts and ends before `cancelled` holds. -/
def Timed.Early (cancelled : σ → Bool) (entry : Timed κ σ) : Prop :=
  cancelled entry.start = false ∧ cancelled entry.last = false

/-- The calls that start after the cancellation: `cancelled` holds where they start. -/
def late (cancelled : σ → Bool) (entries : List (Timed κ σ)) : List (Call κ) :=
  (entries.filter fun entry => cancelled entry.start).map (·.call)

section Linked

variable {cancelled : σ → Bool} {world last : σ} {entries entries' : List (Timed κ σ)}
  {entry : Timed κ σ}

/-- Without any calls none is `late`. -/
@[simp] theorem late_nil : late cancelled ([] : List (Timed κ σ)) = [] :=
  rfl

/-- The `late` calls of one timeline and another come one after the other. -/
@[simp] theorem late_append :
    late cancelled (entries ++ entries') = late cancelled entries ++ late cancelled entries' := by
  simp [late]

/-- A call that starts before the cancellation is not `late`. -/
theorem late_cons_of_running (h : cancelled entry.start = false) :
    late cancelled (entry :: entries) = late cancelled entries := by
  simp [late, h]

/-- A call that starts after the cancellation is `late`. -/
theorem late_cons_of_cancelled (h : cancelled entry.start = true) :
    late cancelled (entry :: entries) = entry.call :: late cancelled entries := by
  simp [late, h]

/-- Of a single call either that or none is `late`. -/
theorem late_singleton :
    late cancelled [entry] = if cancelled entry.start then [entry.call] else [] := by
  simp only [late, List.filter_cons, List.filter_nil]
  split <;> rfl

/-- Calls that are `Early` are not `late`. -/
theorem late_of_early (h : ∀ entry ∈ entries, entry.Early cancelled) :
    late cancelled entries = [] := by
  simp only [late, List.map_eq_nil_iff, List.filter_eq_nil_iff, Bool.not_eq_true]
  exact fun entry hentry => (h entry hentry).1

/-- The `late` calls are some of all calls, in the same order. -/
theorem late_sublist : (late cancelled entries).Sublist (entries.map (·.call)) :=
  List.filter_sublist.map _

/-- `Linked` calls stay so with something in front that does not take a cancellation back. -/
theorem Linked.of_latches {before : σ} (h : Linked cancelled world entries last)
    (hbefore : cancelled before = true → cancelled world = true) :
    Linked cancelled before entries last := by
  cases h with
  | nil hlast => exact .nil fun h => hlast (hbefore h)
  | cons hstart hend hrest => exact .cons (fun h => hstart (hbefore h)) hend hrest

/-- `Linked` calls that lead up to a world and others that go on from there are linked. -/
theorem Linked.append {middle : σ} (h : Linked cancelled world entries middle)
    (h' : Linked cancelled middle entries' last) :
    Linked cancelled world (entries ++ entries') last := by
  induction h with
  | nil hmiddle => exact h'.of_latches hmiddle
  | cons hstart hend _ ih => exact .cons hstart hend (ih h')

/-- `Linked` calls do not take a cancellation back. -/
theorem Linked.cancelled_last (h : Linked cancelled world entries last)
    (hworld : cancelled world = true) : cancelled last = true := by
  induction h with
  | nil h => exact h hworld
  | cons hstart hlast _ ih => exact ih (hlast (hstart hworld))

/-- All `Linked` calls that lead to a world without a cancellation are `Early`. -/
theorem Linked.early (h : Linked cancelled world entries last) (hlast : cancelled last = false) :
    ∀ entry ∈ entries, entry.Early cancelled := by
  -- a cancellation before the calls that are left would still be there after them
  induction h with
  | nil => simp
  | cons _ hend hrest ih =>
    have hrunning := mt hrest.cancelled_last (by simp [hlast])
    exact List.forall_mem_cons.mpr
      ⟨⟨Bool.eq_false_iff.mpr (mt hend hrunning), Bool.eq_false_iff.mpr hrunning⟩, ih hlast⟩

/-- The calls before one among `Linked` calls lead to the world in which that one starts. -/
theorem Linked.before (h : Linked cancelled world (entries ++ entry :: entries') last) :
    Linked cancelled world entries entry.start := by
  induction entries generalizing world with
  | nil =>
    cases h with
    | cons hstart => exact .nil hstart
  | cons first rest ih =>
    cases h with
    | cons hstart hend hrest => exact .cons hstart hend (ih hrest)

end Linked

end Utterance.Speech
