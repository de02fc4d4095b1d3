import Mathlib.Data.List.Chain
import Utterance.Proofs.Engine.Action
import Utterance.Proofs.Engine.Tensor

/-!
# The cache of the language model

The language model is fed a sequence in parts: all that stands in front of the speech at once, and
then one token after the other.  Each part is at the positions that follow on those before, and
each run takes the cache that the run before it has left.

## Key results

- `prefill_eq_ok`, `advance_eq_ok`: the runs of a part that succeeds
- `Threaded.single`, `Threaded.concat`: how a sequence starts, and how it goes on
- `cache_threaded`: the runs of a whole sequence
- `prefill_refused`: what becomes of it where no cache can be empty
-/

namespace Utterance.Engine

variable {ς σ κ : Type}

/-! ## Caches -/

/-- The `slots` of the cache of so many layers, by what their names end in. -/
def slots (layers : ℕ) : List String :=
  (List.range layers).flatMap fun layer => [toString layer ++ ".key", toString layer ++ ".value"]

/-- The cache has the tensor for each of the `slots`, under the name by which a run takes it, and no
others. -/
def Filled (tensor : String → Option AnyTensor) (layers : ℕ) (cache : Named) : Prop :=
  cache.map (fun entry => (entry.1, some entry.2)) =
    (slots layers).map fun slot => ("past_key_values." ++ slot, tensor slot)

/-- A tensor of the cache before the first run, with all `heads` and `headSize`, and no rows. -/
def emptySlot (e : Engine ς) : AnyTensor :=
  .single ⟨[1, e.heads, 0, e.headSize], []⟩

/-- `gatherCache` collects a tensor for each slot of its layers, under the names by which a run
takes it. -/
theorem gatherCache_eq_ok {tensor : String → Except SpeechFault AnyTensor}
    {expected : String → Option AnyTensor}
    (hexpected : ∀ slot t, tensor slot = .ok t → expected slot = some t) {layers layer : ℕ}
    {cache : Named} (h : gatherCache tensor layers layer = .ok cache) :
    cache.map (fun entry => (entry.1, some entry.2)) =
      ((List.range' layer layers).flatMap fun layer =>
        [toString layer ++ ".key", toString layer ++ ".value"]).map fun slot =>
          ("past_key_values." ++ slot, expected slot) := by
  -- by induction on the layers that are left, of which `gatherCache` takes the first
  induction layers generalizing layer cache with
  | zero =>
    cases h
    rfl
  | succ layers ih =>
    simp only [gatherCache, bind_ok_iff] at h
    obtain ⟨key, hkey, value, hvalue, rest, hrest, ⟨⟩⟩ := h
    rw [List.range'_succ, List.flatMap_cons, List.map_append, ← ih hrest]
    simp only [List.map_cons, List.map_nil, hexpected _ _ hkey, hexpected _ _ hvalue,
      List.cons_append, List.nil_append]

/-- `emptyCache` fills all slots with tensors of no position. -/
theorem emptyCache_eq_ok {r : Backend ς σ} {e : Engine ς} {cache : Named}
    (h : emptyCache r e = .ok cache) : Filled (fun _ => some (emptySlot e)) e.layers cache := by
  rw [Filled, slots, List.range_eq_range']
  refine gatherCache_eq_ok (fun slot t ht => ?_) h
  rw [← (Backend.build_eq_ok_iff.mp ht).2, emptySlot]

/-- `presentCache` fills all slots with the tensors that a run has left. -/
theorem presentCache_eq_ok {e : Engine ς} {outputs cache : Named}
    (h : presentCache e outputs = .ok cache) :
    Filled (fun slot => outputs.lookup ("present." ++ slot)) e.layers cache := by
  rw [Filled, slots, List.range_eq_range']
  refine gatherCache_eq_ok (fun slot t ht => ?_) h
  rw [outputNamed, List.findSome?_singleton] at ht
  split at ht
  · next hlookup => rw [hlookup, Except.ok.inj ht]
  · cases ht

/-- Where the cache is `Filled`, no tensor is missing. -/
theorem Filled.exists_eq {tensor : String → Option AnyTensor} {layers : ℕ} {cache : Named}
    (h : Filled tensor layers cache) {slot : String} (hslot : slot ∈ slots layers) :
    ∃ t, tensor slot = some t := by
  have hmem : ("past_key_values." ++ slot, tensor slot) ∈
      cache.map fun entry => (entry.1, some entry.2) := by
    rw [h]
    exact List.mem_map_of_mem hslot
  obtain ⟨entry, -, hentry⟩ := List.mem_map.mp hmem
  exact ⟨entry.2, (congrArg Prod.snd hentry).symm⟩

/-! ## Runs -/

/-- A run of the `languageModel`, and the run of `embedTokens` before it that has made the rows for
it. -/
structure Feed where
  /-- What the rows at the end stand for. -/
  ids : List Int
  embedded : Named
  rows : Tensor Float32
  positions : List ℕ
  /-- How many ones are in the mask. -/
  attended : ℕ
  cache : Named
  outputs : Named

namespace Feed

/-- The inputs that the `languageModel` gets. -/
def inputs (f : Feed) : Named :=
  [("inputs_embeds", .single f.rows), ("attention_mask", .row (List.replicate f.attended 1)),
    ("position_ids", .row (f.positions.map Int.ofNat))] ++ f.cache

/-- What the language model leaves in a slot: the output under its `present` name. -/
def present (f : Feed) (slot : String) : Option AnyTensor :=
  f.outputs.lookup ("present." ++ slot)

/-- Both runs: that of `embedTokens`, and that of the `languageModel`. -/
def runs (e : Engine ς) (f : Feed) : List (GraphRun ς) :=
  [⟨e.embedTokens, [("input_ids", .row f.ids)], .ok f.embedded⟩,
    ⟨e.languageModel, f.inputs, .ok f.outputs⟩]

end Feed

variable {r : Backend ς σ} {e : Engine ς} {world last : σ} {log log' : List (GraphRun ς)}

/-- A run that `Backend.recorded` makes is the run, and stands at the end of the log. -/
theorem Backend.run_recorded_eq_ok {session : ς} {inputs outputs : Named}
    (h : r.recorded.run session inputs (world, log) = (.ok outputs, last, log')) :
    r.run session inputs world = (.ok outputs, last) ∧
      log' = log ++ [⟨session, inputs, .ok outputs⟩] := by
  simp only [recorded, Prod.mk.injEq] at h
  obtain ⟨houtcome, hworld, hlog⟩ := h
  refine ⟨Prod.ext houtcome hworld, ?_⟩
  rw [← hlog, houtcome]

/-- `firstOutput` gives the tensor at the head of the outputs. -/
theorem firstOutput_eq_ok {graph : Graph} {outputs : Named} {t : AnyTensor}
    (h : firstOutput graph outputs = .ok t) : ∃ name, outputs.head? = some (name, t) := by
  cases outputs with
  | nil => cases h
  | cons entry rest =>
    obtain ⟨name, t'⟩ := entry
    obtain rfl := Except.ok.inj h
    exact ⟨name, rfl⟩

/-- `extract` gives tensors of binary32 values only. -/
theorem extract_eq_ok {what : String} {t : AnyTensor} {rows : Tensor Float32}
    (h : extract what t = .ok rows) : t = .single rows := by
  cases t with
  | single t => rw [Except.ok.inj h]
  | whole t => cases h

/-- `embed` runs the embedder on the ids and takes its first output. -/
theorem embed_eq_ok {ids : List Int} {rows : Tensor Float32}
    (h : (embed r e ids).perform world = (.ok rows, last)) :
    ∃ outputs, r.run e.embedTokens [("input_ids", .row ids)] world = (.ok outputs, last) ∧
      ∃ name, outputs.head? = some (name, .single rows) := by
  simp only [embed, Action.bind_eq_ok_iff, Action.lift_eq_ok_iff] at h
  obtain ⟨built, _, ⟨hbuild, rfl⟩, outputs, _, hcall, first, _, ⟨hfirst, rfl⟩, hextract, rfl⟩ := h
  obtain ⟨-, rfl⟩ := Backend.build_eq_ok_iff.mp hbuild
  obtain rfl := extract_eq_ok hextract
  exact ⟨outputs, Backend.call_eq_ok_iff.mp hcall, firstOutput_eq_ok hfirst⟩

/-- `feed` runs the language model on the rows, a mask of ones and the positions, with the cache
before it, and leaves the cache of the outputs with its counters moved on. -/
theorem feed_eq_ok {rows : Tensor Float32} {past : Named} {attended first count : ℕ}
    {context : Context}
    (h : (feed r e rows past attended first count).perform world = (.ok context, last)) :
    ∃ outputs, r.run e.languageModel
        ([("inputs_embeds", .single rows), ("attention_mask", .row (List.replicate attended 1)),
          ("position_ids", .row ((List.range' first count).map Int.ofNat))] ++ past) world =
          (.ok outputs, last) ∧
      presentCache e outputs = .ok context.past ∧ context.attended = attended ∧
      context.nextPosition = first + count := by
  unfold feed at h
  simp only [Action.bind_eq_ok_iff, Action.lift_eq_ok_iff] at h
  obtain ⟨mask, _, ⟨hmask, rfl⟩, positions, _, ⟨hpositions, rfl⟩, built, _, ⟨hrows, rfl⟩, outputs,
    middle, hcall, h⟩ := h
  -- the tensors that were built are those that were asked for
  obtain ⟨-, rfl⟩ := Backend.build_eq_ok_iff.mp hmask
  obtain ⟨-, rfl⟩ := Backend.build_eq_ok_iff.mp hpositions
  obtain ⟨-, rfl⟩ := Backend.build_eq_ok_iff.mp hrows
  have hrest : middle = last ∧ presentCache e outputs = .ok context.past ∧
      context.attended = attended ∧ context.nextPosition = first + count := by
    -- the scores are the output with that name or else the first one, and the rest is the same
    cases hlogits : outputs.lookup "logits" <;>
    · simp only [hlogits, Action.bind_eq_ok_iff, Action.lift_eq_ok_iff,
        Action.pure_eq_ok_iff] at h
      obtain ⟨_, _, ⟨-, rfl⟩, _, _, ⟨-, rfl⟩, _, _, ⟨-, rfl⟩, past', _, ⟨hpast, rfl⟩, rfl, rfl⟩ := h
      exact ⟨rfl, hpast, rfl, rfl⟩
  obtain ⟨rfl, hrest⟩ := hrest
  exact ⟨outputs, Backend.call_eq_ok_iff.mp hcall, hrest⟩

/-! ## The parts of a sequence -/

/-- A feed whose runs stand in the log, with positions from `first` on, that leaves the context. -/
structure Leaves (e : Engine ς) (log : List (GraphRun ς)) (f : Feed) (first : ℕ)
    (context : Context) (log' : List (GraphRun ς)) : Prop where
  log : log' = log ++ f.runs e
  positions : f.positions = List.range' first f.positions.length
  nextPosition : context.nextPosition = first + f.positions.length
  attended : context.attended = f.attended
  past : Filled f.present e.layers context.past

/-- An `embed` followed by a `feed` are the two runs of one `Feed`, whatever rows are made between
them. -/
theorem leaves_of_embed_feed {ids : List Int} {made rows : Tensor Float32} {past : Named}
    {attended first count : ℕ} {context : Context} {middle : σ} {between : List (GraphRun ς)}
    (hembed : (embed r.recorded e ids).perform (world, log) = (.ok made, middle, between))
    (hfeed : (feed r.recorded e rows past attended first count).perform (middle, between) =
      (.ok context, last, log')) :
    ∃ f : Feed, f.ids = ids ∧ f.rows = rows ∧ f.positions = List.range' first count ∧
      f.attended = attended ∧ f.cache = past ∧ Leaves e log f first context log' := by
  obtain ⟨embedded, hrun, -⟩ := embed_eq_ok hembed
  obtain ⟨outputs, hrun', hpast, hattended, hnext⟩ := feed_eq_ok hfeed
  -- both runs stand in the log, one after the other
  obtain ⟨-, rfl⟩ := Backend.run_recorded_eq_ok hrun
  obtain ⟨-, rfl⟩ := Backend.run_recorded_eq_ok hrun'
  refine ⟨⟨ids, embedded, rows, List.range' first count, attended, past, outputs⟩, rfl, rfl, rfl,
    rfl, rfl, ?_⟩
  exact {
    log := List.append_assoc ..
    positions := by rw [List.length_range']
    nextPosition := by rw [hnext, List.length_range']
    attended := hattended
    past := presentCache_eq_ok hpast }

/-- `advance` feeds one token at the next position, under a mask that is longer by one. -/
theorem advance_eq_ok {context context' : Context} {token : Token}
    (h : (advance r.recorded e context token).perform (world, log) = (.ok context', last, log')) :
    ∃ f : Feed, f.ids = [(token.toNat : Int)] ∧ f.positions.length = 1 ∧
      f.attended = context.attended + 1 ∧ f.cache = context.past ∧
      Leaves e log f context.nextPosition context' log' := by
  simp only [advance, Action.bind_eq_ok_iff] at h
  obtain ⟨rows, ⟨middle, between⟩, hembed, hfeed⟩ := h
  obtain ⟨f, hids, -, hpositions, hattended, hcache, hleaves⟩ := leaves_of_embed_feed hembed hfeed
  refine ⟨f, hids, ?_, hattended, hcache, hleaves⟩
  rw [hpositions, List.length_range']

/-- A run of `embedTokens` makes one row for each id. -/
def EmbedsRows (r : Backend ς σ) (e : Engine ς) : Prop :=
  ∀ ids world outputs last name t,
    r.run e.embedTokens [("input_ids", .row ids)] world = (.ok outputs, last) →
      outputs.head? = some (name, .single t) → ∃ width, t.shape = [1, ids.length, width]

/-- How many rows of the engine's `voice` stand in front of every text. -/
def conditioned (e : Engine ς) : ℕ :=
  e.voice.conditioning.shape.getD 1 0

/-- `joinSequences` adds the lengths of its sequences. -/
theorem joinSequences_eq_ok {a b joined : Tensor Float32} {count width : ℕ}
    (h : joinSequences a b = .ok joined) (hb : b.shape = [1, count, width]) :
    joined.shape.getD 1 0 = a.shape.getD 1 0 + count := by
  -- the shape of the second fixes the length that is added
  obtain ⟨m, n, _, hashape, hbshape, rfl⟩ := joinSequences_eq_ok_iff.mp h
  obtain rfl : n = count := by
    rw [hb] at hbshape
    injections
    omega
  rw [hashape]
  rfl

/-- `prefill` feeds the voice and the text from position zero on, with an empty cache. -/
theorem prefill_eq_ok (hembeds : EmbedsRows r e) {text : String} {start : Token} {context : Context}
    (h : (prefill r.recorded e text start).perform (world, log) = (.ok context, last, log')) :
    ∃ (ids : List Int) (f : Feed), textIds e text start = .ok ids ∧ f.ids = ids ∧
      f.positions.length = conditioned e + ids.length ∧ f.attended = f.positions.length ∧
      Filled (fun _ => some (emptySlot e)) e.layers f.cache ∧ Leaves e log f 0 context log' := by
  simp only [prefill, Action.bind_eq_ok_iff, Action.lift_eq_ok_iff] at h
  obtain ⟨ids, _, ⟨hids, rfl⟩, made, ⟨middle, between⟩, hembed, rows, _, ⟨hrows, rfl⟩, past, _,
    ⟨hpast, rfl⟩, hfeed⟩ := h
  -- what is fed are the rows of the voice before those that the embedder has made
  obtain ⟨f, hf, -, hpositions, hattended, hcache, hleaves⟩ := leaves_of_embed_feed hembed hfeed
  obtain ⟨outputs, hrun, name, hhead⟩ := embed_eq_ok hembed
  obtain ⟨width, hshape⟩ := hembeds _ _ _ _ _ _ (Backend.run_recorded_eq_ok hrun).1 hhead
  have hlength : f.positions.length = rows.shape.getD 1 0 := by
    rw [hpositions, List.length_range']
  refine ⟨ids, f, hids, hf, ?_, hattended.trans hlength.symm, ?_, hleaves⟩
  · rw [hlength, joinSequences_eq_ok hrows hshape, conditioned]
  · rw [hcache]
    exact emptyCache_eq_ok hpast

/-- `prefill` never starts on a text with a backend that cannot build a tensor with an empty
dimension, unless there are no layers. -/
theorem prefill_refused (haccepts : r.accepts [1, e.heads, 0, e.headSize] = false)
    (hlayers : e.layers ≠ 0) (text : String) (start : Token) (world : σ) :
    ∃ fault, ((prefill r e text start).perform world).1 = .error fault := by
  rcases hreply : (prefill r e text start).perform world with ⟨fault | context, last⟩
  · exact ⟨fault, rfl⟩
  · simp only [prefill, Action.bind_eq_ok_iff, Action.lift_eq_ok_iff] at hreply
    obtain ⟨_, _, ⟨-, rfl⟩, _, _, -, _, _, ⟨-, rfl⟩, past, _, ⟨hpast, rfl⟩, -⟩ := hreply
    -- the first layer already asks for an empty tensor
    obtain ⟨layers, hlayers⟩ := Nat.exists_eq_succ_of_ne_zero hlayers
    rw [emptyCache, hlayers, gatherCache, bind_ok_iff] at hpast
    obtain ⟨key, hkey, -⟩ := hpast
    obtain ⟨hbuilt, -⟩ := Backend.build_eq_ok_iff.mp hkey
    exact nomatch haccepts.symm.trans hbuilt

/-! ## Sequences -/

/-- The context for a text with tokens after it: `prefill`, and then `advance` for each token. -/
def follow (r : Backend ς σ) (e : Engine ς) (text : String) (start : Token) (tokens : List Token) :
    Action σ Context := do
  let context ← prefill r e text start
  tokens.foldlM (advance r e) context

/-- Each `Feed` goes on from the one before, and the last one leaves the context. -/
structure Threaded (e : Engine ς) (feeds : List Feed) (context : Context) : Prop where
  /-- The counters of the context agree. -/
  attended : context.attended = context.nextPosition
  /-- No position is left out or taken twice. -/
  positions : feeds.flatMap Feed.positions = List.range context.nextPosition
  /-- The mask of a feed covers it and all that was fed before. -/
  masks : ∀ before f, before ++ [f] <+: feeds →
    f.attended = ((before ++ [f]).flatMap Feed.positions).length
  /-- The first cache is empty. -/
  first : ∀ f ∈ feeds.head?, Filled (fun _ => some (emptySlot e)) e.layers f.cache
  /-- Every other cache is what the feed before has left. -/
  linked : feeds.IsChain fun f next => Filled f.present e.layers next.cache
  /-- The last feed has left the cache of the context. -/
  last : ∀ f ∈ feeds.getLast?, Filled f.present e.layers context.past

variable {context context' : Context}

/-- A first feed at positions from zero on is `Threaded`. -/
theorem Threaded.single {f : Feed} (hleaves : Leaves e log f 0 context log')
    (hattended : f.attended = f.positions.length)
    (hcache : Filled (fun _ => some (emptySlot e)) e.layers f.cache) :
    Threaded e [f] context where
  attended := by rw [hleaves.attended, hleaves.nextPosition, hattended, Nat.zero_add]
  positions := by
    rw [List.flatMap_singleton, hleaves.nextPosition, hleaves.positions, List.length_range',
      Nat.zero_add, List.range_eq_range']
  masks := by
    -- the only prefix is the feed itself
    intro before g hg
    have hg : before ++ [g] <+: [] ++ [f] := hg
    obtain heq | hprefix := List.prefix_concat_iff.mp hg
    · obtain ⟨rfl, ⟨⟩⟩ := List.append_inj' heq rfl
      rwa [List.nil_append, List.flatMap_singleton]
    · simp at hprefix
  first := by simpa using hcache
  linked := .singleton f
  last := by simpa using hleaves.past

/-- A feed that goes on from the context keeps a sequence `Threaded`. -/
theorem Threaded.concat {feeds : List Feed} {f : Feed} (h : Threaded e feeds context)
    (hleaves : Leaves e log f context.nextPosition context' log') (hone : f.positions.length = 1)
    (hattended : f.attended = context.attended + 1) (hcache : f.cache = context.past)
    (hne : feeds ≠ []) : Threaded e (feeds ++ [f]) context' where
  attended := by rw [hleaves.attended, hleaves.nextPosition, hattended, hone, h.attended]
  positions := by
    rw [List.flatMap_append, List.flatMap_singleton, h.positions, hleaves.nextPosition,
      hleaves.positions, List.length_range', hone]
    exact List.range_succ.symm
  masks := by
    -- a prefix ends with the new feed, or it is one of the old sequence
    intro before g hg
    obtain heq | hprefix := List.prefix_concat_iff.mp hg
    · obtain ⟨rfl, ⟨⟩⟩ := List.append_inj' heq rfl
      rw [List.flatMap_append, List.flatMap_singleton, h.positions, List.length_append, hone,
        List.length_range, hattended, h.attended]
    · exact h.masks before g hprefix
  first := by
    obtain ⟨g, rest, rfl⟩ := List.exists_cons_of_ne_nil hne
    exact h.first
  linked := by
    -- the new cache is the one that the last feed has left
    refine List.isChain_append.mpr ⟨h.linked, .singleton f, ?_⟩
    rintro g hg _ ⟨⟩
    rw [hcache]
    exact h.last g hg
  last := by
    rintro g hg
    obtain rfl : f = g := by simpa using hg
    exact hleaves.past

/-- Every `advance` adds one feed, and so a sequence of them keeps it `Threaded`. -/
theorem foldlM_advance_eq_ok {feeds : List Feed} {tokens : List Token}
    (hthreaded : Threaded e feeds context) (hne : feeds ≠ [])
    (h : (tokens.foldlM (advance r.recorded e) context).perform
      (world, feeds.flatMap (Feed.runs e)) = (.ok context', last, log')) :
    ∃ more : List Feed, log' = (feeds ++ more).flatMap (Feed.runs e) ∧
      more.map Feed.ids = tokens.map (fun token => [(token.toNat : Int)]) ∧
      context'.nextPosition = context.nextPosition + tokens.length ∧
      Threaded e (feeds ++ more) context' := by
  -- by induction on the tokens: `Threaded.concat` is the step, from the context in between
  induction tokens generalizing feeds context world with
  | nil =>
    obtain ⟨rfl, heq⟩ := Action.pure_eq_ok_iff.mp h
    obtain ⟨rfl, rfl⟩ := Prod.mk.inj heq
    refine ⟨[], by rw [List.append_nil], rfl, rfl, by rwa [List.append_nil]⟩
  | cons token tokens ih =>
    rw [List.foldlM_cons, Action.bind_eq_ok_iff] at h
    obtain ⟨next, ⟨middle, between⟩, hadvance, hrest⟩ := h
    obtain ⟨f, hids, hone, hattended, hcache, hleaves⟩ := advance_eq_ok hadvance
    have hlog : between = (feeds ++ [f]).flatMap (Feed.runs e) := by
      rw [hleaves.log, List.flatMap_append, List.flatMap_singleton]
    subst hlog
    obtain ⟨more, hlog, hmore, hnext, hthreaded'⟩ :=
      ih (hthreaded.concat hleaves hone hattended hcache hne) (by simp) hrest
    rw [List.append_assoc] at hlog hthreaded'
    refine ⟨f :: more, hlog, ?_, ?_, hthreaded'⟩
    · rw [List.map_cons, List.map_cons, hmore, hids]
    · rw [hnext, hleaves.nextPosition, hone, List.length_cons]
      omega

/-- `follow` does the same with a log as without. -/
theorem shadows_follow (r : Backend ς σ) (e : Engine ς) (text : String) (start : Token)
    (tokens : List Token) :
    Shadows (follow r.recorded e text start tokens) (follow r e text start tokens) := by
  refine .bind (shadows_prefill r e text start) fun context => ?_
  induction tokens generalizing context with
  | nil => exact .pure context
  | cons token tokens ih => exact .bind (shadows_advance r e context token) ih

/-- The last run in the log has left no tensor for some of the `slots`. -/
def Lacking (e : Engine ς) (log : List (GraphRun ς)) : Prop :=
  ∃ run ∈ log.getLast?, ∃ outputs, run.answer = .ok outputs ∧
    ∃ slot ∈ slots e.layers, outputs.lookup ("present." ++ slot) = none

/-- After a run that `Leaves` a cache, no tensor is lacking. -/
theorem Leaves.not_lacking {f : Feed} {first : ℕ} (h : Leaves e log f first context log') :
    ¬Lacking e log' := by
  rintro ⟨run, hrun, outputs, hanswer, slot, hslot, hmissing⟩
  obtain rfl : ⟨e.languageModel, f.inputs, .ok f.outputs⟩ = run := by
    simpa [h.log, Feed.runs] using hrun
  obtain rfl : f.outputs = outputs := Except.ok.inj hanswer
  obtain ⟨t, ht⟩ := h.past.exists_eq hslot
  exact nomatch hmissing.symm.trans ht

/-- An action fails if the log that its recorded copy would leave is `Lacking` a tensor. -/
theorem fails_of_lacking {x : Action σ Context} {x' : Action (σ × List (GraphRun ς)) Context}
    (hx : Shadows x' x)
    (hleaves : ∀ context last log, x'.perform (world, []) = (.ok context, last, log) →
      ∃ f first, Leaves e [] f first context log)
    (hlacking : Lacking e (x'.perform (world, [])).2.2) :
    ∃ fault, (x.perform world).1 = .error fault := by
  rw [← (hx world []).1]
  rcases hreply : x'.perform (world, []) with ⟨fault | context, last, log⟩
  · exact ⟨fault, rfl⟩
  · obtain ⟨f, first, hf⟩ := hleaves _ _ _ hreply
    rw [hreply] at hlacking
    exact absurd hlacking hf.not_lacking

/-- `follow` is a prefill and the advances after it, with the runs that they make. -/
theorem follow_eq_ok (hembeds : EmbedsRows r e) {text : String} {start : Token}
    {tokens : List Token}
    (h : (follow r.recorded e text start tokens).perform (world, []) = (.ok context, last, log)) :
    ∃ (ids : List Int) (feeds : List Feed), textIds e text start = .ok ids ∧
      log = feeds.flatMap (Feed.runs e) ∧
      feeds.map Feed.ids = ids :: tokens.map (fun token => [(token.toNat : Int)]) ∧
      context.nextPosition = conditioned e + ids.length + tokens.length ∧
      Threaded e feeds context := by
  obtain ⟨before, ⟨middle, between⟩, hprefill, hadvances⟩ := Action.bind_eq_ok_iff.mp h
  obtain ⟨ids, f, hids, hf, hlength, hattended, hcache, hleaves⟩ := prefill_eq_ok hembeds hprefill
  obtain rfl : between = [f].flatMap (Feed.runs e) := hleaves.log
  obtain ⟨more, hlog, hmore, hnext, hthreaded⟩ := foldlM_advance_eq_ok
    (.single hleaves hattended hcache) (List.cons_ne_nil f []) hadvances
  refine ⟨ids, [f] ++ more, hids, hlog, ?_, ?_, hthreaded⟩
  · rw [List.singleton_append, List.map_cons, hf, hmore]
  · rw [hnext, hleaves.nextPosition, hlength, Nat.zero_add]

/-- Where the embedder makes a row for each id, `follow` feeds the language model a text and the
tokens after it at all positions from zero on, under a mask for all of them, and every run takes
the cache that the run before it has left.  What runs the language model fails if a tensor is
lacking. -/
theorem cache_threaded (hembeds : EmbedsRows r e) :
    (∀ (text : String) (start : Token) (tokens : List Token) (world last : σ) (context : Context),
      (follow r e text start tokens).perform world = (.ok context, last) →
      ∃ (ids : List Int) (feeds : List Feed), textIds e text start = .ok ids ∧
        (follow r.recorded e text start tokens).perform (world, []) =
          (.ok context, last, feeds.flatMap (Feed.runs e)) ∧
        feeds.map Feed.ids = ids :: tokens.map (fun token => [(token.toNat : Int)]) ∧
        context.nextPosition = conditioned e + ids.length + tokens.length ∧
        Threaded e feeds context) ∧
    (∀ (text : String) (start : Token) (world : σ),
      Lacking e ((prefill r.recorded e text start).perform (world, [])).2.2 →
      ∃ fault, ((prefill r e text start).perform world).1 = .error fault) ∧
    ∀ (context : Context) (token : Token) (world : σ),
      Lacking e ((advance r.recorded e context token).perform (world, [])).2.2 →
      ∃ fault, ((advance r e context token).perform world).1 = .error fault := by
  refine ⟨fun text start tokens world last context h => ?threaded,
    fun text start world => fails_of_lacking (shadows_prefill r e text start) ?prefill,
    fun context token world => fails_of_lacking (shadows_advance r e context token) ?advance⟩
  case threaded =>
    -- the log makes no difference to what comes of it
    obtain ⟨houtcome, hworld⟩ := shadows_follow r e text start tokens world []
    rcases hreply : (follow r.recorded e text start tokens).perform (world, []) with
      ⟨outcome, last', log⟩
    rw [hreply, h] at houtcome hworld
    obtain rfl : outcome = .ok context := houtcome
    obtain rfl : last' = last := hworld
    obtain ⟨ids, feeds, hids, rfl, hfeeds⟩ := follow_eq_ok hembeds hreply
    exact ⟨ids, feeds, hids, rfl, hfeeds⟩
  case prefill =>
    intro context last log h
    obtain ⟨-, f, -, -, -, -, -, hleaves⟩ := prefill_eq_ok hembeds h
    exact ⟨f, 0, hleaves⟩
  case advance =>
    intro context' last log h
    obtain ⟨f, -, -, -, -, hleaves⟩ := advance_eq_ok h
    exact ⟨f, context.nextPosition, hleaves⟩

/-- A `Backend` of one layer whose rows and scores are all zero. -/
def zeroBackend : Backend Graph Unit where
  load _ _ world := (.ok .languageModel, world)
  tokenizer _ world := (none, world)
  accepts _ := true
  run graph inputs world :=
    match graph, inputs.lookup "input_ids" with
    | .embedTokens, some (.whole ids) =>
      (.ok [("inputs_embeds", .single ⟨[1, ids.data.length, 1], ids.data.map fun _ => 0⟩)], world)
    | _, _ =>
      let filled := .single ⟨[1, 1, 1, 1], [0]⟩
      (.ok [("logits", .single ⟨[1, 1, 1], [0]⟩), ("present.0.key", filled),
        ("present.0.value", filled)], world)

/-- The `Engine` for the `zeroBackend`, with a voice of three rows and a text of two tokens. -/
def zeroEngine : Engine Graph where
  tokenizer _ := some [5, 6]
  embedTokens := .embedTokens
  languageModel := .languageModel
  conditionalDecoder := .conditionalDecoder
  voice := ⟨⟨[1, 3, 1], [0, 0, 0]⟩, [], ⟨[], []⟩, ⟨[], []⟩⟩
  layers := 1
  heads := 1
  headSize := 1
  vocabulary := 10
  rate := 24000

/-- `zeroBackend` makes one row for each id. -/
theorem zeroBackend_embedsRows : EmbedsRows zeroBackend zeroEngine := by
  rintro ids world outputs last name t ⟨⟩ ⟨⟩
  exact ⟨1, rfl⟩

/-- A text of two tokens and two tokens of speech, with one layer.  `zeroBackend` takes tensors with
empty dimensions, since the first cache has nothing in it but is a tensor all the same: by
`prefill_refused`, a backend with the default `accepts` never starts on a text when there is a
layer. -/
theorem cache_threaded_zero :
    EmbedsRows zeroBackend zeroEngine ∧
      ∃ context feeds, (follow zeroBackend zeroEngine "a" 7 [8, 9]).perform () = (.ok context, ()) ∧
        context.nextPosition = 8 ∧ Threaded zeroEngine feeds context := by
  refine ⟨zeroBackend_embedsRows, ?_⟩
  -- the run is evaluated for its success alone, and the theorem says the rest
  have hok : ((follow zeroBackend zeroEngine "a" 7 [8, 9]).perform ()).1.isOk = true := by
    decide +kernel
  rcases hreply : (follow zeroBackend zeroEngine "a" 7 [8, 9]).perform () with
    ⟨fault | context, ⟨⟩⟩
  · rw [hreply] at hok
    cases hok
  · obtain ⟨ids, feeds, hids, -, -, hnext, hthreaded⟩ :=
      (cache_threaded zeroBackend_embedsRows).1 _ _ _ _ _ _ hreply
    obtain rfl : [5, 6, 7] = ids := Except.ok.inj hids
    exact ⟨context, feeds, rfl, hnext, hthreaded⟩

end Utterance.Engine
