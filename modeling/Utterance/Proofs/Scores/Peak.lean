import Utterance.Proofs.Scores.Selection

/-!
# Scores with a peak

Where one score is above all others, a truncation to the highest one masks the others.  Then there
is only one token to select, and it does not matter how.

## Key results

- `keepTop_lone`: what a truncation to the highest score leaves of scores with a peak
- `select_congr_of_lone`: of the exponential only its value at 0 counts for a single score
- `select_of_lone`: all samplers select alike when a single score is not masked
- `select_reweigh_of_peaked`: the same through a pipeline that keeps the highest score only
-/

namespace Utterance.Scores

open Binary Sampling

variable {scores : Scores} {exp : Float32 → Float32}

/-- One of the scores is above all others, by `<`. -/
def Peaked (scores : Scores) : Prop :=
  ∃ (i : ℕ) (x : Float32), scores[i]? = some x ∧
    ∀ (j : ℕ) (y : Float32), scores[j]? = some y → j ≠ i → y < x

/-- `Peaked` in terms of the bounded positions, which makes it decidable. -/
theorem peaked_iff : Peaked scores ↔
    ∃ i : Fin scores.length, ∀ j : Fin scores.length, j ≠ i → scores[j] < scores[i] := by
  constructor
  · -- the two ways to name a position: by its score or as a `Fin`
    rintro ⟨i, x, hi, hpeak⟩
    obtain ⟨hlength, rfl⟩ := List.getElem?_eq_some_iff.mp hi
    exact ⟨⟨i, hlength⟩, fun j hne => hpeak j scores[j] (List.getElem?_eq_getElem j.2)
      fun h => hne (Fin.ext h)⟩
  · rintro ⟨i, hpeak⟩
    refine ⟨i, scores[i], List.getElem?_eq_getElem i.2, fun j y hj hne => ?_⟩
    obtain ⟨hlength, rfl⟩ := List.getElem?_eq_some_iff.mp hj
    exact hpeak ⟨j, hlength⟩ fun h => hne (congrArg Fin.val h)

/-- Whether scores are `Peaked` is decided by comparing all of them with each other. -/
instance (scores : Scores) : Decidable (Peaked scores) :=
  decidable_of_iff _ peaked_iff.symm

/-- No score but the one at the given position is above `-inf`. -/
def Lone (i : ℕ) (scores : Scores) : Prop :=
  ∀ (j : ℕ) (y : Float32), scores[j]? = some y → negInfinity < y → j = i

/-- `keepTop 1` masks all scores but the peak. -/
theorem keepTop_lone (hscores : Numbers scores) (hpeaked : Peaked scores) :
    ∃ i, Lone i (keepTop 1 scores) := by
  obtain ⟨i, x, hi, hpeak⟩ := hpeaked
  refine ⟨i, fun j y hj hlt => ?_⟩
  by_contra hne
  obtain ⟨before, hbefore⟩ := (keepTop_narrows 1 hscores).exists_before hj
  have hlow : before < x := hpeak j before hbefore hne
  -- with two scores there is a threshold, the highest of them
  have hmany : ¬scores.length ≤ 1 := by
    obtain ⟨hilength, -⟩ := List.getElem?_eq_some_iff.mp hi
    obtain ⟨hjlength, -⟩ := List.getElem?_eq_some_iff.mp hbefore
    omega
  obtain ⟨top, k, rest, hranked, htop, hmax⟩ :=
    ranked_eq_cons (List.ne_nil_of_mem (List.mem_of_getElem? hi)) hscores
  have hthreshold : threshold 1 scores = some top := by
    simp [threshold, hmany, hranked]
  have hbelow : before < top := by
    obtain ⟨hnan, -, hcount⟩ := lt_iff.mp hlow
    exact lt_iff.mpr ⟨hnan, hscores top (List.mem_of_getElem? htop),
      hcount.trans_le (hmax x (List.mem_of_getElem? hi))⟩
  simp only [keepTop, hthreshold, List.getElem?_map, hbefore, Option.map_some, if_pos hbelow,
    Option.some.injEq] at hj
  exact (negInfinity_lt_iff.mp hlt).2 hj.symm

/-- `Narrows` masks more, and so leaves a lone score alone. -/
theorem Narrows.lone {before after : Scores} (h : Narrows before after) (hbefore : Numbers before)
    {i : ℕ} (hlone : Lone i before) : Lone i after := by
  intro j y hj hlt
  obtain ⟨x, hx, hxlt⟩ := h.lt_of_lt hbefore hj hlt
  exact hlone j x hx hxlt

/-- The `weight` of a lone score is the exponential of 0, and the others have none. -/
theorem weight_of_lone (exp : Float32 → Float32) {i : ℕ} (hlone : Lone i scores) {x : Float32}
    (hx : x ∈ scores) :
    weight exp (maximum (scores.filter (·.isFinite))) x = if x.isFinite then exp 0 else 0 := by
  rw [weight]
  split
  · next hfinite =>
    obtain ⟨htop, htopfinite, -⟩ := largestFinite_maximum hx hfinite
    -- both are above `-inf`, and so at the same position
    obtain ⟨j, hj⟩ := List.mem_iff_getElem?.mp hx
    obtain ⟨k, hk⟩ := List.mem_iff_getElem?.mp htop
    have hji := hlone j x hj (negInfinity_lt_of_isFinite hfinite)
    have hki := hlone k _ hk (negInfinity_lt_of_isFinite htopfinite)
    rw [hji] at hj
    rw [hki, hj] at hk
    rw [← Option.some.inj hk, sub_self_of_isFinite hfinite]
  · rfl

/-- From lone scores on, all that `select` needs to know about the exponential is its value at 0. -/
theorem select_congr_of_lone (exp' : Float32 → Float32) (hzero : exp 0 = exp' 0) {i : ℕ}
    (hlone : Lone i scores) (s : Sampler) : s.select exp scores = s.select exp' scores := by
  have hweights : scores.map (weight exp (maximum (scores.filter (·.isFinite)))) =
      scores.map (weight exp' (maximum (scores.filter (·.isFinite)))) := by
    refine List.map_congr_left fun x hx => ?_
    rw [weight_of_lone exp hlone hx, weight_of_lone exp' hlone hx, hzero]
  have hsoftmax : softmax exp scores = softmax exp' scores := by
    simp only [softmax, hweights]
  simp only [Sampler.select, hsoftmax]

/-- Where at most one score is not masked all samplers `select` alike. -/
theorem select_of_lone (hzero : exp 0 = 1) {i : ℕ} (hlone : Lone i scores) (s s' : Sampler) :
    (s.select exp scores).1 = (s'.select exp scores).1 := by
  by_cases husable : Usable scores
  · -- both pick the position of a score above `-inf`, and there is only one
    have hselect : ∀ t : Sampler, (t.select exp scores).1 = tokenAt? i := by
      intro t
      rw [select_congr_of_lone (fun _ => 1) hzero hlone]
      obtain ⟨j, x, hselect, hj, hlt, -⟩ := select_of_usable isExp_one t husable
      rw [hselect, hlone j x hj hlt]
    rw [hselect s, hselect s']
  · rw [select_of_not_usable s husable, select_of_not_usable s' husable]

/-! ## Peaks in the pipeline -/

/-- The stages that rescale scores: `penalty` and `temperature`. -/
def rescaling (s : Settings) : List Stage :=
  (if s.repetitionPenalty == 1 then [] else [.penalty s.repetitionPenalty]) ++
  (if s.temperature == 1 then [] else [.temperature s.temperature])

/-- The stages that mask scores: `topK` and `topP`. -/
def truncation (s : Settings) : List Stage :=
  (if s.topK = 0 then [] else [.topK s.topK]) ++ (if s.topP < 1 then [.topP s.topP] else [])

/-- The pipeline of `stages` rescales first and masks afterwards. -/
theorem stages_eq (s : Settings) : stages s = rescaling s ++ truncation s := by
  simp only [stages, rescaling, truncation, List.append_assoc]

/-- The stages of `rescaling` only narrow the scores, like the whole pipeline. -/
theorem reweigh_rescaling_narrows {s : Settings} (hs : s.Valid) (exp : Float32 → Float32)
    (history : List Token) (hscores : Numbers scores) :
    Narrows scores (reweigh exp (rescaling s) history scores) := by
  have hvalid := stages_valid hs
  rw [stages_eq] at hvalid
  exact reweigh_narrows exp history
    (fun stage h => hvalid stage (List.mem_append_left _ h)) hscores

/-- Scores that are `Peaked` after penalty and temperature end up with a lone score when only the
highest is kept. -/
theorem reweigh_lone {settings : Settings} (hsettings : settings.Valid) (htop : settings.topK = 1)
    (history : List Token) (hscores : Numbers scores)
    (hpeaked : Peaked (reweigh exp (rescaling settings) history scores)) :
    ∃ i, Lone i (reweigh exp (stages settings) history scores) := by
  have hvalid := stages_valid hsettings
  rw [stages_eq] at hvalid ⊢
  have hrescaled := reweigh_rescaling_narrows hsettings exp history hscores
  obtain ⟨i, hlone⟩ := keepTop_lone hrescaled.numbers hpeaked
  have hkept := keepTop_narrows 1 hrescaled.numbers
  -- what comes after top-k only masks more
  obtain ⟨rest, hrest⟩ : ∃ rest, truncation settings = .topK 1 :: rest := by
    rw [truncation, htop, if_neg one_ne_zero]
    exact ⟨_, rfl⟩
  have hothers : ∀ stage ∈ rest, stage.Valid := fun stage h =>
    hvalid stage (List.mem_append_right _ (hrest ▸ List.mem_cons_of_mem _ h))
  have hmasked := reweigh_narrows exp history hothers hkept.numbers
  rw [reweigh_append, hrest]
  exact ⟨i, hmasked.lone hkept.numbers hlone⟩

/-- Where only the highest score is kept, all samplers `select` alike from scores that have a peak
after penalty and temperature. -/
theorem select_reweigh_of_peaked {settings : Settings} (hsettings : settings.Valid)
    (htop : settings.topK = 1) (hzero : exp 0 = 1) (history : List Token) (hscores : Numbers scores)
    (hpeaked : Peaked (reweigh exp (rescaling settings) history scores)) (s s' : Sampler) :
    (s.select exp (reweigh exp (stages settings) history scores)).1 =
      (s'.select exp (reweigh exp (stages settings) history scores)).1 := by
  obtain ⟨i, hlone⟩ := reweigh_lone hsettings htop history hscores hpeaked
  exact select_of_lone hzero hlone s s'

end Utterance.Scores
