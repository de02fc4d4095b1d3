import Utterance.Proofs.Json.Reading
import Utterance.Wire.SpeakRequest

/-!
# Requests and overrides

The knobs of a request are read with the rest of its members and gathered at the end; bare overrides
are gathered while they are read.  The members of a request are taken for overrides too, and mean
the same there.

## Key results

- `draft_mirrors`: the states of the two readers, member by member
- `overridesOfJson_of_requestOfJson`: a request is an object of overrides, those of the request
-/

namespace Utterance.Wire

open Json (Fault Rest Value Piece bind_eq_ok_iff)
open Sampling (Overrides)

variable {g g' : Gathered} {d d' : Draft} {key : String} {value : Value} {text rest : List Char}

/-! ## Knobs -/

/-- `knob` reads a scalar, or nothing. -/
theorem isScalar_of_knob {α : Type} {read : Json.Number → Option α} {x : Option α}
    (h : knob read value = .ok x) : value.IsScalar := by
  cases value with
  | null | number => trivial
  | bool | text => trivial
  | array | object => cases h

/-- `setKnob` takes a scalar, whichever knob it sets. -/
theorem isScalar_of_setKnob {o o' : Overrides} (hname : knobNames.contains key)
    (h : setKnob o key value = .ok o') : value.IsScalar := by
  simp only [knobNames, List.contains_cons, List.contains_nil, Bool.or_false, Bool.or_eq_true,
    beq_iff_eq] at hname
  obtain rfl | rfl | rfl | rfl | rfl | rfl := hname
  all_goals
    obtain ⟨x, hknob, -⟩ := bind_eq_ok_iff.mp h
    exact isScalar_of_knob hknob

/-! ## Members -/

/-- What `gather` makes of the knobs among the members of a draft. -/
def Draft.gathered (d : Draft) : Except Fault Gathered :=
  d.others.reverse.foldlM gather {}

/-- `gathered` of one more member gathers its knob after those before. -/
theorem Draft.gathered_push (d : Draft) (key : String) (value : Value) :
    ({ d with others := (key, value) :: d.others } : Draft).gathered =
      d.gathered >>= fun g => gather g (key, value) := by
  simp [Draft.gathered, List.foldlM_append]

/-- A member that `gather` takes is read by `readKnob`, as a knob or as one to pass over. -/
theorem readKnob_of_gather (hread : Json.readInner text = .ok (value, rest))
    (h : gather g (key, value) = .ok g') : readKnob g key text = .ok (g', rest) := by
  unfold gather at h
  unfold readKnob
  simp only at h
  -- a known member is read as a scalar, any other is skipped
  split at h
  · next hknown =>
    split at h
    · cases h
    · next hnew =>
      obtain ⟨o, hset, h⟩ := bind_eq_ok_iff.mp h
      cases h
      have hscalar := Json.valued_readScalar_of_readInner (isScalar_of_setKnob hknown hset) hread
      rw [if_pos hknown, if_neg hnew]
      exact bind_eq_ok_iff.mpr ⟨_, hscalar, bind_eq_ok_iff.mpr ⟨_, hset, rfl⟩⟩
  · next hunknown =>
    cases h
    rw [if_neg hunknown]
    exact bind_eq_ok_iff.mpr ⟨_, Json.skipValue_of_readInner hread, rfl⟩

/-- The text of a request is no knob, and `readKnob` passes over it. -/
theorem readKnob_text (hread : Json.valued (Json.readScalar text) = .ok (value, rest)) :
    readKnob g "text" text = .ok (g, rest) := by
  have hunknown : ¬knobNames.contains "text" = true := by decide
  unfold readKnob
  rw [if_neg hunknown]
  exact bind_eq_ok_iff.mpr ⟨_, Json.skipValue_of_valued_readScalar hread, rfl⟩

/-- A member that `readRequestMember` takes is one that `readKnob` takes, and gives the same
knobs. -/
theorem readKnob_of_readRequestMember (hread : readRequestMember d key text = .ok (d', rest))
    (hgathered : d'.gathered = .ok g') :
    ∃ g, d.gathered = .ok g ∧ readKnob g key text = .ok (g', rest) := by
  unfold readRequestMember at hread
  -- the text is read over, and every other member is gathered
  split at hread
  · next htext =>
    subst htext
    split at hread
    · cases hread
    · obtain ⟨⟨value, rest'⟩, hvalue, hread⟩ := bind_eq_ok_iff.mp hread
      split at hread
      · next spoken rest'' hspoken =>
        cases hspoken
        cases hread
        exact ⟨g', hgathered, readKnob_text hvalue⟩
      · cases hread
  · obtain ⟨⟨value, rest'⟩, hvalue, hread⟩ := bind_eq_ok_iff.mp hread
    cases hread
    rw [Draft.gathered_push, bind_eq_ok_iff] at hgathered
    obtain ⟨g, hbefore, hgather⟩ := hgathered
    exact ⟨g, hbefore, readKnob_of_gather hvalue hgather⟩

/-! ## Requests -/

/-- The knobs that `readKnob` has met are those among the members that a draft has. -/
theorem draft_mirrors :
    Json.Mirrors (fun d g => d.gathered = .ok g) (Json.withKey readRequestMember) Draft.finish
      (Json.withKey readKnob) (fun g => .ok g.overrides) SpeakRequest.overrides where
  step := by
    -- the members of a draft are those the overrides have gathered
    intro d key text d' rest g' hread hgathered
    unfold Json.withKey at hread ⊢
    split at hread
    · cases hread
    · exact readKnob_of_readRequestMember hread hgathered
  finish := by
    intro d r hfinish
    unfold Draft.finish at hfinish
    split at hfinish
    · cases hfinish
    · obtain ⟨g, hgathered, hfinish⟩ := bind_eq_ok_iff.mp hfinish
      cases hfinish
      exact ⟨g, hgathered, rfl⟩

/-- Members that `readRequest` reads as a request are read as overrides, those of the request. -/
theorem readOverrides_of_readRequest {r : SpeakRequest} (h : readRequest text = .ok (r, rest)) :
    readOverrides text = .ok (r.overrides, rest) := by
  unfold readRequest at h
  split at h
  · obtain ⟨g, hgathered, hread⟩ := draft_mirrors.readMembers h
    cases hgathered
    exact hread
  · cases h
  · cases h

/-- A text that `requestOfJson` reads is read as overrides, and gives those of the request. -/
theorem overridesOfJson_of_requestOfJson {text : String} {r : SpeakRequest}
    (h : requestOfJson text = .ok r) : overridesOfJson text = .ok r.overrides :=
  Json.readWith_of_imp readOverrides_of_readRequest h

/-- Both `requestOfJson` and `overridesOfJson` read a request with a knob, a text and a member that
is neither. -/
theorem overridesOfJson_of_requestOfJson_mixed :
    requestOfJson "\x7b\"top_k\":5,\"mood\":[null],\"text\":\"hi\"\x7d" =
        .ok { text := "hi", overrides := { topK := some 5 } } ∧
      overridesOfJson "\x7b\"top_k\":5,\"mood\":[null],\"text\":\"hi\"\x7d" =
        .ok { topK := some 5 } := by
  have hrequest : requestOfJson "\x7b\"top_k\":5,\"mood\":[null],\"text\":\"hi\"\x7d" =
      .ok { text := "hi", overrides := { topK := some 5 } } := by
    decide +kernel
  exact ⟨hrequest, overridesOfJson_of_requestOfJson hrequest⟩

end Utterance.Wire
