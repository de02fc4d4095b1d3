import Utterance.Proofs.Json.Members
import Utterance.Wire.SpeakReply
import Utterance.Wire.SpeakRequest

/-!
# Written requests and replies

A reply is read back from the JSON that is written for it, and a request for a text from an object
with the text alone.

## Key results

- `SpeakReply.ofJson_toJson`: a reply is read back as it was
- `SpeakReply.rewrite_settles`: what is read and written again
- `requestOfJson_textRequest`: a text asks for itself, with nothing overridden
-/

namespace Utterance.Wire

open Json (Value Spells Stops Takes TakesAll quote spellAll skipBlanks)

/-- `Json.readWith` takes what stands between braces for a whole text. -/
theorem readWith_braces {α : Type} {read : List Char → Except Json.Fault (Json.Rest α)} {x : α}
    {inside : List Char} (h : read ('{' :: (inside ++ ['}'])) = .ok (x, [])) :
    Json.readWith read (String.ofList ('{' :: (inside ++ ['}']))) = .ok x := by
  have hblanks : skipBlanks ('{' :: (inside ++ ['}'])) = '{' :: (inside ++ ['}']) := rfl
  rw [Json.readWith, String.toList_ofList, hblanks, h]
  rfl

/-! ## Replies -/

namespace SpeakReply

/-- The members of a `SpeakReply`: what is written for them, and what that means. -/
def written : SpeakReply → List (String × List Char × Value)
  | .ok text audio rate =>
    [("status", quote "ok", .text "ok"), ("text", quote text, .text text),
      ("audio_b64", quote audio, .text audio),
      ("sample_rate", Nat.toDigits 10 rate.toNat, .number (.whole rate.toNat))]
  | .error message code =>
    [("status", quote "error", .text "error"), ("message", quote message, .text message),
      ("code", quote code, .text code)]

/-- A `SpeakReply` has members. -/
theorem written_ne_nil (r : SpeakReply) : r.written ≠ [] := by
  cases r <;> exact List.cons_ne_nil _ _

/-- What is `written` for the members means their values. -/
theorem spells_of_mem_written (r : SpeakReply) :
    ∀ member ∈ r.written, Spells member.2.1 member.2.2 := by
  have hrate : ∀ rate : UInt32, rate.toNat < UInt64.size := fun rate =>
    rate.toNat_lt_size.trans (by decide)
  -- one case for each variant, member by member
  cases r with
  | ok text audio rate =>
    simp only [written, List.forall_mem_cons]
    exact ⟨Json.spells_quote "ok", Json.spells_quote text, Json.spells_quote audio,
      Json.spells_toDigits (hrate rate), nofun⟩
  | error message code =>
    simp only [written, List.forall_mem_cons]
    exact ⟨Json.spells_quote "error", Json.spells_quote message, Json.spells_quote code, nofun⟩

/-- `toJson` writes the members between braces. -/
theorem toJson_eq (r : SpeakReply) :
    r.toJson = String.ofList
      ('{' :: (spellAll (r.written.map fun member => (member.1, member.2.1)) ++ ['}'])) := by
  cases r <;> rfl

/-- `rate?` reads a rate back from its number. -/
theorem rate?_toNat (rate : UInt32) : rate? (.number (.whole rate.toNat)) = some rate := by
  have hrange : (0 : ℤ) ≤ rate.toNat ∧ (rate.toNat : ℤ) < UInt32.size :=
    ⟨Int.natCast_nonneg _, by exact_mod_cast rate.toNat_lt_size⟩
  rw [rate?, if_pos hrange, Int.toNat_natCast]
  exact congrArg some UInt32.ofNat_toNat

/-- `ofMembers` on the members of a reply with audio, up to the rate. -/
theorem ofMembers_ok (text audio : String) (rate : Value) :
    ofMembers [("status", .text "ok"), ("text", .text text), ("audio_b64", .text audio),
      ("sample_rate", rate)] = (rate? rate).bind fun rate => some (.ok text audio rate) :=
  rfl

/-- `ofMembers` reads the reply back from the values of its members. -/
theorem ofMembers_written (r : SpeakReply) :
    ofMembers (r.written.map fun member => (member.1, member.2.2)) = some r := by
  cases r with
  | ok text audio rate =>
    simp only [written, List.map_cons, List.map_nil]
    rw [ofMembers_ok, rate?_toNat, Option.bind_some]
  | error message code => rfl

/-- `ofJson` reads a reply back from what `toJson` writes for it. -/
theorem ofJson_toJson (r : SpeakReply) : ofJson r.toJson = .ok r := by
  have hread : Json.readWith (fun text => Json.valued (Json.readRaw Json.nestingLimit text))
      r.toJson = .ok (.object (r.written.map fun member => (member.1, member.2.2))) := by
    rw [toJson_eq]
    exact readWith_braces
      (Json.valued_readRaw_object (spells_of_mem_written r) (written_ne_nil r) 126 [])
  simp only [ofJson, hread, bind, Except.bind, ofValue, ofMembers_written]

/-- Reads a reply with `ofJson` and writes it again with `toJson`. -/
def rewrite (text : String) : Except Json.Fault String :=
  (ofJson text).map toJson

/-- `toJson` and then `ofJson` is the identity on replies.  So a text that is read as a reply is
written as a text that means the same, and that stays as it is when it is read and written again. -/
theorem rewrite_settles :
    (∀ r : SpeakReply, ofJson r.toJson = .ok r) ∧
    ∀ text written, rewrite text = .ok written →
      ofJson written = ofJson text ∧ rewrite written = .ok written := by
  refine ⟨ofJson_toJson, fun text written h => ?_⟩
  -- only what could be read is written
  cases hread : ofJson text with
  | error fault =>
    rw [rewrite, hread] at h
    cases h
  | ok r =>
    rw [rewrite, hread] at h
    cases h
    exact ⟨ofJson_toJson r, by rw [rewrite, ofJson_toJson]; rfl⟩

/-- `rewrite` of an error with blanks, its members out of order and a character spelled by its
number. -/
theorem rewrite_settles_error :
    rewrite "\x7b \"code\": \"E\", \"message\": \"\\u0041\\n\", \"status\": \"error\" \x7d" =
        .ok (SpeakReply.error "A\n" "E").toJson ∧
      rewrite (SpeakReply.error "A\n" "E").toJson = .ok (SpeakReply.error "A\n" "E").toJson := by
  have hwritten : rewrite
      "\x7b \"code\": \"E\", \"message\": \"\\u0041\\n\", \"status\": \"error\" \x7d" =
        .ok (SpeakReply.error "A\n" "E").toJson := by
    decide +kernel
  exact ⟨hwritten, (rewrite_settles.2 _ _ hwritten).2⟩

end SpeakReply

/-! ## Requests -/

/-- A request for a text, as JSON: its only member is `text`. -/
def textRequest (text : String) : String :=
  String.ofList ('{' :: (spellAll [("text", quote text)] ++ ['}']))

/-- The member of a `textRequest` is taken as its text. -/
theorem takes_text (text : String) :
    Takes (Json.withKey readRequestMember) {} ("text", quote text) { text := some text } := by
  intro rest hrest
  have hstart : skipBlanks (quote text ++ rest) = quote text ++ rest := by
    rw [Json.quote_append]
    rfl
  refine ⟨hstart, ?_⟩
  rw [Json.withKey_map_pieceOf, readRequestMember]
  simp [Json.valued_readScalar_quote, bind, Except.bind]

/-- A `textRequest` asks for the text, with nothing overridden. -/
theorem requestOfJson_textRequest (text : String) :
    requestOfJson (textRequest text) = .ok { text } := by
  have hread := Json.readMembers_of_takesAll Draft.finish (.cons (takes_text text) (.nil _))
    (List.cons_ne_nil _ _) []
  refine readWith_braces ?_
  rw [readRequest]
  exact hread

end Utterance.Wire
