import Utterance.Proofs.Speech.Pipe.Transcript

/-!
# Sessions with a limited output

An output that takes only so many bytes ends the session with the first line that does not fit.  The
bytes written are then those of a session without a limit, up to the limit, and the requests spoken
are those up to the one whose reply did not fit.

## Key results

- `answer_of_over`: how a session ends with a reply that does not fit
- `run_cut`: a session with a limit, compared with the one without
-/

namespace Utterance.Speech.Pipe

open Sampling (Overrides)
open Text (encodeUtf8)

variable {σ : Type}

/-! ## Requests spoken -/

/-- The `Service`, with every request added to a log. -/
def logged (service : Service σ) : Service (σ × List (String × Overrides)) :=
  fun text overrides world =>
    ((service text overrides world.1).1, (service text overrides world.1).2,
      world.2 ++ [(text, overrides)])

/-- A request without `Overrides`. -/
def plain (text : String) : String × Overrides :=
  (text, {})

/-- The requests that `run` makes to its service. -/
def calls (service : Service σ) (input : List UInt8) (room : Option ℕ) (world : σ) :
    List (String × Overrides) :=
  (run (logged service) input room (world, [])).world.2

section Logged

variable {service : Service σ} {world last : σ}

/-- A service that is `logged` gives the same reply, and logs the request. -/
theorem Answers.logged {text line : String} (h : Answers service text line world last)
    (log : List (String × Overrides)) :
    Answers (logged service) text line (world, log) (last, log ++ [plain text]) := by
  cases h with
  | audio hspeak hencode => exact .audio (by simp only [Pipe.logged, hspeak, plain]) hencode
  | speechFault hspeak => exact .speechFault (by simp only [Pipe.logged, hspeak, plain])
  | fileFault hspeak hencode => exact .fileFault (by simp only [Pipe.logged, hspeak, plain]) hencode

/-- A service that is `logged` gives the same replies to requests one after the other, and logs all
of them. -/
theorem Answered.logged {texts replies : List String}
    (h : Answered service texts replies world last) (log : List (String × Overrides)) :
    Answered (logged service) texts replies (world, log) (last, log ++ texts.map plain) := by
  -- the log grows with each reply, so the induction is for every log
  induction h generalizing log with
  | nil world =>
    rw [List.map_nil, List.append_nil]
    exact .nil _
  | cons hreply _ ih =>
    rw [List.map_cons, List.append_cons]
    exact .cons (hreply.logged log) (ih _)

end Logged

/-! ## Lines that do not fit -/

namespace Sink

variable {sink : Sink} {bytes : List UInt8} {line : String} {room : ℕ}

/-- A `write` that does not fit fills the room that is left. -/
theorem write_of_over (hroom : sink.room = some room) (hover : room < bytes.length) :
    sink.write bytes = (false, ⟨sink.written ++ bytes.take room, some 0⟩) := by
  simp [write, hroom, Nat.not_le.mpr hover, Nat.sub_eq_zero_of_le hover.le]

/-- `writeLine` writes a line that does not fit in part, up to the room that there is. -/
theorem writeLine_of_over (hroom : sink.room = some room) (hover : room < (lineBytes line).length) :
    ∃ reason, sink.writeLine line =
      (.error (.channel reason), ⟨sink.written ++ (lineBytes line).take room, some 0⟩) := by
  -- the room ends either within the text or at its line feed
  by_cases htext : room < (encodeUtf8 line).length
  · refine ⟨"failed to write reply: write zero", ?_⟩
    rw [lineBytes, List.take_append_of_le_length htext.le]
    simp only [writeLine, write_of_over hroom htext]
  · -- the text fits, and leaves no room for the line feed
    have hlength : (encodeUtf8 line).length = room := by
      simp only [lineBytes, List.length_append, List.length_singleton] at hover
      omega
    have hfits : sink.Fits (encodeUtf8 line) := (fits_iff hroom).mpr hlength.le
    have hfull : (sink.put (encodeUtf8 line)).room = some 0 := by
      rw [room_put hroom, hlength, Nat.sub_self]
    have hfeed : (sink.put (encodeUtf8 line)).write [10] =
        (false, ⟨sink.written ++ encodeUtf8 line ++ [], some 0⟩) :=
      write_of_over hfull (by simp)
    refine ⟨"failed to write newline: write zero", ?_⟩
    simp only [writeLine, write_of_fits hfits, hfeed]
    rw [lineBytes, List.take_append_of_le_length hlength.ge, List.take_of_length_le hlength.le,
      List.append_nil]

end Sink

/-! ## Sessions -/

/-- The `output` of some lines and others comes one after the other. -/
theorem output_append (lines lines' : List String) :
    output (lines ++ lines') = output lines ++ output lines' :=
  List.flatMap_append

/-- If the `output` does not fit, some reply is the first that does not. -/
theorem exists_over {room : ℕ} (replies : List String) (hover : room < (output replies).length) :
    ∃ sent reply rest, replies = sent ++ reply :: rest ∧ (output sent).length ≤ room ∧
      room < (output (sent ++ [reply])).length := by
  -- induction on the replies, with the room the first has left
  induction replies generalizing room with
  | nil => exact absurd hover (Nat.not_lt_zero _)
  | cons first replies ih =>
    rw [output_cons, List.length_append] at hover
    by_cases hfirst : room < (lineBytes first).length
    · exact ⟨[], first, replies, rfl, Nat.zero_le _, by simpa using hfirst⟩
    · -- the first reply fits, so the one that does not is among the rest
      obtain ⟨sent, reply, rest, rfl, hsent, hreply⟩ :=
        ih (show room - (lineBytes first).length < (output replies).length by omega)
      refine ⟨first :: sent, reply, rest, rfl, ?_, ?_⟩
      · rw [output_cons, List.length_append]
        omega
      · rw [List.cons_append, output_cons, List.length_append]
        omega

/-- The requests up to the one that gets a given reply are `Answered` with the replies up to
that. -/
theorem Answered.split {service : Service σ} {asked sent rest : List String} {reply : String}
    {world last : σ} (h : Answered service asked (sent ++ reply :: rest) world last) :
    ∃ before text after middle, asked = before ++ text :: after ∧
      Answered service (before ++ [text]) (sent ++ [reply]) world middle := by
  -- induction on the replies sent before it, each of which answers one request
  induction sent generalizing asked world with
  | nil =>
    cases h with
    | cons hreply _ => exact ⟨[], _, _, _, rfl, .cons hreply (.nil _)⟩
  | cons first sent ih =>
    cases h with
    | cons hfirst hothers =>
      obtain ⟨before, text, after, middle, rfl, hanswered⟩ := ih hothers
      exact ⟨_ :: before, text, after, middle, rfl, .cons hfirst hanswered⟩

/-- The requests up to the first one whose reply does not fit after `READY`. -/
theorem Answered.exists_over {service : Service σ} {asked replies : List String} {world last : σ}
    (h : Answered service asked replies world last) {n : ℕ}
    (hready : (lineBytes "READY").length ≤ n) (hover : n < (output ("READY" :: replies)).length) :
    ∃ before text after sent reply rest middle, asked = before ++ text :: after ∧
      replies = sent ++ reply :: rest ∧
      Answered service (before ++ [text]) (sent ++ [reply]) world middle ∧
      (output ("READY" :: sent)).length ≤ n ∧
      n < (output ("READY" :: (sent ++ [reply]))).length := by
  -- `READY` fits, so it is a reply that does not
  rw [output_cons, List.length_append] at hover
  obtain ⟨sent, reply, rest, rfl, hsent, hreply⟩ := Pipe.exists_over replies
    (show n - (lineBytes "READY").length < (output replies).length by omega)
  obtain ⟨before, text, after, middle, hasked, hfront⟩ := h.split
  refine ⟨before, text, after, sent, reply, rest, middle, hasked, rfl, hfront, ?_, ?_⟩
  · rw [output_cons, List.length_append]
    omega
  · rw [output_cons, List.length_append]
    omega

/-- `answer` ends a session with the reply that does not fit: what fits of it is written, and the
request has been spoken. -/
theorem answer_of_over {service : Service σ} {lines : List (List UInt8)}
    {before after sent : List String} {text reply : String} {ends : Bool} {world middle : σ}
    (hreads : Reads (lines.map lineText) (before ++ text :: after) ends)
    (hanswered : Answered service (before ++ [text]) (sent ++ [reply]) world middle)
    (summary : Summary) {sink : Sink} {room : ℕ} (hroom : sink.room = some room)
    (hsent : (output sent).length ≤ room) (hover : room < (output (sent ++ [reply])).length) :
    ∃ reason, answer service lines summary sink world =
      ⟨.error (.channel reason),
        ⟨sink.written ++ (output (sent ++ [reply])).take room, some 0⟩, middle⟩ := by
  -- on the lines; a reply that is sent leaves the output with less room
  induction lines generalizing before sent world summary sink room with
  | nil =>
    generalize hasked : before ++ text :: after = asked at hreads
    cases hreads
    simp at hasked
  | cons line rest ih =>
    generalize hasked : before ++ text :: after = asked at hreads
    rw [List.map_cons] at hreads
    cases hline : lineText line with
    | none =>
      rw [hline] at hreads
      cases hreads
      simp at hasked
    | some asked =>
      rw [hline] at hreads
      cases hreads with
      | exit => simp at hasked
      | blank hblank hrest =>
        rw [answer_of_blank rest summary hline hblank]
        exact ih (hasked ▸ hrest) hanswered summary hroom hsent hover
      | request hvisible hexit hrest =>
        have hlength := hanswered.length_eq
        cases before with
        | nil =>
          -- this is the request whose reply does not fit
          obtain ⟨rfl, -⟩ := List.cons.inj hasked
          cases sent with
          | cons => simp at hlength
          | nil =>
            cases hanswered with
            | cons hreply hnone =>
              cases hnone
              rw [List.nil_append, output_cons, output_nil, List.append_nil] at hover
              obtain ⟨reason, hwrite⟩ := Sink.writeLine_of_over hroom hover
              refine ⟨reason, ?_⟩
              rw [answer_of_unsent rest summary hline hvisible hexit hreply hwrite, List.nil_append,
                output_cons, output_nil, List.append_nil]
        | cons first before =>
          obtain ⟨rfl, rfl⟩ := List.cons.inj hasked
          cases sent with
          | nil => simp at hlength
          | cons firstReply sent =>
            cases hanswered with
            | cons hreply hothers =>
              rw [output_cons, List.length_append] at hsent
              rw [List.cons_append, output_cons, List.length_append] at hover
              have hfits : sink.Fits (lineBytes firstReply) :=
                (Sink.fits_iff hroom).mpr (by omega)
              have hleft : (sink.put (lineBytes firstReply)).room =
                  some (room - (lineBytes firstReply).length) := Sink.room_put hroom
              obtain ⟨reason, hanswer⟩ :=
                ih hrest hothers (summary.add firstReply) hleft (by omega) (by omega)
              refine ⟨reason, ?_⟩
              rw [answer_of_sent rest summary hline hvisible hexit hreply
                (Sink.writeLine_of_fits hfits), hanswer, List.cons_append, output_cons,
                List.take_append, Sink.put, List.append_assoc,
                List.take_of_length_le (show (lineBytes firstReply).length ≤ room by omega)]

/-- `run` ends at once if the output does not even take its first line. -/
theorem run_of_over (service : Service σ) (input : List UInt8) (world : σ) {n : ℕ}
    (hover : n < (lineBytes "READY").length) :
    ∃ reason, run service input (some n) world =
      ⟨.error (.channel reason), ⟨(lineBytes "READY").take n, some 0⟩, world⟩ := by
  have hroom : (Sink.mk [] (some n)).room = some n := rfl
  obtain ⟨reason, hwrite⟩ := Sink.writeLine_of_over hroom hover
  refine ⟨reason, ?_⟩
  simp only [run, hwrite, List.nil_append]

/-- `run` ends with a reply that does not fit. -/
theorem run_of_over_reply {service : Service σ} {input : List UInt8}
    {before after sent : List String} {text reply : String} {world middle : σ}
    (hrequests : requests input = before ++ text :: after)
    (hanswered : Answered service (before ++ [text]) (sent ++ [reply]) world middle) {n : ℕ}
    (hsent : (output ("READY" :: sent)).length ≤ n)
    (hover : n < (output ("READY" :: (sent ++ [reply]))).length) :
    ∃ reason, run service input (some n) world =
      ⟨.error (.channel reason),
        ⟨(output ("READY" :: (sent ++ [reply]))).take n, some 0⟩, middle⟩ := by
  rw [output_cons, List.length_append] at hsent hover
  -- after `READY` the replies share the room that is left
  have hfits : (Sink.mk [] (some n)).Fits (lineBytes "READY") :=
    (Sink.fits_iff rfl).mpr (by omega)
  have hleft : ((Sink.mk [] (some n)).put (lineBytes "READY")).room =
      some (n - (lineBytes "READY").length) := Sink.room_put rfl
  obtain ⟨reason, hanswer⟩ := answer_of_over (hrequests ▸ reads_lines input) hanswered {} hleft
    (by omega) (by omega)
  refine ⟨reason, ?_⟩
  simp only [run, Sink.writeLine_of_fits hfits]
  rw [hanswer, output_cons, List.take_append, Sink.put, List.nil_append,
    List.take_of_length_le (show (lineBytes "READY").length ≤ n by omega)]

/-- A session whose output takes `n` bytes does what a session does without a limit, if that writes
no more.  Otherwise it ends with a fault, with the first `n` of the bytes written.  It has spoken
the requests up to the one whose reply did not fit, and none if there was no room to announce
itself. -/
theorem run_cut (service : Service σ) (input : List UInt8) (n : ℕ) (world : σ) :
    let whole := run service input none world
    let cut := run service input (some n) world
    (whole.sink.written.length ≤ n →
      cut.outcome = whole.outcome ∧ cut.sink.written = whole.sink.written ∧
        cut.world = whole.world ∧
        calls service input (some n) world = calls service input none world) ∧
    (n < whole.sink.written.length →
      (∃ reason, cut.outcome = .error (.channel reason)) ∧
        cut.sink.written = whole.sink.written.take n ∧
        (n < (lineBytes "READY").length →
          cut.world = world ∧ calls service input (some n) world = []) ∧
        ((lineBytes "READY").length ≤ n → ∃ before text after sent reply,
          requests input = before ++ text :: after ∧
          Answered service (before ++ [text]) (sent ++ [reply]) world cut.world ∧
          calls service input (some n) world = (before ++ [text]).map plain ∧
          (output ("READY" :: sent)).length ≤ n ∧
          n < (output ("READY" :: (sent ++ [reply]))).length)) := by
  intro whole cut
  -- both runs answer the same requests in the same order
  obtain ⟨replies, last, hanswered⟩ := exists_answered service (requests input) world
  obtain ⟨outcome, -, -, hrun⟩ := run_of_fits hanswered
  obtain ⟨_, -, -, hlogged⟩ := run_of_fits (hanswered.logged [])
  have hwhole : whole = ⟨outcome, ⟨output ("READY" :: replies), none⟩, last⟩ := hrun none nofun
  have hwritten : whole.sink.written = output ("READY" :: replies) := by rw [hwhole]
  rw [hwritten]
  constructor
  · -- everything fits, so the limit is never reached
    intro hlength
    have hfits : (Sink.mk [] (some n)).Fits (output ("READY" :: replies)) :=
      (Sink.fits_iff rfl).mpr hlength
    have hcut : cut = _ := hrun (some n) hfits
    rw [hwhole, hcut]
    refine ⟨rfl, List.nil_append _, rfl, ?_⟩
    rw [calls, calls, hlogged (some n) hfits, hlogged none nofun]
  · intro hover
    by_cases hready : n < (lineBytes "READY").length
    · -- `READY` does not fit, and nothing has been asked yet
      obtain ⟨reason, hrun⟩ := run_of_over service input world hready
      obtain ⟨_, hlogged⟩ := run_of_over (logged service) input (world, []) hready
      have hcut : cut = _ := hrun
      rw [hcut]
      refine ⟨⟨reason, rfl⟩, ?_, fun _ => ⟨rfl, ?_⟩, fun hle => absurd hready hle.not_gt⟩
      · rw [output_cons, List.take_append_of_le_length hready.le]
      · rw [calls, hlogged]
    · -- some reply is the first that does not fit
      obtain ⟨before, text, after, sent, reply, rest, middle, hrequests, rfl, hfront, hfits,
        hlimit⟩ := hanswered.exists_over (Nat.not_lt.mp hready) hover
      obtain ⟨reason, hrun⟩ := run_of_over_reply hrequests hfront hfits hlimit
      obtain ⟨_, hlogged⟩ := run_of_over_reply hrequests (hfront.logged []) hfits hlimit
      have hcut : cut = _ := hrun
      rw [hcut]
      refine ⟨⟨reason, rfl⟩, ?_, fun hlt => absurd hlt hready, fun _ =>
        ⟨before, text, after, sent, reply, hrequests, hfront, ?_, hfits, hlimit⟩⟩
      · have hsplit : "READY" :: (sent ++ reply :: rest) =
            "READY" :: (sent ++ [reply]) ++ rest := by simp
        rw [hsplit, output_append, List.take_append_of_le_length hlimit.le]
      · -- the calls are those of the requests answered so far
        rw [calls, hlogged, List.nil_append]

end Utterance.Speech.Pipe
