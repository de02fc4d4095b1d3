import Utterance.Proofs.Speech.Pipe.Requests
import Utterance.Proofs.Speech.Service

/-!
# The transcript of a session

Each request is answered with one line, which no blank but the space can break up, and so the output
is the line `READY` and one line for each request.  How the session ends depends on the input alone
as long as the output takes what is written.

## Key results

- `Answers.eq_space`: a reply is on a single line
- `answer_of_fits`: the lines of a session are answered one after the other
- `run_transcript`: what a session writes, and how it ends
-/

namespace Utterance.Speech.Pipe

open Text (trim squeeze encodeUtf8 isBlank)

variable {σ : Type}

/-! ## Replies -/

/-- The reply to a request: its audio in `base64`, or what went wrong with the speech or with the
file. -/
inductive Answers (service : Service σ) (text : String) : String → σ → σ → Prop
  | audio {world last : σ} {synthesis : Synthesis} {file : List UInt8}
      (hspeak : service text {} world = (.ok synthesis, last))
      (hencode : Audio.Wav.encode ⟨synthesis.samples, synthesis.rate⟩ = .ok file) :
      Answers service text ("AUDIO:" ++ Audio.base64 file) world last
  | speechFault {world last : σ} {fault : SpeechFault}
      (hspeak : service text {} world = (.error fault, last)) :
      Answers service text ("ERROR:" ++ String.ofList (squeeze (trim fault.message.toList)))
        world last
  | fileFault {world last : σ} {synthesis : Synthesis} {fault : SpeechFault}
      (hspeak : service text {} world = (.ok synthesis, last))
      (hencode : Audio.Wav.encode ⟨synthesis.samples, synthesis.rate⟩ = .error fault) :
      Answers service text ("ERROR:" ++ String.ofList (squeeze (trim taskLost.message.toList)))
        world last

/-- Requests are answered one after the other, as `Answers` has it for each. -/
inductive Answered (service : Service σ) : List String → List String → σ → σ → Prop
  | nil (world : σ) : Answered service [] [] world world
  | cons {text reply : String} {texts replies : List String} {world next last : σ}
      (hreply : Answers service text reply world next)
      (hrest : Answered service texts replies next last) :
      Answered service (text :: texts) (reply :: replies) world last

/-- A reply that counts as spoken: it starts with `AUDIO:`. -/
def isAudio (reply : String) : Bool :=
  "AUDIO:".toList.isPrefixOf reply.toList

/-- A reply that counts as failed: it starts with `ERROR:`. -/
def isError (reply : String) : Bool :=
  "ERROR:".toList.isPrefixOf reply.toList

/-- The `Summary` with one more reply. -/
def Summary.add (summary : Summary) (reply : String) : Summary :=
  ⟨summary.spoken + (if isAudio reply then 1 else 0),
    summary.failed + if isError reply then 1 else 0⟩

/-- A reply with audio is counted as `spoken`, and not as `failed`. -/
theorem add_audio (summary : Summary) (body : String) :
    summary.add ("AUDIO:" ++ body) = { summary with spoken := summary.spoken + 1 } := by
  have haudio : isAudio ("AUDIO:" ++ body) = true := by
    rw [isAudio, String.toList_append, List.isPrefixOf_iff_prefix]
    exact List.prefix_append _ _
  have herror : isError ("AUDIO:" ++ body) = false := by
    rw [isError, String.toList_append]
    rfl
  simp [Summary.add, haudio, herror]

/-- A reply with an error is counted as `failed`, and not as `spoken`. -/
theorem add_error (summary : Summary) (body : String) :
    summary.add ("ERROR:" ++ body) = { summary with failed := summary.failed + 1 } := by
  have haudio : isAudio ("ERROR:" ++ body) = false := by
    rw [isAudio, String.toList_append]
    rfl
  have herror : isError ("ERROR:" ++ body) = true := by
    rw [isError, String.toList_append, List.isPrefixOf_iff_prefix]
    exact List.prefix_append _ _
  simp [Summary.add, haudio, herror]

/-- What `speakEncoded` comes to for a request: the reply that a session writes, how it is counted,
and the world after it. -/
theorem Answers.eq {service : Service σ} {text line : String} {world last : σ}
    (h : Answers service text line world last) (summary : Summary) :
    reply (speakEncoded service text {} world).1 = line ∧
      summary.count (speakEncoded service text {} world).1 = summary.add line ∧
      (speakEncoded service text {} world).2 = last := by
  -- one case for each kind of answer, with its word and its counter
  cases h with
  | audio hspeak hencode =>
    rw [speakEncoded_of_file hspeak hencode]
    exact ⟨rfl, (add_audio summary _).symm, rfl⟩
  | speechFault hspeak =>
    rw [speakEncoded_of_speechFault hspeak]
    exact ⟨congrArg ("ERROR:" ++ ·) (Text.singleLine_eq _), (add_error summary _).symm, rfl⟩
  | fileFault hspeak hencode =>
    rw [speakEncoded_of_fileFault hspeak hencode]
    exact ⟨congrArg ("ERROR:" ++ ·) (Text.singleLine_eq _), (add_error summary _).symm, rfl⟩

/-- Every request has a reply that `Answers` it. -/
theorem exists_answers (service : Service σ) (text : String) (world : σ) :
    ∃ line last, Answers service text line world last := by
  obtain ⟨fault, last, hspeak⟩ | ⟨synthesis, last, hspeak, ⟨fault, hencode⟩ | ⟨file, hencode⟩⟩ :=
    speakEncoded_cases service text {} world
  · exact ⟨_, last, .speechFault hspeak⟩
  · exact ⟨_, last, .fileFault hspeak hencode⟩
  · exact ⟨_, last, .audio hspeak hencode⟩

/-- Requests one after the other are all `Answered`. -/
theorem exists_answered (service : Service σ) (texts : List String) (world : σ) :
    ∃ replies last, Answered service texts replies world last := by
  induction texts generalizing world with
  | nil => exact ⟨[], world, .nil world⟩
  | cons text texts ih =>
    obtain ⟨line, next, hreply⟩ := exists_answers service text world
    obtain ⟨replies, last, hrest⟩ := ih next
    exact ⟨line :: replies, last, .cons hreply hrest⟩

/-- There is one reply for each request that is `Answered`. -/
theorem Answered.length_eq {service : Service σ} {texts replies : List String} {world last : σ}
    (h : Answered service texts replies world last) : replies.length = texts.length := by
  induction h with
  | nil => rfl
  | cons _ _ ih => rw [List.length_cons, List.length_cons, ih]

/-! ## Single lines -/

/-- A digit of `base64` is not blank. -/
theorem isBlank_base64Digit (n : ℕ) : isBlank (Audio.base64Digit n) = false := by
  by_cases h : n < 64
  · revert n
    decide
  · -- what is not a sextet gets the last digit
    have hlast : Audio.base64Digit n = '/' := by
      rw [Audio.base64Digit, if_neg (by omega), if_neg (by omega), if_neg (by omega),
        if_neg (by omega)]
    rw [hlast]
    rfl

/-- So `base64` has no blanks, padding included. -/
theorem isBlank_base64Digits {bytes : List UInt8} {c : Char} (h : c ∈ Audio.base64Digits bytes) :
    isBlank c = false := by
  have hpad : isBlank '=' = false := rfl
  -- along the recursion of `base64Digits`: three bytes give four digits
  fun_induction Audio.base64Digits bytes with
  | case1 => cases h
  | case2 | case3 =>
    simp only [List.mem_cons, List.not_mem_nil, or_false] at h
    obtain rfl | rfl | rfl | rfl := h <;> simp only [isBlank_base64Digit, hpad]
  | case4 _ _ _ _ _ ih =>
    simp only [List.mem_cons] at h
    obtain rfl | rfl | rfl | rfl | h := h
    · exact isBlank_base64Digit _
    · exact isBlank_base64Digit _
    · exact isBlank_base64Digit _
    · exact isBlank_base64Digit _
    · exact ih h

/-- No blank but the space is in a reply: `base64` has none, and the message of a fault is
squeezed. -/
theorem Answers.eq_space {service : Service σ} {text line : String} {world last : σ}
    (h : Answers service text line world last) {c : Char} (hc : c ∈ line.toList)
    (hblank : isBlank c = true) : c = ' ' := by
  have haudio : "AUDIO:".toList.any isBlank = false := by decide
  have herror : "ERROR:".toList.any isBlank = false := by decide
  -- after its word a reply holds digits, or a text whose blanks are squeezed
  cases h with
  | audio =>
    rw [String.toList_append, List.mem_append] at hc
    obtain hc | hc := hc
    · exact absurd hblank (List.any_eq_false.mp haudio c hc)
    · rw [Audio.base64, String.toList_ofList] at hc
      simp [isBlank_base64Digits hc] at hblank
  | speechFault | fileFault =>
    rw [String.toList_append, List.mem_append] at hc
    obtain hc | hc := hc
    · exact absurd hblank (List.any_eq_false.mp herror c hc)
    · rw [String.toList_ofList] at hc
      exact Text.eq_space_of_mem_squeeze hc hblank

/-- The only blanks in the replies to requests that are `Answered` are spaces. -/
theorem Answered.eq_space {service : Service σ} {texts replies : List String} {world last : σ}
    (h : Answered service texts replies world last) :
    ∀ reply ∈ replies, ∀ c ∈ reply.toList, isBlank c = true → c = ' ' := by
  induction h with
  | nil => simp
  | cons hreply _ ih =>
    exact List.forall_mem_cons.mpr ⟨fun c hc hblank => hreply.eq_space hc hblank, ih⟩

/-! ## Output -/

/-- The bytes of a line: `encodeUtf8` of it and a line feed. -/
def lineBytes (line : String) : List UInt8 :=
  encodeUtf8 line ++ [10]

/-- The bytes of some lines, each as `lineBytes`. -/
def output (lines : List String) : List UInt8 :=
  lines.flatMap lineBytes

/-- The `output` of no lines has no bytes. -/
@[simp] theorem output_nil : output [] = [] :=
  rfl

/-- The `output` starts with the bytes of the first line. -/
@[simp] theorem output_cons (line : String) (lines : List String) :
    output (line :: lines) = lineBytes line ++ output lines :=
  rfl

/-- The line feeds of an `output` are those that end its lines, if no line has one inside. -/
theorem count_output {lines : List String} (h : ∀ line ∈ lines, '\n' ∉ line.toList) :
    (output lines).count 10 = lines.length := by
  -- induction on the lines: each adds its own line feed only
  induction lines with
  | nil => rfl
  | cons line lines ih =>
    obtain ⟨hline, hlines⟩ := List.forall_mem_cons.mp h
    have hfeed : (10 : UInt8) ∉ encodeUtf8 line :=
      mt (Text.mem_encodeUtf8_iff (show 10 < 0x80 by omega)).mp hline
    rw [output_cons, List.count_append, ih hlines, lineBytes, List.count_append,
      List.count_eq_zero.mpr hfeed, List.length_cons]
    simp [Nat.add_comm]

namespace Sink

/-- The `Sink` takes the bytes: it is unlimited, or has the room for them. -/
def Fits (sink : Sink) (bytes : List UInt8) : Prop :=
  ∀ room ∈ sink.room, bytes.length ≤ room

/-- The `Sink` with some more bytes written. -/
def put (sink : Sink) (bytes : List UInt8) : Sink :=
  ⟨sink.written ++ bytes, sink.room.map (· - bytes.length)⟩

variable {sink : Sink} {bytes bytes' : List UInt8} {line : String}

/-- Bytes fit in a limited `Sink` if there is room for them. -/
theorem fits_iff {room : ℕ} (hroom : sink.room = some room) :
    sink.Fits bytes ↔ bytes.length ≤ room := by
  simp [Fits, hroom]

/-- Bytes that are `put` in a limited sink take up as much room. -/
theorem room_put {room : ℕ} (hroom : sink.room = some room) :
    (sink.put bytes).room = some (room - bytes.length) := by
  rw [put, hroom, Option.map_some]

/-- To `put` no bytes changes nothing. -/
theorem put_nil (sink : Sink) : sink.put [] = sink := by
  simp [put]

/-- To `put` bytes one after the other is to put them together. -/
theorem put_append : sink.put (bytes ++ bytes') = (sink.put bytes).put bytes' := by
  simp [put, Function.comp_def, Nat.sub_sub]

/-- Two pieces fit as one if the first fits, and the second in what is left after `put`. -/
theorem fits_append_iff :
    sink.Fits (bytes ++ bytes') ↔ sink.Fits bytes ∧ (sink.put bytes).Fits bytes' := by
  cases hroom : sink.room with
  | none => simp [Fits, put, hroom]
  | some room =>
    rw [fits_iff hroom, fits_iff hroom, fits_iff (room_put hroom), List.length_append]
    omega

/-- `write` puts bytes that fit. -/
theorem write_of_fits (h : sink.Fits bytes) : sink.write bytes = (true, sink.put bytes) := by
  cases hroom : sink.room with
  | none => simp [write, put, hroom]
  | some room =>
    have hle := (fits_iff hroom).mp h
    simp [write, put, hroom, hle, List.take_of_length_le hle]

/-- `writeLine` puts a line that fits. -/
theorem writeLine_of_fits (h : sink.Fits (lineBytes line)) :
    sink.writeLine line = (.ok (), sink.put (lineBytes line)) := by
  obtain ⟨htext, hfeed⟩ := fits_append_iff.mp h
  rw [writeLine, write_of_fits htext]
  simp only [write_of_fits hfeed]
  rw [lineBytes, put_append]

end Sink

/-! ## Sessions -/

section Lines

variable {service : Service σ} {line : List UInt8} {text : String} (rest : List (List UInt8))
  (summary : Summary) {sink sink' : Sink} {world next : σ}

/-- `answer` stops with a channel fault at a line that is not UTF-8. -/
theorem answer_of_broken (service : Service σ) (h : lineText line = none) :
    ∃ reason, ∀ summary sink world, answer service (line :: rest) summary sink world =
      ⟨.error (.channel reason), sink, world⟩ := by
  cases hline : Text.decodeUtf8 line with
  | ok decoded => simp [lineText, hline, Except.toOption] at h
  | error fault =>
    refine ⟨"failed to read request: " ++ fault.message, fun summary sink world => ?_⟩
    simp only [answer, hline]

/-- What `decodeUtf8` and `trim` make of a line that has a `lineText`. -/
theorem decoded_of_lineText (h : lineText line = some text) :
    ∃ decoded, Text.decodeUtf8 line = .ok decoded ∧ String.ofList (trim decoded.toList) = text := by
  obtain ⟨decoded, rfl, htext⟩ := lineText_eq_some_iff.mp h
  exact ⟨decoded, Text.decodeUtf8_encodeUtf8 decoded, htext⟩

/-- `answer` passes over a blank line. -/
theorem answer_of_blank (h : lineText line = some text) (hblank : text = "") :
    answer service (line :: rest) summary sink world = answer service rest summary sink world := by
  obtain ⟨decoded, hline, htext⟩ := decoded_of_lineText h
  simp only [answer, hline, htext, String.isEmpty_iff, if_pos hblank]

/-- `answer` stops at `EXIT`, with the summary so far. -/
theorem answer_of_exit (h : lineText line = some text) (hexit : text = "EXIT") :
    answer service (line :: rest) summary sink world = ⟨.ok summary, sink, world⟩ := by
  obtain ⟨decoded, hline, htext⟩ := decoded_of_lineText h
  have hvisible : ¬text = "" := by simp [hexit]
  simp only [answer, hline, htext, String.isEmpty_iff, if_neg hvisible, if_pos hexit]

section Requests

variable (h : lineText line = some text) (hvisible : text ≠ "") (hexit : text ≠ "EXIT")
  {reply : String} (hreply : Answers service text reply world next)

include h hvisible hexit hreply

/-- `answer` goes on after a reply that is written, and counts it. -/
theorem answer_of_sent (hwrite : sink.writeLine reply = (.ok (), sink')) :
    answer service (line :: rest) summary sink world =
      answer service rest (summary.add reply) sink' next := by
  obtain ⟨decoded, hline, htext⟩ := decoded_of_lineText h
  obtain ⟨hwritten, hcount, hworld⟩ := hreply.eq summary
  simp only [answer, hline, htext, String.isEmpty_iff, if_neg hvisible, if_neg hexit, hwritten,
    hwrite, hcount, hworld]

/-- `answer` stops at a reply that cannot be written, with the request already spoken. -/
theorem answer_of_unsent {fault : SpeechFault}
    (hwrite : sink.writeLine reply = (.error fault, sink')) :
    answer service (line :: rest) summary sink world = ⟨.error fault, sink', next⟩ := by
  obtain ⟨decoded, hline, htext⟩ := decoded_of_lineText h
  obtain ⟨hwritten, hcount, hworld⟩ := hreply.eq summary
  simp only [answer, hline, htext, String.isEmpty_iff, if_neg hvisible, if_neg hexit, hwritten,
    hwrite, hworld]

end Requests

end Lines

/-- `answer` on lines whose replies fit: it counts all replies, unless a broken line ends the
session with a fault, and writes them one after the other. -/
theorem answer_of_fits {service : Service σ} {lines : List (List UInt8)}
    {asked replies : List String} {ends : Bool} {world last : σ}
    (hreads : Reads (lines.map lineText) asked ends)
    (hanswered : Answered service asked replies world last) (summary : Summary) :
    ∃ outcome : Except SpeechFault Summary,
      (ends = false → outcome = .ok ⟨summary.spoken + replies.countP isAudio,
        summary.failed + replies.countP isError⟩) ∧
      (ends = true → ∃ reason, outcome = .error (.channel reason)) ∧
      ∀ sink : Sink, sink.Fits (output replies) →
        answer service lines summary sink world = ⟨outcome, sink.put (output replies), last⟩ := by
  -- on the lines; the outcome is the same for every output, and each reply leaves another one
  induction lines generalizing asked replies world summary with
  | nil =>
    cases hreads
    cases hanswered
    refine ⟨.ok summary, fun _ => rfl, nofun, fun sink _ => ?_⟩
    rw [output_nil, Sink.put_nil]
    rfl
  | cons line rest ih =>
    rw [List.map_cons] at hreads
    cases hline : lineText line with
    | none =>
      rw [hline] at hreads
      cases hreads
      cases hanswered
      obtain ⟨reason, hanswer⟩ := answer_of_broken rest service hline
      refine ⟨_, nofun, fun _ => ⟨reason, rfl⟩, fun sink _ => ?_⟩
      rw [hanswer, output_nil, Sink.put_nil]
    | some text =>
      rw [hline] at hreads
      cases hreads with
      | exit hexit =>
        cases hanswered
        refine ⟨.ok summary, fun _ => rfl, nofun, fun sink _ => ?_⟩
        rw [answer_of_exit rest summary hline hexit, output_nil, Sink.put_nil]
      | blank hblank hrest =>
        obtain ⟨outcome, hclosed, hbroken, hanswer⟩ := ih hrest hanswered summary
        refine ⟨outcome, hclosed, hbroken, fun sink hfits => ?_⟩
        rw [answer_of_blank rest summary hline hblank, hanswer sink hfits]
      | request hvisible hexit hrest =>
        cases hanswered with
        | cons hreply hanswered =>
          rename_i reply replies next
          obtain ⟨outcome, hclosed, hbroken, hanswer⟩ := ih hrest hanswered (summary.add reply)
          refine ⟨outcome, fun hends => ?_, hbroken, fun sink hfits => ?_⟩
          · rw [hclosed hends, List.countP_cons, List.countP_cons]
            simp only [Summary.add]
            congr 2 <;> omega
          · obtain ⟨hfirst, hothers⟩ := Sink.fits_append_iff.mp hfits
            rw [answer_of_sent rest summary hline hvisible hexit hreply
                (Sink.writeLine_of_fits hfirst), hanswer _ hothers, output_cons, Sink.put_append]

/-- `run` with an output that takes all that is written: the line `READY` and then the replies. -/
theorem run_of_fits {service : Service σ} {input : List UInt8} {replies : List String}
    {world last : σ} (hanswered : Answered service (requests input) replies world last) :
    ∃ outcome : Except SpeechFault Summary,
      (broken input = false → outcome = .ok ⟨replies.countP isAudio, replies.countP isError⟩) ∧
      (broken input = true → ∃ reason, outcome = .error (.channel reason)) ∧
      ∀ room, (Sink.mk [] room).Fits (output ("READY" :: replies)) →
        run service input room world =
          ⟨outcome, (Sink.mk [] room).put (output ("READY" :: replies)), last⟩ := by
  obtain ⟨outcome, hclosed, hbroken, hanswer⟩ :=
    answer_of_fits (reads_lines input) hanswered {}
  refine ⟨outcome, fun hends => by simpa using hclosed hends, hbroken, fun room hfits => ?_⟩
  obtain ⟨hready, hreplies⟩ := Sink.fits_append_iff.mp hfits
  simp only [run, Sink.writeLine_of_fits hready]
  rw [hanswer _ hreplies, output_cons, Sink.put_append]

/-- What `run` does without a limit: it announces itself, and then answers the requests of its input
with one line each, in order.  It ends with a count of the replies, unless it comes to a line that
is not UTF-8: then it ends with a fault, after the replies to what came before. -/
theorem run_transcript (service : Service σ) (input : List UInt8) (world : σ) :
    ∃ replies last, Answered service (requests input) replies world last ∧
      (run service input none world).world = last ∧
      (run service input none world).sink.written = output ("READY" :: replies) ∧
      (∀ reply ∈ replies, ∀ c ∈ reply.toList, isBlank c = true → c = ' ') ∧
      (run service input none world).sink.written.count 10 = 1 + (requests input).length ∧
      (broken input = false → (run service input none world).outcome =
        .ok ⟨replies.countP isAudio, replies.countP isError⟩) ∧
      (broken input = true → ∃ reason,
        (run service input none world).outcome = .error (.channel reason)) := by
  obtain ⟨replies, last, hanswered⟩ := exists_answered service (requests input) world
  obtain ⟨outcome, hclosed, hbroken, hrun⟩ := run_of_fits hanswered
  have hspaces := hanswered.eq_space
  have hlines : ∀ line ∈ "READY" :: replies, '\n' ∉ line.toList := by
    -- a line feed is a blank, and not a space
    refine List.forall_mem_cons.mpr ⟨by decide, fun reply hreply hfeed => ?_⟩
    exact absurd (hspaces reply hreply '\n' hfeed rfl) (by decide)
  rw [hrun none nofun]
  refine ⟨replies, last, hanswered, rfl, List.nil_append _, hspaces, ?_, hclosed, hbroken⟩
  rw [Sink.put, List.nil_append, count_output hlines, List.length_cons, hanswered.length_eq,
    Nat.add_comm]

end Utterance.Speech.Pipe
