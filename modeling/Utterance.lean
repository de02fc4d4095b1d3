import Utterance.Audio.Base64
import Utterance.Audio.Bytes
import Utterance.Audio.Resample
import Utterance.Audio.Silence
import Utterance.Audio.Wav
import Utterance.Audio.Wav.File
import Utterance.Audio.Wav.Reader
import Utterance.Binary
import Utterance.Command.Arguments
import Utterance.Command.DebugTokens
import Utterance.Command.Number
import Utterance.Command.Process
import Utterance.Command.Speak
import Utterance.Command.SpeakerPipe
import Utterance.Config.Field
import Utterance.Config.File
import Utterance.Config.Settings
import Utterance.Decimal
import Utterance.Decode.Decoder
import Utterance.Decode.Oracle
import Utterance.Disk
import Utterance.Engine.Assets
import Utterance.Engine.Backend
import Utterance.Engine.Basic
import Utterance.Engine.LanguageModel
import Utterance.Engine.Settings
import Utterance.Engine.Speaker
import Utterance.Engine.Tensor
import Utterance.Engine.Voice
import Utterance.Fault
import Utterance.Http.Address
import Utterance.Http.Routes
import Utterance.Json.Fault
import Utterance.Json.Numeral
import Utterance.Json.Quoted
import Utterance.Json.Value
import Utterance.Main
import Utterance.Proofs.Binary.Arithmetic
import Utterance.Proofs.Binary.Folds
import Utterance.Proofs.Binary.Grid
import Utterance.Proofs.Binary.Operations
import Utterance.Proofs.Binary.Order
import Utterance.Proofs.Binary.Packing
import Utterance.Proofs.Binary.Rank
import Utterance.Proofs.Binary.Rounding
import Utterance.Proofs.Decode.Protocol
import Utterance.Proofs.Decode.Reuse
import Utterance.Proofs.Decode.Run
import Utterance.Proofs.Decode.Simulation
import Utterance.Proofs.Decode.Step
import Utterance.Proofs.Decode.Transcript
import Utterance.Proofs.Decode.Truncation
import Utterance.Proofs.Random.Draw
import Utterance.Proofs.Sampling.Settings
import Utterance.Proofs.Scores.Pipeline
import Utterance.Proofs.Scores.Rescaling
import Utterance.Proofs.Scores.Selection
import Utterance.Proofs.Scores.Softmax
import Utterance.Proofs.Scores.Support
import Utterance.Proofs.Scores.Truncation
import Utterance.Proofs.Speech.Simulation
import Utterance.Random.Block
import Utterance.Random.Draw
import Utterance.Random.Generator
import Utterance.Sampling.Overrides
import Utterance.Sampling.Settings
import Utterance.Scores.Penalty
import Utterance.Scores.Pipeline
import Utterance.Scores.Ranking
import Utterance.Scores.Selection
import Utterance.Scores.Softmax
import Utterance.Scores.Temperature
import Utterance.Scores.TopK
import Utterance.Scores.TopP
import Utterance.Speech.Model
import Utterance.Speech.Pipe
import Utterance.Speech.Service
import Utterance.Speech.Synthesizer
import Utterance.Text.Blank
import Utterance.Text.Hexadecimal
import Utterance.Text.Markup
import Utterance.Text.Preparation
import Utterance.Text.Sentence
import Utterance.Text.Utf8
import Utterance.Token
import Utterance.Toml.Blank
import Utterance.Toml.Document
import Utterance.Toml.Moment
import Utterance.Toml.Number
import Utterance.Toml.Quoted
import Utterance.Toml.Sections
import Utterance.Toml.Table
import Utterance.Toml.Value
import Utterance.Wire.Overrides
import Utterance.Wire.SpeakReply
import Utterance.Wire.SpeakRequest
import Utterance.Proofs.Decode.Selection
import Utterance.Proofs.Speech.Transcript
import Utterance.Proofs.Speech.Independence
import Utterance.Proofs.Speech.Cancellation
import Utterance.Proofs.Speech.Pipe.Requests
import Utterance.Proofs.Speech.Service
import Utterance.Proofs.Speech.Pipe.Transcript
import Utterance.Proofs.Speech.Pipe.Room
import Utterance.Proofs.Speech.Faults
import Utterance.Proofs.Http.Classification
import Utterance.Proofs.Scores.Peak
import Utterance.Proofs.Decode.Greedy
import Utterance.Proofs.Text.Preparation
import Utterance.Proofs.Json.Quoted
import Utterance.Proofs.Json.Numeral
import Utterance.Proofs.Json.Members
import Utterance.Proofs.Wire.Written
import Utterance.Proofs.Http.Agreement
import Utterance.Proofs.Engine.Action
import Utterance.Proofs.Engine.Cache
import Utterance.Proofs.Binary.Integers
import Utterance.Proofs.Audio.Bytes
import Utterance.Proofs.Audio.Level
import Utterance.Proofs.Disk
import Utterance.Proofs.Audio.RoundTrip
import Utterance.Proofs.Binary.Neutral
import Utterance.Proofs.Scores.Neutral
import Utterance.Proofs.Scores.Ranking
import Utterance.Proofs.Scores.TopK
import Utterance.Proofs.Scores.Nucleus
import Utterance.Proofs.Binary.Monotone
import Utterance.Proofs.Scores.ArgMax
import Utterance.Proofs.Scores.Temperature
import Utterance.Proofs.Scores.Lead
import Utterance.Proofs.Scores.Draws
import Utterance.Proofs.Text.Sentence
import Utterance.Proofs.Text.Joining
import Utterance.Proofs.Text.Markup
import Utterance.Proofs.Text.Visible
import Utterance.Proofs.Speech.Prefills
import Utterance.Proofs.Audio.Reencoding
import Utterance.Proofs.Binary.Binary64
import Utterance.Proofs.Audio.Resampling
import Utterance.Proofs.Sampling.Overrides
import Utterance.Proofs.Json.Reading
import Utterance.Proofs.Wire.Requests
import Utterance.Proofs.Scores.Penalty
import Utterance.Proofs.Scores.Spread
import Utterance.Proofs.Engine.Tensor
import Utterance.Proofs.Binary.Scientific
import Utterance.Proofs.Decimal
import Utterance.Proofs.Toml.Quoted
import Utterance.Proofs.Toml.Number
import Utterance.Proofs.Toml.Table
import Utterance.Proofs.Toml.Document
import Utterance.Proofs.Config.Field
import Utterance.Proofs.Config.RoundTrip
