/-!
# Silence
-/

namespace Utterance.Audio

/-- Silence of the given number of milliseconds, cut to whole samples. -/
def silence (rate : UInt32) (milliseconds : UInt32) : List Float32 :=
  List.replicate (rate.toNat * milliseconds.toNat / 1000) 0

end Utterance.Audio
