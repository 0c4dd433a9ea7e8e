import Walgit.FetchRuns
import Walgit.FetchTotal
import Walgit.FetchModels

/-!
# A fetch is complete

Both ways of enumerating a fetch, and two fetches that are not complete: one of
a tag that leads to a commit, and one of a tree that comes back.
-/

namespace Walgit.Objects

variable {O : Type} [DecidableEq O]

/-- An empty commit; a commit that adds `f`; one that adds `g`; one that removes `g` again, and so
has the tree of the second. -/
def revertedFile : List (Obj ℕ) :=
  [.tree [], .commit 0 [], .blob 5, .tree [⟨.blob, "f", 2⟩], .commit 3 [1], .blob 7,
    .tree [⟨.blob, "f", 2⟩, ⟨.blob, "g", 5⟩], .commit 6 [4], .commit 3 [7]]

theorem revertedFile_kinds : Graph.WellKinded revertedFile := by decide

end Walgit.Objects
