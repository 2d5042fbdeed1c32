/-!
# Sets of names and reachability

Names refer to names. `reachable` finds every name that some names lead to; it works in rounds, and
no more rounds are needed than there are names that refer to others. `sortedNames` gives a
collection of names the one form in which answers show it.
-/

namespace FilterPipeline

/-- Adds the names that the frontier refers to, round by round, until there are no new ones. -/
def spread (next : String → List String) : (rounds : Nat) → (reached frontier : List String) →
    List String
  | 0, reached, _ => reached
  | rounds + 1, reached, frontier =>
    let fresh := ((frontier.flatMap next).filter (!reached.contains ·)).eraseDups
    if fresh.isEmpty then reached else spread next rounds (reached ++ fresh) fresh

/-- The names that can be reached from the seeds, those included, in so many rounds. -/
def reachable (next : String → List String) (rounds : Nat) (seeds : List String) : List String :=
  let seeds := seeds.eraseDups
  spread next rounds seeds seeds

/-- Names in increasing order, each once. -/
def sortedNames (names : List String) : List String :=
  names.eraseDups.mergeSort fun a b ↦ decide (a ≤ b)

end FilterPipeline
