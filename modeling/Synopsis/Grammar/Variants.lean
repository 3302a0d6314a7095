import Synopsis.Grammar.Balance
import Synopsis.Grammar.Draft

/-!
# Variants

The variants of a grammar are the flat grammars that it allows, in source
order: the variant without an optional group comes before those with it, the
alternatives of an alternation keep their order, and outer decisions vary
slowest.

The number of variants grows exponentially with the number of decisions, so a
limit can be set.  The search stops at the first variant beyond it.

`Draft.collect` searches by recursion.  `Worklist.turn` is one turn of the search
with a worklist, and `Worklist.ends_iff` says that both come to the same.
-/

namespace Synopsis

namespace Draft

/-- Adds one more variant to those found, if the limit allows it. -/
def addVariant (limit : Option Nat) (found : Array Grammar) (variant : Grammar) :
    Except Fault (Array Grammar) :=
  match limit with
  | none => .ok (found.push variant)
  | some n =>
    if n ≤ found.size then .error (.tooManyVariants n) else .ok (found.push variant)

/-- Adds the variants of a draft to those found before it. -/
def collect (limit : Option Nat) (d : Draft) (found : Array Grammar) :
    Except Fault (Array Grammar) :=
  match _ : d.outcome with
  | .finished => addVariant limit found d.compact
  | .broken => .error .unclosedGroup
  | .choices drafts =>
    drafts.attach.foldlM (fun found c => collect limit c.1 found) found
termination_by d.marks
decreasing_by exact marks_lt_of_mem_choices ‹_› c.2

/-- A draft with choices has the variants of all its choices, in their
order. -/
theorem collect_choices {limit : Option Nat} {d : Draft} {drafts : List Draft}
    (h : d.outcome = .choices drafts) (found : Array Grammar) :
    collect limit d found =
      drafts.foldlM (fun found c => collect limit c found) found := by
  rw [collect]
  split
  · simp_all
  · simp_all
  · rename_i ds hds
    obtain rfl := Outcome.choices.inj (hds.symm.trans h)
    simp

end Draft

namespace Grammar

/-- The variants of a grammar, or the fault that keeps it from being expanded.
Without a limit every variant is listed. -/
def expand (g : Grammar) (limit : Option Nat) : Except Fault (List Grammar) :=
  match g.balance with
  | .error fault => .error fault
  | .ok balanced =>
    (Draft.collect limit (.ofGrammar balanced) #[]).map Array.toList

end Grammar

end Synopsis
