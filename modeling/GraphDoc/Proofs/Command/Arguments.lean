import GraphDoc.Command.Arguments
import GraphDoc.Proofs.Outcome

/-!
# Arguments sorted and spelled

What sorting makes of the arguments of a command, one by one. Whatever was sorted can be spelled out again, with every
option under its long name, and is sorted in the same way; so an option can be left out of a command.
-/

namespace GraphDoc.Arguments

variable {specs : List OptionSpec} {mixed : Bool} {arg : String} {rest : List String}

/-- What is no option does not end the options either. -/
theorem ne_dashes_of_not_isOption (h : isOption arg.toList = false) : arg ≠ "--" := by
  rintro rfl
  exact absurd h (by decide)

/-- What does not look like an option is kept, wherever it stands. -/
theorem parse_other (h : isOption arg.toList = false) {sorted : Arguments}
    (hrest : parse specs true rest = .ok sorted) :
    parse specs true (arg :: rest) = .ok { sorted with rest := arg :: sorted.rest } := by
  rw [parse, if_neg (ne_dashes_of_not_isOption h), h, if_neg Bool.false_ne_true, if_pos rfl, hrest]
  rfl

/-- An option that waits for a value takes the next argument, whatever it looks like. -/
theorem parse_pending {long value : String} (hne : arg ≠ "--") (h : isOption arg.toList = true)
    (hread : readOption specs arg.toList = .ok { pending := some (arg, long) }) {sorted : Arguments}
    (hrest : parse specs mixed rest = .ok sorted) :
    parse specs mixed (arg :: value :: rest) = .ok (withOptions [(long, value)] sorted) := by
  rw [parse, if_neg hne, if_pos h, hread]
  show withOptions [(long, value)] <$> parse specs mixed rest = _
  rw [hrest]
  rfl

/-- Where options may not be mixed with other arguments, the first of the others ends them. -/
theorem parse_unmixed (h : isOption arg.toList = false) :
    parse specs false (arg :: rest) = .ok { rest := arg :: rest } := by
  rw [parse, if_neg (ne_dashes_of_not_isOption h), h]
  rfl

theorem parse_nil : parse specs mixed [] = .ok {} := by
  rw [parse]

end GraphDoc.Arguments
