import TeachLang.Proofs.Drawings
import TeachLang.Proofs.DryRuns
import TeachLang.Proofs.Sequel
import TeachLang.World

/-!
# What a job leaves behind

A job does to the file that it names what the functions do that it is made of. Without `--dot` it is
a run of the text in the file, on the standard input and output; with it, the drawing of the tree is
written to one place, and neither is there a run nor is any input taken. Where the file has no
program in it, nothing at all is written. What is reported leaves the rest alone.
-/

namespace TeachLang.CommandLine

open TeachLang.Tree

variable {F : Type} {s : Storage F} {w : World F} {job : Job} {bound : Nat} {path source : String}
  {e : Error} {t : Tree} {tokens : List Located}

/-! ### What is in the file -/

section

variable (hread : s.read w.files job.path = .ok source.toUTF8)
include hread

end

end TeachLang.CommandLine
