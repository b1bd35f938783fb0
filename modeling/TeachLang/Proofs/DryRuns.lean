import TeachLang.CommandLine
import TeachLang.Proofs.Preorder
import TeachLang.Proofs.Simulation

/-!
# Runs that take no input

A run is the same whatever there is to read, if no node that it can come to takes input.
-/

namespace TeachLang

open TeachLang.Tree

namespace Eval

variable {α : Type} {reader : Reader}

end Eval

namespace Tree

open Eval

variable {t : Tree} {k : NodeId} {reader : Reader}

end Tree

end TeachLang
