import TeachLang.Eval
import TeachLang.Program.Layout

/-!
# Interpreting a source text
-/

namespace TeachLang

def interpret (bound : Nat) (source : String) (file : Option String) (reader : Reader)
    (sink : Sink) : Option (Except Error Unit × Reader × Sink) :=
  match Tree.ofSource source file with
  | .error e => some (.error e, reader, sink)
  | .ok t => (t.run bound { reader := reader, sink := sink }).map fun (result, m) =>
      (result, m.reader, m.sink)

end TeachLang
