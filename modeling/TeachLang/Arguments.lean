import TeachLang.CommandLine

/-!
# Reading arguments

    [-v | --verbose] [-t | --timing] [--dot [-o FILE | --output FILE]] PATH

Arguments are read from left to right, and the first that asks for the version, asks for help or
is wrong decides.
-/

namespace TeachLang.CommandLine

def versionText : String := "minilang 0.1.0"

def aboutText : String :=
  "Interpreter for the minilang teaching language.\n"
    ++ "Reads a source file, builds its syntax tree and either runs it\n"
    ++ "against stdin/stdout or renders the tree as a Graphviz graph.\n\n"
    ++ "Example usage:\n"
    ++ "minilang prog.ml                  # Run the program\n"
    ++ "minilang prog.ml --dot            # Print the tree as DOT\n"
    ++ "minilang prog.ml --dot -o ast.dot # Write the DOT graph to a file\n"
    ++ "minilang prog.ml --timing         # Show phase timings on stderr\n\n"
    ++ "Set MINILANG_LOG=debug (or trace) for diagnostics."

structure Options where
  path : Option String := none
  dot : Bool := false
  output : Option String := none
  verbose : Bool := false
  timing : Bool := false

inductive Stop where
  | version
  | help
  | misuse

namespace Options

/-- An option may be given only once. -/
def setDot (o : Options) : Except Stop Options :=
  if o.dot then .error .misuse else .ok { o with dot := true }

def setVerbose (o : Options) : Except Stop Options :=
  if o.verbose then .error .misuse else .ok { o with verbose := true }

def setTiming (o : Options) : Except Stop Options :=
  if o.timing then .error .misuse else .ok { o with timing := true }

def setOutput (o : Options) (name : String) : Except Stop Options :=
  if o.output.isSome ∨ name = "" then .error .misuse else .ok { o with output := some name }

def setPath (o : Options) (name : String) : Except Stop Options :=
  if o.path.isSome ∨ name = "" then .error .misuse else .ok { o with path := some name }

end Options

/-- What an argument with two hyphens in front asks for; some options take a value behind `=`, or
else from the argument that follows. -/
def readLong (o : Options) (name : String) (value : Option String) :
    Except Stop (Options × Bool) :=
  match name, value with
  | "dot", none => return (← o.setDot, false)
  | "verbose", none => return (← o.setVerbose, false)
  | "timing", none => return (← o.setTiming, false)
  | "version", none => throw .version
  | "help", none => throw .help
  | "output", some v => return (← o.setOutput v, false)
  | "output", none => return (o, true)
  | _, _ => throw .misuse

/-- What the letters behind a single hyphen ask for. The letters behind an `o` are its value. -/
def readShort (o : Options) : List Char → Except Stop (Options × Bool)
  | [] => .ok (o, false)
  | 'v' :: rest => do readShort (← o.setVerbose) rest
  | 't' :: rest => do readShort (← o.setTiming) rest
  | 'V' :: _ => .error .version
  | 'h' :: _ => .error .help
  | ['o'] => .ok (o, true)
  | 'o' :: '=' :: value => return (← o.setOutput (String.ofList value), false)
  | 'o' :: value => return (← o.setOutput (String.ofList value), false)
  | _ => .error .misuse

def splitValue (cs : List Char) : String × Option String :=
  let name := String.ofList (cs.takeWhile (· ≠ '='))
  match cs.dropWhile (· ≠ '=') with
  | [] => (name, none)
  | _ :: value => (name, some (String.ofList value))

/-- Reads arguments: `plain` if all are paths, `awaiting` if the next must be an output file. -/
def readFrom (plain awaiting : Bool) (o : Options) : List String → Except Stop Options
  | [] => if awaiting then .error .misuse else .ok o
  | arg :: rest =>
    if plain then do readFrom true false (← o.setPath arg) rest
    else match arg.toList with
      | ['-', '-'] => if awaiting then .error .misuse else readFrom true false o rest
      | '-' :: '-' :: cs => do
        if awaiting then throw .misuse
        let (name, value) := splitValue cs
        let (o, awaiting) ← readLong o name value
        readFrom false awaiting o rest
      | '-' :: c :: cs => do
        if awaiting then throw .misuse
        let (o, awaiting) ← readShort o (c :: cs)
        readFrom false awaiting o rest
      | _ => do
        if awaiting then readFrom false false (← o.setOutput arg) rest
        else readFrom false false (← o.setPath arg) rest

/-- Reads all arguments. A path must be among them, and an output file only serves a graph. -/
def readArguments (args : List String) : Except Stop Job := do
  let o ← readFrom false false {} args
  match o.path with
  | none => throw .misuse
  | some path =>
    if o.output.isSome ∧ ¬ o.dot then throw .misuse
    return ⟨path, o.dot, o.output, o.verbose, o.timing⟩

end TeachLang.CommandLine
