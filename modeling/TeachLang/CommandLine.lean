import TeachLang.Interpret
import TeachLang.Tree.Graph

/-!
# Carrying out a job

The program is read and parsed before anything else happens: so where it is no program, no file is
made. Input is only taken for a program that asks for some. What the job needs of the files, the
input and the clock is asked of a host.
-/

namespace TeachLang

def Tree.takesInput (t : Tree) : Bool :=
  t.reachable.any fun id => (t.get? id).any fun n => n.kind = .input

namespace CommandLine

/-- What to do with one program. To be verbose only matters for the log, which is left out. -/
structure Job where
  path : String
  dot : Bool := false
  output : Option String := none
  verbose : Bool := false
  timing : Bool := false

/-- Where a job is carried out. Operations on files may fail, with a text that says why. The clock
counts nanoseconds. -/
structure Host (m : Type → Type) where
  readFile (path : String) : m (Except String ByteArray)
  createFile (path : String) (bytes : ByteArray) : m (Except String Unit)
  readInput : m (List UInt8)
  clock : m Nat

def textOf (bytes : ByteArray) : Except String String :=
  match String.fromUTF8? bytes with
  | some text => .ok text
  | none => .error "stream did not contain valid UTF-8"

def scanFile (path : String) (content : Except String ByteArray) :
    Except Error (List Located) := do
  let source ← (content >>= textOf).mapError (.unreadable path)
  (scan source (some path)).mapError .malformed

def secondsText (nanoseconds : Nat) : String :=
  let micros := (nanoseconds + 500) / 1000
  let places := toString (micros % 1000000)
  toString (micros / 1000000) ++ "." ++ "".pushn '0' (6 - places.length) ++ places ++ "s"

structure Stats where
  lexing : Nat
  parsing : Nat
  running : Nat
  total : Nat
  tokens : Nat
  nodes : Nat

def Stats.lines (s : Stats) : List String :=
  ["Timing:",
    "  lexing:   " ++ secondsText s.lexing ++ " (" ++ toString s.tokens ++ " tokens)",
    "  parsing:  " ++ secondsText s.parsing ++ " (" ++ toString s.nodes ++ " nodes)",
    "  running:  " ++ secondsText s.running,
    "  total:    " ++ secondsText s.total]

structure Outcome where
  code : UInt32
  stdout : ByteArray
  stderr : List String

def Outcome.failure (stdout : ByteArray) (e : Error) : Outcome := ⟨1, stdout, [e.message]⟩

/-- A report is only given where nothing has failed. -/
def Outcome.of (report : List String) : Except Error Unit × ByteArray → Outcome
  | (.ok _, stdout) => ⟨0, stdout, report⟩
  | (.error e, stdout) => .failure stdout e

def Job.report (job : Job) (stats : Stats) : List String := if job.timing then stats.lines else []

def Job.carryOut {m : Type → Type} [Monad m] (host : Host m) (job : Job) (bound : Nat) (t : Tree) :
    m (Option (Except Error Unit × ByteArray)) := do
  if job.dot then
    match job.output with
    | none => return some (.ok (), t.drawing)
    | some path => return some ((← host.createFile path t.drawing).mapError .io, .empty)
  else
    let input ← if t.takesInput then host.readInput else pure []
    return (t.run bound { reader := { unread := input } }).map fun (result, m) =>
      (result, m.sink.written)

def Job.perform {m : Type → Type} [Monad m] (host : Host m) (job : Job) (bound : Nat) :
    m (Option Outcome) := do
  let start ← host.clock
  let content ← host.readFile job.path
  let scanning ← host.clock
  match scanFile job.path content with
  | .error e => return some (.failure .empty e)
  | .ok tokens =>
    let parsing ← host.clock
    match Tree.ofTokens tokens with
    | .error e => return some (.failure .empty e)
    | .ok t =>
      let running ← host.clock
      let answer ← job.carryOut host bound t
      let stop ← host.clock
      let stats : Stats := {
        lexing := parsing - scanning
        parsing := running - parsing
        running := stop - running
        total := stop - start
        tokens := tokens.length
        nodes := t.reachable.length }
      return answer.map (.of (job.report stats))

end CommandLine

end TeachLang
