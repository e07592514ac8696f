/-
# The command line

The arguments are options and one program: its text, or with `--file` the path of its
text.  Arguments are taken in order, and the first that is wrong, or that asks for the
version, decides.

* `serve_of_parse_error` : arguments that are stopped at read no file.
-/
import MiniPascal.Source

set_option autoImplicit false

namespace MiniPascal

namespace CommandLine

/-! ## Arguments -/

/-- What the arguments taken so far say. -/
structure Settings where
  file : Bool
  verbosity : Nat
  optionsEnded : Bool
  contents : Option String
  deriving DecidableEq, Repr

/-- The settings before the first argument. -/
def Settings.initial : Settings := ⟨false, 0, false, none⟩

/-- Why no program is run. -/
inductive Stop where
  | wrongUsage
  | version
  deriving DecidableEq, Repr

/-- Take an option in its short form.  `f` may be given only once. -/
def shortOption (s : Settings) : Char → Except Stop Settings
  | 'f' => if s.file then .error .wrongUsage else .ok { s with file := true }
  | 'v' => .ok { s with verbosity := s.verbosity + 1 }
  | 'V' => .error .version
  | _ => .error .wrongUsage

/-- Take an option in its long form. -/
def longOption (s : Settings) : String → Except Stop Settings
  | "file" => shortOption s 'f'
  | "verbose" => shortOption s 'v'
  | "version" => shortOption s 'V'
  | _ => .error .wrongUsage

/-- Take the program; there is only one. -/
def takeContents (s : Settings) (text : String) : Except Stop Settings :=
  if s.contents.isSome then .error .wrongUsage else .ok { s with contents := some text }

/-- Take one argument.  A single dash is a program, two dashes end the options, and
short options may share a dash. -/
def takeArgument (s : Settings) (argument : String) : Except Stop Settings :=
  if s.optionsEnded then takeContents s argument
  else match argument.toList with
    | ['-', '-'] => .ok { s with optionsEnded := true }
    | '-' :: '-' :: name => longOption s (String.ofList name)
    | '-' :: first :: more => (first :: more).foldlM shortOption s
    | _ => takeContents s argument

/-- A program to run: where its text is, and how much of the log to show. -/
structure Request where
  fromFile : Bool
  contents : String
  verbosity : Nat
  deriving DecidableEq, Repr

/-- The request that the arguments make. -/
def parse (arguments : List String) : Except Stop Request := do
  let s ← arguments.foldlM takeArgument .initial
  match s.contents with
  | some contents => .ok ⟨s.file, contents, s.verbosity⟩
  | none => .error .wrongUsage

/-! ## Answers -/

/-- What the program leaves behind: an exit code and the texts of both streams. -/
structure Answer where
  code : UInt32
  output : String
  errors : String

/-- The answer to arguments that no program is run for. -/
def Stop.answer : Stop → Answer
  | .wrongUsage => ⟨2, "", "Usage: [--file] [--verbose]... [--version] <CONTENTS>\n"⟩
  | .version => ⟨0, "pascalina 0.1.0\n", ""⟩

/-- The part of the log that is shown at a verbosity. -/
def logLevel : Nat → LogLevel
  | 0 => .warn
  | 1 => .info
  | 2 => .debug
  | _ => .trace

/-- One line of the log. -/
def logLine (e : Event) : String := e.level.text ++ " " ++ e.text ++ "\n"

/-- The answer for a program text. -/
def answerSource (source : String) (verbosity : Nat) : Answer :=
  let (outcome, events) := runLogged source defaultCallDepth
  let log := String.join ((events.filter (Event.isShown (logLevel verbosity))).map logLine)
  match outcome with
  | .ok r => ⟨0, r.text ++ "\n", log⟩
  | .error e => ⟨1, "", log ++ e.message ++ "\n"⟩

/-- The answer for a file that is missing, or whose bytes are no UTF-8 text. -/
def answerUnreadable (path : String) : Answer :=
  ⟨1, "", "Failed to read the input file '" ++ path ++
    "'. Perhaps this file does not exist?\n"⟩

/-- The answer to the arguments, where `readFile` gives the bytes of a file. -/
def serve {m : Type → Type} [Monad m] (readFile : String → m (Option ByteArray))
    (arguments : List String) : m Answer := do
  match parse arguments with
  | .error stop => return stop.answer
  | .ok request =>
    if request.fromFile then
      match (← readFile request.contents).bind String.fromUTF8? with
      | some source => return answerSource source request.verbosity
      | none => return answerUnreadable request.contents
    else return answerSource request.contents request.verbosity

/-- **Arguments that are stopped at** read no file. -/
theorem serve_of_parse_error {m : Type → Type} [Monad m]
    (readFile : String → m (Option ByteArray)) {arguments : List String} {stop : Stop}
    (h : parse arguments = .error stop) : serve readFile arguments = pure stop.answer := by
  unfold serve
  rw [h]

end CommandLine

end MiniPascal
