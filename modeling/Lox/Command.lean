import Lox.Files
import Lox.Session

/-!
# The command

What the command does with its arguments: it runs a script, or reads lines and runs each as it
comes, in one session.  Reading files and writing to the terminal is left to the caller, who gets
what is to be written as a `Transcript`.
-/

namespace Lox.Command

/-! ## Arguments -/

/-- What the arguments ask for. -/
inductive Request
  | help
  | version
  | usageError
  /-- To run a script, or without one the lines of the input. -/
  | start (script : Option String) (warnings : Bool)
deriving DecidableEq, Repr

/-- An argument that begins with one dash, by the letter behind it. -/
def Request.ofShort (letters : List Char) : Request :=
  match letters with
  | 'V' :: _ => .version
  | 'h' :: _ => .help
  | _ => .usageError

/-- Reads arguments from left to right; the first that settles the request does so.  `quiet` counts
how often warnings have been turned off, once at most, and after `--` there are no options. -/
def Request.read (optionsOver : Bool) (script : Option String) (quiet : Nat) :
    List String → Request
  | [] => if quiet ≤ 1 then .start script (quiet == 0) else .usageError
  | arg :: args =>
    let positional : Request :=
      match script with
      | none => Request.read optionsOver (some arg) quiet args
      | some _ => .usageError
    if optionsOver then positional
    else
      match arg.toList with
      | ['-', '-'] => Request.read true script quiet args
      | '-' :: '-' :: name =>
        if String.ofList name = "no-warnings" then
          Request.read optionsOver script (quiet + 1) args
        else if String.ofList name = "version" then .version
        else if String.ofList name = "help" then .help
        else .usageError
      | '-' :: c :: letters => Request.ofShort (c :: letters)
      | _ => positional

def Request.ofArgs (args : List String) : Request := Request.read false none 0 args

/-! ## Transcripts -/

/-- What a run writes, and the status that it ends with. -/
structure Transcript where
  stdout : String
  stderr : String
  exitCode : Nat
deriving Repr

/-- Lines of text, each with its end. -/
def unlines (lines : List String) : String := String.join (lines.map (· ++ "\n"))

/-- The status when the fuel runs out. -/
def exhaustedCode : Nat := 71

/-- Prepares and runs a source text.  Warnings are written before it runs. -/
def runSource (fuel : Nat) (warnings : Bool) (s : Session) (source : String) :
    Transcript × Session :=
  match s.prepare source with
  | (.error f, s) => (⟨"", unlines (f.render source), f.exitCode⟩, s)
  | (.ok p, s) =>
    let noted := if warnings then unlines (p.warnings.map Warning.text) else ""
    let before := s.machine.output.written.size
    let (outcome, s) := s.execute fuel p
    let printed := s.machine.output.textFrom before
    match outcome with
    | .done _ => (⟨printed, noted, 0⟩, s)
    | .failed f => (⟨printed, noted ++ unlines (f.render source), f.exitCode⟩, s)
    | .outOfFuel => (⟨printed, noted ++ "Stopped after too many steps.\n", exhaustedCode⟩, s)

/-! ## Scripts -/

/-- The status when the script cannot be read. -/
def unreadableCode : Nat := 74

/-- Runs a script, given what is read at its path. -/
def runScript (fuel : Nat) (warnings : Bool) (time : Nat → Float) (path : String)
    (content : Except ReadError ByteArray) : Transcript :=
  match content >>= textOf with
  | .ok source => (runSource fuel warnings (.start none time) source).1
  | .error e => ⟨"", "Failed to read '" ++ path ++ "': " ++ e.message ++ "\n", unreadableCode⟩

/-! ## Lines of input -/

/-- Written before each line is read. -/
def prompt : String := "> "

/-- Bytes up to and with the first line feed, and the rest. -/
def splitLine : List UInt8 → List UInt8 × List UInt8
  | [] => ([], [])
  | b :: bs =>
    if b = 10 then ([b], bs)
    else
      let (line, rest) := splitLine bs
      (b :: line, rest)

theorem length_splitLine_lt (b : UInt8) (bs : List UInt8) :
    (splitLine (b :: bs)).2.length < (b :: bs).length := by
  induction bs generalizing b with
  | nil => unfold splitLine; split <;> simp [splitLine]
  | cons c cs ih =>
    unfold splitLine
    split
    · simp
    · exact Nat.lt_succ_of_lt (ih c)

/-- Lines, each with its line feed; the last may have none. -/
def lines : List UInt8 → List (List UInt8)
  | [] => []
  | b :: bs => (splitLine (b :: bs)).1 :: lines (splitLine (b :: bs)).2
termination_by bs => bs.length
decreasing_by exact length_splitLine_lt b bs

/-- Runs a line.  What goes wrong in it does not end the session, but a line that is no text
does. -/
def runLine (fuel : Nat) (warnings : Bool) (s : Session) (line : List UInt8) :
    Transcript × Option Session :=
  match textOf ⟨line.toArray⟩ with
  | .error e => (⟨"", "Failed to read line: " ++ e.message ++ "\n", 0⟩, none)
  | .ok source =>
    let (t, s) := runSource fuel warnings s source
    (t, some s)

/-- Runs lines one after another. -/
def runLines (fuel : Nat) (warnings : Bool) (s : Session) : List (List UInt8) → Transcript
  | [] => ⟨prompt, "", 0⟩
  | line :: rest =>
    match runLine fuel warnings s line with
    | (t, none) => ⟨prompt ++ t.stdout, t.stderr, 0⟩
    | (t, some s) =>
      let later := runLines fuel warnings s rest
      ⟨prompt ++ t.stdout ++ later.stdout, t.stderr ++ later.stderr, 0⟩

/-! ## The whole command -/

def usageErrorCode : Nat := 64

def versionText : String := "rlox 0.1.0\n"

def helpText : String := unlines [
  "rlox 0.1.0",
  "Tree-walking interpreter for Lox with traits, arrays and static members",
  "",
  "USAGE:",
  "    rlox [OPTIONS] [SCRIPT]",
  "",
  "ARGS:",
  "    <SCRIPT>    Script to run. Starts a REPL when omitted",
  "",
  "OPTIONS:",
  "    -h, --help           Print help information",
  "        --no-warnings    Don't report unused local variables",
  "    -V, --version        Print version information"]

def usageText : String := unlines ["USAGE:", "    rlox [OPTIONS] [SCRIPT]"]

/-- What the command writes, given what is read at paths and all of its input. -/
def run (fuel : Nat) (time : Nat → Float) (args : List String)
    (files : String → Except ReadError ByteArray) (input : List UInt8) : Transcript :=
  match Request.ofArgs args with
  | .help => ⟨helpText, "", 0⟩
  | .version => ⟨versionText, "", 0⟩
  | .usageError => ⟨"", usageText, usageErrorCode⟩
  | .start (some path) warnings => runScript fuel warnings time path (files path)
  | .start none warnings => runLines fuel warnings (.start none time) (lines input)

end Lox.Command
