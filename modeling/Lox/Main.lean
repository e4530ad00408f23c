import Lox.Command
import Std.Time.DateTime.Timestamp

/-!
# The program

Runs the command on the files and streams of the process.
-/

namespace Lox.Main

/-- More steps than any run takes. -/
def fuel : Nat := 1000000000000000

/-- The time since the beginning of 1970 in seconds, and zero before that. -/
def now : IO Float := do
  let nanoseconds := (← Std.Time.Timestamp.now).toNanosecondsSinceUnixEpoch.val.toNat
  return nanoseconds.toFloat / 1000000000

/-- What a clock shows from now on.  A run gets its readings beforehand, so they go on by about a
microsecond each, and a program that waits for a later time comes to an end. -/
def readings : IO (Nat → Float) := do
  let time ← now
  return fun n => time + n.toFloat / 1048576

/-- What is read at a path. -/
def read (path : String) : IO (Except ReadError ByteArray) := do
  try
    return .ok (← IO.FS.readBinFile path)
  catch
    -- a directory can be opened, so its error names no file
    | .inappropriateType none .. => return .error .directory
    | .inappropriateType (some _) .. => return .error .notDirectory
    | .permissionDenied .. => return .error .denied
    | .invalidArgument .. => return .error .nameTooLong
    | _ => return .error .missing

/-- Writes what a run says, what it prints first. -/
def write (t : Command.Transcript) : IO Unit := do
  let stdout ← IO.getStdout
  stdout.putStr t.stdout
  stdout.flush
  (← IO.getStderr).putStr t.stderr

/-- The bytes of the next line, its line feed among them; none at the end of the input. -/
partial def readLine (stdin : IO.FS.Stream) (line : Array UInt8) : IO (List UInt8) := do
  match (← stdin.read 1).toList with
  | b :: _ => if b = 10 then return (line.push b).toList else readLine stdin (line.push b)
  | [] => return line.toList

/-- Runs each line of the input as it comes. -/
partial def interact (warnings : Bool) (s : Session) : IO Unit := do
  let stdout ← IO.getStdout
  stdout.putStr Command.prompt
  stdout.flush
  let line ← readLine (← IO.getStdin) Array.empty
  unless line.isEmpty do
    let s := { s with machine := { s.machine with time := ← readings } }
    let (t, s) := Command.runLine fuel warnings s line
    write t
    match s with
    | some s => interact warnings s
    | none => return

end Lox.Main

open Lox in
def main (args : List String) : IO UInt32 := do
  match Command.Request.ofArgs args with
  | .start (some path) warnings =>
    let t := Command.runScript Main.fuel warnings (← Main.readings) path (← Main.read path)
    Main.write t
    return t.exitCode.toUInt32
  | .start none warnings =>
    Main.interact warnings (.start none (← Main.readings))
    return 0
  | _ =>
    let t := Command.run Main.fuel (fun _ => 0) args (fun _ => .error .missing) []
    Main.write t
    return t.exitCode.toUInt32
