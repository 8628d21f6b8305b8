import NesCore.CommandLine.Session

/-!
# The program

Reads the command line and the dump, runs the session and writes its lines: the trace to standard
output, the log to standard error.
-/

namespace NesCore.Main

open CommandLine

/-- What the system says about a failed read. -/
def systemReason : IO.Error → String
  | .noFileOrDirectory _ code details | .interrupted _ code details => osText code details
  | .alreadyExists _ code details | .invalidArgument _ code details
  | .permissionDenied _ code details | .resourceExhausted _ code details
  | .inappropriateType _ code details | .noSuchThing _ code details => osText code details
  | .otherError code details | .resourceBusy code details | .resourceVanished code details
  | .unsupportedOperation code details | .hardwareFault code details
  | .unsatisfiedConstraints code details | .illegalOperation code details
  | .protocolError code details | .timeExpired code details => osText code details
  | .unexpectedEof => "unexpected end of file"
  | .userError text => text
where
  osText (code : UInt32) (details : String) : String := s!"{details} (os error {code})"

/-- The bytes of a file. -/
def readDump (path : String) : IO (Except String (List UInt8)) := do
  try
    let data ← IO.FS.readBinFile path
    return .ok data.toList
  catch e => return .error (systemReason e)

/-- Writes the lines of a stretch and goes on with its session. -/
partial def follow (stretch : Stretch) : IO UInt8 := do
  for line in stretch.log do IO.eprintln line
  for line in stretch.output do IO.println line
  match stretch.next with
  | .ok session => follow (session.proceed 1024)
  | .error code => return code

end NesCore.Main

open NesCore NesCore.CommandLine

/-- Runs the dump that the command line names. -/
def main (arguments : List String) : IO UInt32 := do
  match Request.ofArguments arguments with
  | .run options =>
    let file ← Main.readDump options.romPath
    return (← Main.follow (Session.begin options file)).toUInt32
  | .help =>
    for line in usage do IO.println line
    return 0
  | .version =>
    IO.println versionLine
    return 0
  | .misuse =>
    for line in usage do IO.eprintln line
    return misuseCode.toUInt32
