import Mustache.Command.Run

/-! The command as a program. -/
namespace Mustache.Command

/-- A fault by its number, which some calls give as a negative one. -/
def systemFault (code : UInt32) (details : String) : FileFault :=
  .ofCode (if code < 0x80000000 then code else 0 - code).toNat details

def faultOf : IO.Error → FileFault
  | .noFileOrDirectory _ code details | .interrupted _ code details
  | .noSuchThing _ code details | .permissionDenied _ code details
  | .inappropriateType _ code details | .alreadyExists _ code details
  | .invalidArgument _ code details | .resourceExhausted _ code details
  | .otherError code details | .resourceBusy code details | .resourceVanished code details
  | .unsupportedOperation code details | .hardwareFault code details
  | .unsatisfiedConstraints code details | .illegalOperation code details
  | .protocolError code details | .timeExpired code details => systemFault code details
  | .unexpectedEof => .system 0 "unexpected end of file"
  | .userError message => .system 0 message

def attempt {α : Type} (action : IO α) : IO (Except FileFault α) :=
  try return .ok (← action) catch e => return .error (faultOf e)

/-- The files of the system. -/
def systemFiles : FileAccess IO where
  read path := attempt (IO.FS.readBinFile (String.ofList path))
  list path := attempt do
    let directory : IO.FS.DirEntry := ⟨⟨String.ofList path⟩, ""⟩
    return (← directory.root.readDir).toList.map (·.fileName.toList)
  write path content := attempt (IO.FS.writeBinFile (String.ofList path) content)
  print text := attempt do
    let output ← IO.getStdout
    output.putStr (String.ofList text)
    output.flush

end Mustache.Command

def main (arguments : List String) : IO UInt32 := do
  let outcome ← Mustache.Command.run Mustache.Command.systemFiles (arguments.map String.toList)
  IO.eprint outcome.stderr
  return outcome.code.toUInt32
