/-
  The command line program.

  What the program leaves is a function of what it reads.  So that a story
  can be played at a terminal, it is carried out anew with one line of input
  more whenever it wanted more input than it was given; only what is new of
  its output is shown.
-/
import ZMachine.Console.Program

namespace ZMachine
namespace Terminal

/-- Bound on the number of instructions and batches. -/
def bound : Nat := 1000000000000000

/-- Read a file. -/
def readFile (path : String) : IO (Except FileError (Array Byte)) := do
  try
    return .ok (← IO.FS.readBinFile path).data
  catch
    | .noFileOrDirectory .. => return .error .missing
    | .inappropriateType _ 20 _ => return .error .notAFolder
    | .inappropriateType .. => return .error .isFolder
    | e => return .error (.unreadable (toString e))

/-- The folder of a path and all folders around it, the nearest first. -/
def folders (path : String) : List String :=
  let parts := path.splitOn "/"
  (List.range parts.length).map fun n =>
    String.join ((parts.take (parts.length - n)).map (· ++ "/"))

/-- Seeds without end, from a generator. -/
def seeds (g : StdGen) : Entropy
  | 0 => some (randNat g 0 0xffffffffffffffff).1.toUInt64
  | n + 1 => seeds (stdSplit g).2 n

/-- A generator that the system seeds. -/
def generator : IO StdGen := do
  let bytes ← IO.getRandomBytes 8
  return mkStdGen (bytes.data.foldl (fun n b => n * 256 + b.toNat) 0)

/-- Read a line of input; nothing at its end. -/
def readLine : IO (Option String) := do
  try
    let line ← (← IO.getStdin).getLine
    return if line.isEmpty then none else some line
  catch _ => return none

/-- Carry out a command line with the input read so far, of whose output `shown` characters are
shown already, and go on as long as more input is wanted and there is some. -/
partial def converse (s : Surroundings) (words : List String) (shown : Nat) : IO UInt32 := do
  match Program.invoke bound s words with
  | none => return 1
  | some r =>
      let out ← IO.getStdout
      out.putStr (String.ofList (r.output.toList.drop shown))
      out.flush
      let line ← (if r.starved then readLine else pure none)
      match line with
      | some line =>
          converse { s with input := s.input ++ line.toUTF8.data.toList } words r.output.length
      | none =>
          IO.eprint r.notes
          match r.message? with
          | some message => IO.eprintln ("Error: " ++ message)
          | none => if r.ending = .misused then IO.eprint Program.helpText
          return r.code.toUInt32

end Terminal
end ZMachine

open ZMachine in
/-- The command line program. -/
def main (words : List String) : IO UInt32 := do
  let start : Surroundings := {
    file := fun _ => .error .missing
    folders := Terminal.folders (← IO.currentDir).toString
    entropy := Terminal.seeds (← Terminal.generator) }
  let files ← (Program.filesRead start words).mapM fun path => do
    return (path, ← Terminal.readFile path)
  let file (path : String) := (files.lookup path).getD (.error .missing)
  Terminal.converse { start with file } words 0
