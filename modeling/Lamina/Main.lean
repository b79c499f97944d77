import Lamina.Command.Elapsed
import Lamina.Command.Line

/-! The program. It takes in the files below the working directory, runs the command line on them
and writes back what changed. -/

namespace Lamina

/-- Adds what is below a directory to a disk. What cannot be read is left out. -/
partial def takeIn (d : Disk) (p : Path) : IO Disk := do
  let here ← IO.FS.realPath (d.text p)
  let mut d := d
  for entry in ← here.readDir do
    let q := p ++ [entry.fileName]
    try
      let real ← IO.FS.realPath (d.text q)
      if real.toString != d.text q then
        d := d.put q (.link real.toString)
      else
        let about ← real.metadata
        match about.type with
        | .dir => d ← takeIn (d.put q .dir) q
        | .file =>
          let bytes ← IO.FS.readBinFile real
          let time := about.modified
          d := d.put q (.file (.ofBytes bytes.toList) ⟨time.sec, time.nsec.toNat⟩)
        | _ => pure ()
    catch _ => pure ()
  return d

/-- Makes the files below the working directory those of a disk that started as another. -/
def writeBack (before after : Disk) : IO Unit := do
  for (p, item) in before.items.entries do
    match item with
    | .file .. | .link _ =>
      if (after.item? p).isNone then IO.FS.removeFile (before.text p)
    | .dir => pure ()
  for (p, item) in after.items.entries do
    if before.item? p != some item then
      match item with
      | .dir => IO.FS.createDirAll (after.text p)
      | .file (.text text) _ => IO.FS.writeFile (after.text p) text
      | _ => pure ()

end Lamina

open Lamina in
def main (args : List String) : IO UInt32 := do
  let started ← IO.monoNanosNow
  let root ← IO.FS.realPath "."
  let before ← takeIn { Disk.empty root.toString with workdir := some [] } []
  let (outcome, after) := CommandLine.run args before
  writeBack before after
  IO.print outcome.out
  if let some line := outcome.summary then
    let nanos := (← IO.monoNanosNow) - started
    IO.println (line ++ " in " ++ elapsedText nanos)
  IO.eprint outcome.err
  return outcome.exit.toUInt32
