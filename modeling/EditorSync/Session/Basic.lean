import EditorSync.Session.Directory

namespace EditorSync.Session

open Text (Bytes)
open Time (Timestamp)

def newId (now : Timestamp) (pid serial : Nat) : String :=
  let hex (n : Nat) := String.ofList (Nat.toDigits 16 n)
  hex (now.millis % 0xFFFFFFFF).toNat ++ hex pid ++ hex serial

structure Active where
  info : Info
  log : Bytes
  deriving DecidableEq, Repr

namespace Active

def broadcast (s : Active) (now : Timestamp) (event : Event) : Active :=
  { s with log := s.log ++ Entry.toLine ⟨now, event⟩ }

def create (id : String) (pid : Nat) (workspace : String) (encoding : Option String)
    (now : Timestamp) : Active :=
  broadcast ⟨⟨id, pid, workspace, now, encoding, none⟩, []⟩ now .started

def recordProjects (s : Active) (projects : List String) : Active :=
  { s with info := { s.info with projects := some projects } }

def infoText (s : Active) : String := s.info.toJson.pretty

def save (s : Active) (d : Directory) (disk : Disk) : Disk :=
  let (disk, _) := disk.makeDirs (d.dirOf s.info.id)
  let files := [(Directory.infoFile (d.dirOf s.info.id), Text.encode s.infoText),
    (d.logFile s.info.id, s.log)]
  files.foldl (fun disk (path, content) => (disk.write path content).toOption.getD disk) disk

def remove (s : Active) (d : Directory) (disk : Disk) : Disk :=
  (disk.removeDirs (d.dirOf s.info.id)).toOption.getD disk

end Active
end EditorSync.Session
