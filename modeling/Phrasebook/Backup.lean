import Phrasebook.FileTree

/-! Copies of files that are about to be replaced. -/
namespace Phrasebook

namespace Backup

/-- The path of the copy that is made of a file at a time. -/
def path (p : Path) (time : Text) : Path :=
  let tail := time ++ Text.of ".bak"
  p.withExtension (match p.extension? with
    | some extension => extension ++ '.' :: tail
    | none => tail)

/-- Copies a file beside itself. -/
def create (p : Path) (time : Text) : FileTree.Action Path := do
  let bytes ← MonadExcept.ofExcept ((← get).read p)
  let target := path p time
  FileTree.write target bytes
  return target

end Backup

end Phrasebook
