import Mathlib
import NebularOs.BlobPaths
import NebularOs.EngineState

/-!
# The engine's layout of candidate files

The engine's functions are modelled over abstract candidate files. This file
gives the files that a store on a POSIX filesystem uses for the keys of one
bucket: the current flat name, then the other scheme and the nested layout.
-/

namespace NebularOs.Layout

open BlobFilenames BlobPaths EngineState

variable {B : Type} {hash : List UInt8→UInt64} {portable : Bool} {base bucket : Text}

/-- The engine over the files of a bucket. -/
def layoutEngine (hash : List UInt8→UInt64) (portable : Bool) (base bucket : Text)
    (settings : Engine Text PosixFile B) : Engine Text PosixFile B :=
  { settings with
    -- A flat name that is a single dot names no file.
    current := fun key => (fileNamed (blobPath hash portable base bucket key)).getD ⟨false,[]⟩
    fallbacks := fun key => (blobPathVariants hash portable base bucket key).tail.filterMap fileNamed }

/-- Settings without a byte cap, in full metadata mode. -/
def plainSettings (B : Type) : Engine Text PosixFile B where
  fallbacks := fun _ => []
  current := fun _ => ⟨false,[]⟩
  stripe := List.length
  blobOnly := false
  fsyncWrites := false
  maxLogicalBytes := 0
  manifestEntries := fun _ => some []

end NebularOs.Layout
