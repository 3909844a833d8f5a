import Mathlib.Algebra.Group.Nat.Defs
import Mathlib.Data.List.Basic

/-!
# What a 7z header says

The state that the header's sections leave: how the data are packed, the folders with their coders
and sub-streams, and the files. A table that was not allocated is missing.
-/

namespace Libobject.SevenZip

structure Coder where
  method_id : List UInt8
  num_in_streams : UInt32
  num_out_streams : UInt32
  properties : Option (List UInt8)
  deriving DecidableEq

structure Folder where
  coders : List Coder
  bind_pairs : List (UInt32 × UInt32)
  packed_indices : List UInt32
  first_packed_stream : UInt32
  unpack_sizes : Option (List UInt64)
  total_out_streams : UInt32
  num_substreams : UInt32
  substream_sizes : Option (List UInt64)
  substream_crcs : Option (List UInt32)
  deriving DecidableEq

structure FileInfo where
  name : Option (List UInt8)
  size : UInt64
  crc : UInt32
  empty_stream : Bool
  empty_file : Bool
  folder_index : UInt32
  substream_index : UInt32
  deriving DecidableEq

/-- How many sub-streams a folder has; one unless it is said. -/
def Folder.count (f : Folder) : ℕ := if f.num_substreams = 0 then 1 else f.num_substreams.toNat

/-- The size of what the folder's first coder puts out. -/
def Folder.unpackSize (f : Folder) : Option UInt64 := f.unpack_sizes.bind (·[0]?)

/-- What is stored of the size of a sub-stream, for all but the last one. -/
def Folder.substreamSize (f : Folder) (i : ℕ) : Option UInt64 := f.substream_sizes.bind (·[i]?)

theorem Folder.count_lt (f : Folder) : f.count < 2 ^ 32 := by
  rw [Folder.count]
  split
  · decide
  · exact f.num_substreams.toNat_lt

end Libobject.SevenZip
