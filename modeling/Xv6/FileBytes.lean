import Xv6.Quiescence

/-! Regular files as byte arrays. filewrite cuts its data into chunks, one transaction for
each; together they overlay the data at the file's offset and change nothing else. -/
namespace Xv6.FileBytes
open TraceMonad RedoLog Layout Codec Bio LogSpec Fs Disk DevSpec InodeSpec ContentSpec Directory
open DirSpec Moves OpSpec Syscall FileSpec Mkfs MkfsSpec ImageSpec ImageFiles RunSpec Sessions Quiescence

section Bytes
variable {node : Node} {off : Nat}

end Bytes

section Writes
variable {t : Setting} {a a₁ a₂ : Snap} {k k₁ k₂ : Kernel} {f : Nat} {first rest : List UInt8}

end Writes

section Sessions
variable {sb : Superblock} {disk : Nat → Block} {nodes : Nat → Node} {calls : List (Nat × Call)}
  {k : Kernel} {f : Nat} {data : List UInt8}

end Sessions

/-! The files that mkfs was given. -/

section Images
variable {params : Params} {files before after all front rest : List (List UInt8 × List UInt8)}
  {image : Image} {nodes : Nat → Node} {n : Nat} {arg name data : List UInt8}

end Images

end Xv6.FileBytes
