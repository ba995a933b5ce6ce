import Deadwood.Architecture

namespace Deadwood.Architecture

/-- The general purpose registers of the 32-bit x86 with their 16 and 8 bit parts, and the status
flags. -/
def x86 : Architecture where
  name := "x86"
  registers :=
    [⟨"eax", 32⟩, ⟨"ax", 16⟩, ⟨"al", 8⟩, ⟨"ah", 8⟩, ⟨"ebx", 32⟩, ⟨"bx", 16⟩, ⟨"bl", 8⟩, ⟨"bh", 8⟩,
     ⟨"ecx", 32⟩, ⟨"cx", 16⟩, ⟨"cl", 8⟩, ⟨"ch", 8⟩, ⟨"edx", 32⟩, ⟨"dx", 16⟩, ⟨"dl", 8⟩, ⟨"dh", 8⟩,
     ⟨"esi", 32⟩, ⟨"si", 16⟩, ⟨"edi", 32⟩, ⟨"di", 16⟩, ⟨"ebp", 32⟩, ⟨"bp", 16⟩, ⟨"esp", 32⟩,
     ⟨"sp", 16⟩, ⟨"CF", 1⟩, ⟨"PF", 1⟩, ⟨"AF", 1⟩, ⟨"ZF", 1⟩, ⟨"SF", 1⟩, ⟨"OF", 1⟩, ⟨"DF", 1⟩]
  coverage :=
    [("eax", "ax"), ("ax", "al"), ("ax", "ah"), ("ebx", "bx"), ("bx", "bl"), ("bx", "bh"),
     ("ecx", "cx"), ("cx", "cl"), ("cx", "ch"), ("edx", "dx"), ("dx", "dl"), ("dx", "dh"),
     ("esi", "si"), ("edi", "di"), ("ebp", "bp"), ("esp", "sp")]
  distinct := by decide +kernel
  acyclic := by decide +kernel
  declared := by decide +kernel

end Deadwood.Architecture
