import HuskyKernel.System.Bytes
import Mathlib.Logic.Function.Basic

/-!
# System/Memory — flat memory and the string functions that walk it

Every 32-bit address holds a byte, NULL included: the kernel runs on bare memory and a store
through NULL is a store.  A walk that meets no NUL goes round the address space for ever, so the
functions that look for one are bounded by its size and answer `none` there.
-/

namespace HuskyKernel

/-- What each address holds. -/
abbrev Mem := Word → Byte

namespace Mem

/-- The number of addresses: no walk that ends takes more steps. -/
def span : ℕ := 2 ^ 32

/-- `*a = b`. -/
def poke (m : Mem) (a : Word) (b : Byte) : Mem := Function.update m a b

/-- Store `bs` from address `a` on, one byte after another. -/
def store (m : Mem) (a : Word) : List Byte → Mem
  | [] => m
  | b :: bs => (m.poke a b).store (a + 1) bs

/-- The `n` bytes from address `a` on. -/
def load (m : Mem) (a : Word) : ℕ → List Byte
  | 0 => []
  | n + 1 => m a :: m.load (a + 1) n

/-- The bytes before the first NUL at `a`, if there is one within `n` steps. -/
def cstrN (m : Mem) (a : Word) : ℕ → Option (List Byte)
  | 0 => none
  | n + 1 => if m a = 0 then some [] else (m.cstrN (a + 1) n).map (m a :: ·)

/-- The C string at `a`. -/
def cstr? (m : Mem) (a : Word) : Option (List Byte) := m.cstrN a span

/-- `memcpy`: `rep movsb`, one byte at a time, upwards. -/
def memcpy (m : Mem) (dest src : Word) : ℕ → Mem
  | 0 => m
  | n + 1 => (m.poke dest (m src)).memcpy (dest + 1) (src + 1) n

/-- `while ((*dest++ = *src++));` in at most `n` rounds. -/
def strcpyN (m : Mem) (dest src : Word) : ℕ → Option Mem
  | 0 => none
  | n + 1 =>
      if m src = 0 then some (m.poke dest 0)
      else (m.poke dest (m src)).strcpyN (dest + 1) (src + 1) n

/-- `strcpy`. -/
def strcpy (m : Mem) (dest src : Word) : Option Mem := m.strcpyN dest src span

/-- `strcat`: find the end of the destination, then copy there. -/
def strcat (m : Mem) (dest src : Word) : Option Mem :=
  (m.cstr? dest).bind fun d => m.strcpy (dest + BitVec.ofNat 32 d.length) src

end Mem

end HuskyKernel
