import MiniRiscvOs.Kernel.Printf

/-!
# `MiniRiscvOs.Kernel.LineInput`: the program of `A1-Input`

`os_main` asks for a line, reads it with `lib_gets` into its array `str`,
and prints it again. The functions of this `os.c` differ from those of
`lib.c`: `lib_getc` waits for a byte and returns it as it is, `lib_gets`
echoes each byte and ends at a line feed or a carriage return.

The bytes that are typed are a list, and each read of the UART takes the
next one. A read behind the last one waits forever (`none`). Nothing else
uses the memory of the program: the pointers are in registers, and the
texts are constants.
-/

set_option autoImplicit false

namespace MiniRiscvOs.Kernel.LineInput

open MiniRiscvOs.Lib

/-- The memory, the bytes sent to the UART, and the addresses that
`lib_gets` has stored to, in order. -/
structure Terminal where
  mem : Mem
  sent : List Byte
  stored : List Addr

/-- `lib_putc(ch)`. -/
def libPutc (ch : Byte) (s : Terminal) : Terminal := { s with sent := s.sent ++ [ch] }

/-- `lib_puts` of a constant. -/
def putsText (text : String) (s : Terminal) : Terminal :=
  { s with sent := s.sent ++ text.toList.map asc }

/-- `lib_puts(p)`. -/
def libPuts (p : Addr) (s : Terminal) : Option Terminal :=
  (cString s.mem p).map fun bs => { s with sent := s.sent ++ bs }

/-- `*p = ch`. -/
def Terminal.store (p : Addr) (ch : Byte) (s : Terminal) : Terminal :=
  { s with mem := store8 s.mem p ch, stored := s.stored ++ [p] }

/-- The loop of `lib_gets` at `p`, with the bytes that are still to come:
the pointer at its end, and what is then still to come. -/
def libGetsLoop (p : Addr) : List Byte → Terminal → Option (Addr × List Byte × Terminal)
  | [], _ => none
  | ch :: input, s =>
      let s := libPutc ch s
      if ch = newline ∨ ch = carriageReturn then some (p, input, s)
      else libGetsLoop (p + 1#32) input (s.store p ch)

/-- `lib_gets(s)`: what it returns. -/
def libGets (p : Addr) (input : List Byte) (s : Terminal) :
    Option (Word × List Byte × Terminal) :=
  (libGetsLoop p input s).map fun (q, rest, s) => (q - p, rest, s.store q 0#8)

/-- `sizeof(str)`. -/
def strSize : Nat := 100

/-- `os_main` up to its endless loop, with `str` at an address: what
`lib_gets` returned, and the terminal. -/
def osMain (str : Addr) (input : List Byte) (s : Terminal) : Option (Word × Terminal) := do
  let s := putsText "type something:" s
  let (n, _, s) ← libGets str input s
  let s := putsText "\r\nyou type:" s
  let s ← libPuts str s
  return (n, putsText "\r\n" s)

end MiniRiscvOs.Kernel.LineInput
