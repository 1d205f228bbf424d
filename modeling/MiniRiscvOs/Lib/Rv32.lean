import Mathlib.Data.List.Basic
import MiniRiscvOs.Lib.Memory

/-!
# `MiniRiscvOs.Lib.Rv32`: a hart, and registers saved to a frame

The part of RV32 that trap entry code and context switches are made of:
word stores and loads at a base register, moves from and to the control
registers, traps and returns. Straight-line code is a list of instructions
(`Hart.run`), and the program counter moves only where control does.

A `Frame` says which register goes to which offset of a block of memory.
`Hart.run_save` and `Hart.run_load` are the effect of storing and loading a
frame as a whole, and `FrameFits` is what a frame needs for that: its slots
do not overlap, and they lie inside the block. With them
`load32_storeSlots` reads a saved register back, and
`storeSlots_of_not_inRange` says what a save leaves alone.
-/

set_option autoImplicit false

namespace MiniRiscvOs.Lib

/-- The general registers, but for the constant zero. -/
inductive Reg where
  | ra | sp | gp | tp
  | t0 | t1 | t2
  | s0 | s1
  | a0 | a1 | a2 | a3 | a4 | a5 | a6 | a7
  | s2 | s3 | s4 | s5 | s6 | s7 | s8 | s9 | s10 | s11
  | t3 | t4 | t5 | t6
deriving DecidableEq, Repr

/-- The registers a function may change: all but the stack pointer, the
saved registers, and the two the linker and the threads own. -/
def Reg.callerSaved : Reg → Bool
  | .ra | .t0 | .t1 | .t2 | .t3 | .t4 | .t5 | .t6 => true
  | .a0 | .a1 | .a2 | .a3 | .a4 | .a5 | .a6 | .a7 => true
  | _ => false

/-- The control registers of machine mode. -/
inductive Csr where
  | mstatus | mie | mtvec | mscratch | mepc | mcause
deriving DecidableEq, Repr

/-- A hart with its memory. -/
structure Hart where
  reg : Reg → Word
  csr : Csr → Word
  pc : Word
  mem : Mem

/-- An instruction of straight-line code. -/
inductive Instr where
  | sw (src : Reg) (off : Nat) (base : Reg)
  | lw (dst : Reg) (off : Nat) (base : Reg)
  | csrrw (dst : Reg) (c : Csr) (src : Reg)
  | csrw (c : Csr) (src : Reg)
  | csrr (dst : Reg) (c : Csr)
deriving DecidableEq, Repr

namespace Hart

/-- One register written. -/
def setReg (h : Hart) (r : Reg) (v : Word) : Hart :=
  { h with reg := Function.update h.reg r v }

/-- One control register written. -/
def setCsr (h : Hart) (c : Csr) (v : Word) : Hart :=
  { h with csr := Function.update h.csr c v }

/-- A register write leaves the memory. -/
@[simp] theorem setReg_mem (h : Hart) (r : Reg) (v : Word) : (h.setReg r v).mem = h.mem := rfl

/-- A register write leaves the control registers. -/
@[simp] theorem setReg_csr (h : Hart) (r : Reg) (v : Word) : (h.setReg r v).csr = h.csr := rfl

/-- A register write leaves the program counter. -/
@[simp] theorem setReg_pc (h : Hart) (r : Reg) (v : Word) : (h.setReg r v).pc = h.pc := rfl

/-- A control register write leaves the memory. -/
@[simp] theorem setCsr_mem (h : Hart) (c : Csr) (v : Word) : (h.setCsr c v).mem = h.mem := rfl

/-- A control register write leaves the registers. -/
@[simp] theorem setCsr_reg (h : Hart) (c : Csr) (v : Word) : (h.setCsr c v).reg = h.reg := rfl

/-- A control register write leaves the program counter. -/
@[simp] theorem setCsr_pc (h : Hart) (c : Csr) (v : Word) : (h.setCsr c v).pc = h.pc := rfl

/-- The written register is read back. -/
@[simp] theorem setReg_reg_self (h : Hart) (r : Reg) (v : Word) : (h.setReg r v).reg r = v :=
  Function.update_self ..

/-- Every other register is as before. -/
theorem setReg_reg_of_ne (h : Hart) {r q : Reg} (v : Word) (hne : q ≠ r) :
    (h.setReg r v).reg q = h.reg q :=
  Function.update_of_ne hne ..

/-- The written control register is read back. -/
@[simp] theorem setCsr_csr_self (h : Hart) (c : Csr) (v : Word) : (h.setCsr c v).csr c = v :=
  Function.update_self ..

/-- Every other control register is as before. -/
theorem setCsr_csr_of_ne (h : Hart) {c d : Csr} (v : Word) (hne : d ≠ c) :
    (h.setCsr c v).csr d = h.csr d :=
  Function.update_of_ne hne ..

/-- One instruction. `csrrw` reads the old value before it writes. -/
def exec (h : Hart) : Instr → Hart
  | .sw src off base =>
      { h with mem := store32 h.mem (h.reg base + BitVec.ofNat 32 off) (h.reg src) }
  | .lw dst off base => h.setReg dst (load32 h.mem (h.reg base + BitVec.ofNat 32 off))
  | .csrrw dst c src => (h.setCsr c (h.reg src)).setReg dst (h.csr c)
  | .csrw c src => h.setCsr c (h.reg src)
  | .csrr dst c => h.setReg dst (h.csr c)

/-- Straight-line code. -/
def run (is : List Instr) (h : Hart) : Hart := is.foldl exec h

/-- No instruction changes nothing. -/
@[simp] theorem run_nil (h : Hart) : h.run [] = h := rfl

/-- The first instruction runs before the others. -/
@[simp] theorem run_cons (i : Instr) (is : List Instr) (h : Hart) :
    h.run (i :: is) = (h.exec i).run is := rfl

/-- A concatenation runs its parts in order. -/
theorem run_append (is js : List Instr) (h : Hart) :
    h.run (is ++ js) = (h.run is).run js :=
  List.foldl_append

end Hart

/-- The register an instruction writes. -/
def Instr.regDst : Instr → Option Reg
  | .lw dst _ _ | .csrrw dst _ _ | .csrr dst _ => some dst
  | .sw _ _ _ | .csrw _ _ => none

/-- The control register an instruction writes. -/
def Instr.csrDst : Instr → Option Csr
  | .csrrw _ c _ | .csrw c _ => some c
  | .sw _ _ _ | .lw _ _ _ | .csrr _ _ => none

/-- The instruction stores nothing, or a word in the first `size` bytes from
`base` on. -/
def Instr.storesIn (base : Reg) (size : Nat) : Instr → Bool
  | .sw _ off b => b = base && off + 4 ≤ size
  | .lw _ _ _ | .csrrw _ _ _ | .csrw _ _ | .csrr _ _ => true

/-- The address of the word that the instruction stores. -/
def Instr.storeAddr (h : Hart) : Instr → Option Addr
  | .sw _ off base => some (h.reg base + BitVec.ofNat 32 off)
  | .lw _ _ _ | .csrrw _ _ _ | .csrw _ _ | .csrr _ _ => none

/-- A store within a block. -/
theorem Instr.inRange_storeAddr (h : Hart) {i : Instr} {base : Reg} {size : Nat}
    (hsize : size ≤ 2 ^ 32) (hi : i.storesIn base size = true) {a x : Addr}
    (ha : i.storeAddr h = some a) (hx : InRange a 4 x) : InRange (h.reg base) size x := by
  cases i with
  | lw _ _ _ | csrrw _ _ _ | csrw _ _ | csrr _ _ => simp [storeAddr] at ha
  | sw src off b =>
      simp only [Instr.storesIn, Bool.and_eq_true, decide_eq_true_eq] at hi
      obtain ⟨rfl, hoff⟩ := hi
      obtain rfl := Option.some.inj ha
      exact inRange_of_add hoff hsize hx

namespace Hart

/-- An instruction changes no register but its destination. -/
theorem exec_reg_of_ne (h : Hart) {i : Instr} {r : Reg} (hi : i.regDst ≠ some r) :
    (h.exec i).reg r = h.reg r := by
  cases i with
  | sw _ _ _ | csrw _ _ => rfl
  | lw dst _ _ | csrrw dst _ _ | csrr dst _ =>
      exact setReg_reg_of_ne _ _ fun heq => hi (congrArg some heq.symm)

/-- An instruction changes no control register but its destination. -/
theorem exec_csr_of_ne (h : Hart) {i : Instr} {c : Csr} (hi : i.csrDst ≠ some c) :
    (h.exec i).csr c = h.csr c := by
  cases i with
  | sw _ _ _ | lw _ _ _ | csrr _ _ => rfl
  | csrrw _ d _ | csrw d _ =>
      exact setCsr_csr_of_ne _ _ fun heq => hi (congrArg some heq.symm)

/-- Code that does not write a control register leaves it alone. -/
theorem run_csr_of_not_written {c : Csr} (is : List Instr) (h : Hart)
    (his : ∀ i ∈ is, i.csrDst ≠ some c) : (h.run is).csr c = h.csr c := by
  induction is generalizing h with
  | nil => rfl
  | cons i is ih =>
      rw [run_cons, ih _ fun j hj => his j (List.mem_cons_of_mem i hj)]
      exact h.exec_csr_of_ne (his i List.mem_cons_self)

/-- `ret`: a jump to `ra`, whose lowest bit does not count. -/
def ret (h : Hart) : Hart := { h with pc := h.reg .ra &&& ~~~1#32 }

end Hart

/-! ### Traps and calls -/

/-- `mstatus.MIE`. -/
def statusMie : Word := 1#32 <<< 3

/-- `mstatus.MPIE`. -/
def statusMpie : Word := 1#32 <<< 7

/-- `mstatus.MPP`. -/
def statusMpp : Word := 3#32 <<< 11

/-- `mstatus` after a trap from machine mode: `MPIE` keeps `MIE`, which is
cleared. -/
def trapStatus (s : Word) : Word :=
  (s &&& ~~~(statusMie ||| statusMpie)) ||| statusMpp |||
    (if s &&& statusMie = 0#32 then 0#32 else statusMpie)

/-- `mstatus` after `mret`: `MIE` is what `MPIE` kept. -/
def mretStatus (s : Word) : Word :=
  (s &&& ~~~(statusMie ||| statusMpp)) ||| statusMpie |||
    (if s &&& statusMpie = 0#32 then 0#32 else statusMie)

/-- A bit of a control register, tested with a mask. -/
theorem and_bit_eq_zero_iff (w : Word) {k : Nat} (hk : k < 32) :
    w &&& (1#32 <<< k) = 0#32 ↔ w.getLsbD k = false := by
  have hmask : (1#32 <<< k) = BitVec.twoPow 32 k := rfl
  rw [hmask, BitVec.and_twoPow]
  cases hw : w.getLsbD k with
  | false => simp
  | true =>
      have hne : BitVec.twoPow 32 k ≠ 0#32 := by
        intro h
        have := congrArg (fun v => BitVec.getLsbD v k) h
        simp [hk] at this
      simp [hne]

/-- A trap disables the interrupts. -/
theorem trapStatus_mie (s : Word) : trapStatus s &&& statusMie = 0#32 := by
  rw [statusMie, and_bit_eq_zero_iff _ (by decide)]
  unfold trapStatus statusMie statusMpie statusMpp
  split <;> simp

/-- The hart takes a trap. -/
def Hart.takeTrap (cause : Word) (h : Hart) : Hart :=
  { ((h.setCsr .mepc h.pc).setCsr .mcause cause).setCsr .mstatus (trapStatus (h.csr .mstatus)) with
    pc := h.csr .mtvec }

/-- `mret`. -/
def Hart.mret (h : Hart) : Hart :=
  { h.setCsr .mstatus (mretStatus (h.csr .mstatus)) with pc := h.csr .mepc }

/-- Taking a trap leaves the registers. -/
@[simp] theorem Hart.takeTrap_reg (cause : Word) (h : Hart) : (h.takeTrap cause).reg = h.reg := rfl

/-- Taking a trap leaves the memory. -/
@[simp] theorem Hart.takeTrap_mem (cause : Word) (h : Hart) : (h.takeTrap cause).mem = h.mem := rfl

/-- `mepc` holds the interrupted program counter. -/
@[simp] theorem Hart.takeTrap_mepc (cause : Word) (h : Hart) :
    (h.takeTrap cause).csr .mepc = h.pc := rfl

/-- `mcause` holds the cause. -/
@[simp] theorem Hart.takeTrap_mcause (cause : Word) (h : Hart) :
    (h.takeTrap cause).csr .mcause = cause := rfl

/-- `mstatus` is what taking a trap makes of it. -/
@[simp] theorem Hart.takeTrap_mstatus (cause : Word) (h : Hart) :
    (h.takeTrap cause).csr .mstatus = trapStatus (h.csr .mstatus) := rfl

/-- A trap changes three control registers. -/
theorem Hart.takeTrap_csr (cause : Word) (h : Hart) {c : Csr} (hepc : c ≠ .mepc)
    (hcause : c ≠ .mcause) (hstatus : c ≠ .mstatus) : (h.takeTrap cause).csr c = h.csr c := by
  cases c with
  | mepc => exact absurd rfl hepc
  | mcause => exact absurd rfl hcause
  | mstatus => exact absurd rfl hstatus
  | mie | mtvec | mscratch => rfl

/-- `mret` leaves the registers. -/
@[simp] theorem Hart.mret_reg (h : Hart) : h.mret.reg = h.reg := rfl

/-- `mret` leaves the memory. -/
@[simp] theorem Hart.mret_mem (h : Hart) : h.mret.mem = h.mem := rfl

/-- `mret` goes to `mepc`. -/
@[simp] theorem Hart.mret_pc (h : Hart) : h.mret.pc = h.csr .mepc := rfl

/-- `mstatus` is what `mret` makes of it. -/
@[simp] theorem Hart.mret_mstatus (h : Hart) :
    h.mret.csr .mstatus = mretStatus (h.csr .mstatus) := rfl

/-- `mret` leaves every control register but `mstatus`. -/
theorem Hart.mret_csr (h : Hart) {c : Csr} (hc : c ≠ .mstatus) : h.mret.csr c = h.csr c :=
  Function.update_of_ne hc ..

/-- What compiled code leaves behind in the registers it may change and in
the memory it has for itself. The source does not say. -/
structure Leftover where
  reg : Reg → Word
  mem : Addr → Byte

/-- The hart after a call of compiled code that has the memory `own` for
itself. -/
def Hart.clobber (own : Addr → Bool) (l : Leftover) (h : Hart) : Hart :=
  { h with
    reg := fun r => if r.callerSaved then l.reg r else h.reg r
    mem := fun x => if own x then l.mem x else h.mem x }

/-- The compiled code leaves alone the memory it does not have. -/
theorem Hart.clobber_mem_of_not_own {own : Addr → Bool} (l : Leftover) (h : Hart) {x : Addr}
    (hx : own x = false) : (h.clobber own l).mem x = h.mem x := by
  show (if own x = true then l.mem x else h.mem x) = h.mem x
  rw [hx]
  rfl

/-! ### Slots of a block of memory -/

/-- Store words at offsets from `b`, in order. -/
def storeSlots (m : Mem) (b : Addr) (slots : List (Nat × Word)) : Mem :=
  slots.foldl (fun m s => store32 m (b + BitVec.ofNat 32 s.1) s.2) m

/-- No slot stores nothing. -/
@[simp] theorem storeSlots_nil (m : Mem) (b : Addr) : storeSlots m b [] = m := rfl

/-- The first slot is stored before the others. -/
@[simp] theorem storeSlots_cons (m : Mem) (b : Addr) (s : Nat × Word)
    (slots : List (Nat × Word)) :
    storeSlots m b (s :: slots)
      = storeSlots (store32 m (b + BitVec.ofNat 32 s.1) s.2) b slots := rfl

/-- The slots at offsets `offs` lie one after the other in the first
`size` bytes of a block. -/
structure SlotsFit (offs : List Nat) (size : Nat) : Prop where
  apart : offs.Pairwise fun i j => i + 4 ≤ j
  inside : ∀ i ∈ offs, i + 4 ≤ size
  size_le : size ≤ 2 ^ 32

/-- The slots after the first one fit as well. -/
theorem SlotsFit.tail {i : Nat} {offs : List Nat} {size : Nat} (h : SlotsFit (i :: offs) size) :
    SlotsFit offs size where
  apart := (List.pairwise_cons.mp h.apart).2
  inside j hj := h.inside j (List.mem_cons_of_mem i hj)
  size_le := h.size_le

/-- A store to slots leaves the rest of the memory alone. -/
theorem storeSlots_of_not_inRange {b x : Addr} (slots : List (Nat × Word)) :
    ∀ m : Mem, (∀ s ∈ slots, ¬ InRange (b + BitVec.ofNat 32 s.1) 4 x) →
      storeSlots m b slots x = m x := by
  induction slots with
  | nil => exact fun _ _ => rfl
  | cons s slots ih =>
      intro m h
      rw [storeSlots_cons, ih _ fun t ht => h t (List.mem_cons_of_mem s ht)]
      exact store32_of_not_inRange m s.2 (h s List.mem_cons_self)

/-- In particular it leaves alone what is outside of the block. -/
theorem storeSlots_of_not_inBlock {b x : Addr} {slots : List (Nat × Word)} {size : Nat}
    (hfit : SlotsFit (slots.map Prod.fst) size) (m : Mem) (hx : ¬ InRange b size x) :
    storeSlots m b slots x = m x := by
  refine storeSlots_of_not_inRange slots m fun s hs hin => hx ?_
  have hmem : s.1 ∈ slots.map Prod.fst := List.mem_map_of_mem hs
  exact inRange_of_add (hfit.inside s.1 hmem) hfit.size_le hin

/-- A word at an offset that overlaps no slot keeps its value. -/
theorem load32_storeSlots_of_apart {b : Addr} {slots : List (Nat × Word)} {j : Nat}
    (hj : j + 4 ≤ 2 ^ 32) (hle : ∀ s ∈ slots, s.1 + 4 ≤ 2 ^ 32)
    (hapart : ∀ s ∈ slots, s.1 + 4 ≤ j ∨ j + 4 ≤ s.1) (m : Mem) :
    load32 (storeSlots m b slots) (b + BitVec.ofNat 32 j) = load32 m (b + BitVec.ofNat 32 j) := by
  refine load32_congr fun x hx => storeSlots_of_not_inRange slots m fun s hs => ?_
  exact not_inRange_of_offset hj (hle s hs) (hapart s hs).symm hx

/-- A stored word reads back. Induction on the slots; the later ones lie
behind it. -/
theorem load32_storeSlots {b : Addr} {size : Nat} (slots : List (Nat × Word)) :
    ∀ m : Mem, SlotsFit (slots.map Prod.fst) size → ∀ s ∈ slots,
      load32 (storeSlots m b slots) (b + BitVec.ofNat 32 s.1) = s.2 := by
  induction slots with
  | nil => simp
  | cons t slots ih =>
      intro m hfit s hs
      have hapart := (List.pairwise_cons.mp hfit.apart).1
      have hle : ∀ u ∈ t :: slots, u.1 + 4 ≤ 2 ^ 32 := fun u hu =>
        Nat.le_trans (hfit.inside u.1 (List.mem_map_of_mem hu)) hfit.size_le
      rcases List.mem_cons.mp hs with rfl | hs
      · rw [storeSlots_cons, load32_storeSlots_of_apart (hle s List.mem_cons_self)
          (fun u hu => hle u (List.mem_cons_of_mem s hu))
          (fun u hu => Or.inr (hapart u.1 (List.mem_map_of_mem hu)))]
        exact load32_store32_same _ _ _
      · exact ih _ hfit.tail s hs

/-! ### Frames of registers -/

/-- Which register goes to which offset. -/
abbrev Frame := List (Reg × Nat)

/-- `sw` for each slot of the frame. -/
def saveFrame (f : Frame) (base : Reg) : List Instr := f.map fun p => .sw p.1 p.2 base

/-- `lw` for each slot of the frame. -/
def loadFrame (f : Frame) (base : Reg) : List Instr := f.map fun p => .lw p.1 p.2 base

/-- The frame has each register once, in slots that fit in `size` bytes. -/
structure FrameFits (f : Frame) (size : Nat) : Prop where
  slots : SlotsFit (f.map Prod.snd) size
  nodup : (f.map Prod.fst).Nodup

/-- The words a save of the frame stores. -/
def Hart.frameSlots (h : Hart) (f : Frame) : List (Nat × Word) := f.map fun p => (p.2, h.reg p.1)

/-- The slots of a frame stand at the frame's offsets. -/
theorem Hart.frameSlots_fst (h : Hart) (f : Frame) :
    (h.frameSlots f).map Prod.fst = f.map Prod.snd := by
  rw [Hart.frameSlots, List.map_map]
  rfl

/-- Saving a frame is one store of its slots. -/
theorem Hart.run_save (f : Frame) (base : Reg) (h : Hart) :
    h.run (saveFrame f base)
      = { h with mem := storeSlots h.mem (h.reg base) (h.frameSlots f) } := by
  induction f generalizing h with
  | nil => rfl
  | cons p f ih =>
      show (h.exec (.sw p.1 p.2 base)).run (saveFrame f base) = _
      rw [ih]
      rfl

/-- Loading a frame: each of its registers gets its slot, the others keep
their values. The base register is not among those loaded. -/
theorem Hart.run_load (f : Frame) (base : Reg) (h : Hart) (hnodup : (f.map Prod.fst).Nodup)
    (hbase : base ∉ f.map Prod.fst) :
    (h.run (loadFrame f base)).mem = h.mem ∧
    (h.run (loadFrame f base)).csr = h.csr ∧
    (h.run (loadFrame f base)).pc = h.pc ∧
    (∀ p ∈ f, (h.run (loadFrame f base)).reg p.1
      = load32 h.mem (h.reg base + BitVec.ofNat 32 p.2)) ∧
    ∀ r, r ∉ f.map Prod.fst → (h.run (loadFrame f base)).reg r = h.reg r := by
  induction f generalizing h with
  | nil => exact ⟨rfl, rfl, rfl, by simp, fun _ _ => rfl⟩
  | cons p f ih =>
      rw [List.map_cons] at hnodup hbase
      obtain ⟨hp, hnodup⟩ := List.nodup_cons.mp hnodup
      have hne : base ≠ p.1 := fun h => hbase (by simp [h])
      have hbase' : base ∉ f.map Prod.fst := fun h => hbase (List.mem_cons_of_mem _ h)
      -- The first load leaves the base register, so the others find the same slots.
      have hbaseReg : (h.exec (.lw p.1 p.2 base)).reg base = h.reg base :=
        h.setReg_reg_of_ne _ hne
      obtain ⟨hmem, hcsr, hpc, hslots, hother⟩ := ih (h.exec (.lw p.1 p.2 base)) hnodup hbase'
      refine ⟨hmem, hcsr, hpc, ?_, ?_⟩
      · intro q hq
        rcases List.mem_cons.mp hq with rfl | hq
        · -- No later load writes the first register.
          show ((h.exec (.lw q.1 q.2 base)).run (loadFrame f base)).reg q.1 = _
          rw [hother q.1 hp]
          exact h.setReg_reg_self q.1 _
        · show ((h.exec (.lw p.1 p.2 base)).run (loadFrame f base)).reg q.1 = _
          rw [hslots q hq, hbaseReg]
          rfl
      · intro r hr
        rw [List.map_cons, List.mem_cons, not_or] at hr
        show ((h.exec (.lw p.1 p.2 base)).run (loadFrame f base)).reg r = _
        rw [hother r hr.2]
        exact h.setReg_reg_of_ne _ hr.1

/-- A saved register reads back from its slot. -/
theorem Hart.load32_save {f : Frame} {size : Nat} (hfit : FrameFits f size) (h : Hart) (m : Mem)
    (b : Addr) {p : Reg × Nat} (hp : p ∈ f) :
    load32 (storeSlots m b (h.frameSlots f)) (b + BitVec.ofNat 32 p.2) = h.reg p.1 := by
  have hslots : SlotsFit ((h.frameSlots f).map Prod.fst) size := by
    rw [h.frameSlots_fst]
    exact hfit.slots
  have hmem : (p.2, h.reg p.1) ∈ h.frameSlots f := List.mem_map_of_mem hp
  exact load32_storeSlots (h.frameSlots f) m hslots (p.2, h.reg p.1) hmem

/-! ### Context switches -/

/-- The values of the frame's registers. -/
def Hart.saved (h : Hart) (f : Frame) : List Word := f.map fun p => h.reg p.1

/-- The values in the frame's slots. -/
def frameAt (m : Mem) (b : Addr) (f : Frame) : List Word :=
  f.map fun p => load32 m (b + BitVec.ofNat 32 p.2)

/-- Two lists of values agree on each register. -/
theorem Hart.saved_eq_iff (h : Hart) (f : Frame) (v : Reg × Nat → Word) :
    h.saved f = f.map v ↔ ∀ p ∈ f, h.reg p.1 = v p := by
  rw [Hart.saved, List.map_inj_left]

/-- What a frame reads depends on its own bytes only. -/
theorem frameAt_congr {f : Frame} {size : Nat} (hfit : FrameFits f size) {m m' : Mem} {b : Addr}
    (h : ∀ x, InRange b size x → m x = m' x) : frameAt m b f = frameAt m' b f := by
  apply List.map_congr_left
  intro p hp
  apply load32_congr
  intro x hx
  have hin : p.2 + 4 ≤ size := hfit.slots.inside p.2 (List.mem_map_of_mem hp)
  exact h x (inRange_of_add hin hfit.slots.size_le hx)

/-- Save the frame in the block that `old` points to, load it from the one
that `new` points to, and return. -/
def Hart.switch (f : Frame) (old new : Reg) (h : Hart) : Hart :=
  (h.run (saveFrame f old ++ loadFrame f new)).ret

/-- What a switch from the block at `old` to the block at `new` makes of
`h`. -/
structure Switched (f : Frame) (size : Nat) (old new : Addr) (h g : Hart) : Prop where
  left : frameAt g.mem old f = h.saved f
  entered : g.saved f = frameAt h.mem new f
  pc : g.pc = g.reg .ra &&& ~~~1#32
  frame : ∀ x, ¬ InRange old size x → g.mem x = h.mem x
  other : ∀ r, r ∉ f.map Prod.fst → g.reg r = h.reg r
  csr : g.csr = h.csr

/-- A switch between two blocks that do not overlap. -/
theorem Hart.switched {f : Frame} {size : Nat} (hfit : FrameFits f size) {old new : Reg}
    (hnew : new ∉ f.map Prod.fst) (h : Hart)
    (hapart : Apart (h.reg old) size (h.reg new) size) :
    Switched f size (h.reg old) (h.reg new) h (h.switch f old new) := by
  have hslots : SlotsFit ((h.frameSlots f).map Prod.fst) size := by
    rw [h.frameSlots_fst]
    exact hfit.slots
  have hsave := h.run_save f old
  obtain ⟨hmem, hcsr, hpc, hload, hother⟩ :=
    (h.run (saveFrame f old)).run_load f new hfit.nodup hnew
  have hrun : h.switch f old new = ((h.run (saveFrame f old)).run (loadFrame f new)).ret := by
    rw [Hart.switch, Hart.run_append]
  -- The loads read the memory that the stores leave.
  rw [hsave] at hmem hcsr hpc hload hother hrun
  have hblock : ∀ x, ¬ InRange (h.reg old) size x →
      storeSlots h.mem (h.reg old) (h.frameSlots f) x = h.mem x :=
    fun x hx => storeSlots_of_not_inBlock hslots h.mem hx
  constructor
  · rw [hrun]
    show frameAt (Hart.run _ _).mem _ _ = _
    rw [hmem, frameAt, Hart.saved]
    apply List.map_congr_left
    intro p hp
    exact h.load32_save hfit h.mem (h.reg old) hp
  · rw [hrun]
    show (Hart.run _ _).saved f = _
    have hkept : frameAt (storeSlots h.mem (h.reg old) (h.frameSlots f)) (h.reg new) f
        = frameAt h.mem (h.reg new) f :=
      frameAt_congr hfit fun x hx => hblock x (hapart.symm.not_inRange hx)
    rw [← hkept]
    exact (Hart.saved_eq_iff _ f _).mpr hload
  · rw [hrun]
    rfl
  · intro x hx
    rw [hrun]
    show (Hart.run _ _).mem x = _
    rw [hmem]
    exact hblock x hx
  · intro r hr
    rw [hrun]
    exact hother r hr
  · rw [hrun]
    exact hcsr

end MiniRiscvOs.Lib
