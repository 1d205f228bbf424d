import Mathlib.Logic.Function.Basic
import MiniRiscvOs.Lib.System

/-!
# `MiniRiscvOs.Lib.BlockStore`: an atomic block store

What a block device with its driver is for. Clients ask for a block to be
read or written, and each request is carried out in one step, at some time
between the question and the answer. Buffers belong to the clients: they may
load and store single places of them.

Clients, buffers, sector numbers, places in a block and the values there
are arbitrary types.

* `blockStore` is the system. Its label `move` is the step that a client
  does not see.
* `plainStep` is the same without waiting: a call transfers its block at once,
  and only the contents matter. A client that makes one call at a time cannot
  tell the two apart (`BlockStore.Ahead.step`).
* `BlockStore.transferPart` is how far a transfer is that goes place by
  place. `transferPart_place` moves one more place, in any order, and with
  `transferPart_all` the result is the transfer in one step.
-/

set_option autoImplicit false

namespace MiniRiscvOs.Lib

/-- A request: the buffer, the direction and the sector. -/
structure BlockReq (β κ : Type) where
  buf : β
  write : Bool
  sector : κ
deriving DecidableEq

/-- A client of the store. -/
inductive BlockClient (β κ : Type) where
  | idle
  /-- It waits for its request. -/
  | asked (r : BlockReq β κ)
  /-- Its request has been carried out. -/
  | answered

/-- The contents of the sectors and of the buffers, and the clients. -/
structure BlockStore (ι β κ J V : Type) where
  sectors : κ → J → V
  bufs : β → J → V
  client : ι → BlockClient β κ

/-- The labels of the store. -/
inductive BlockEvent (ι β κ J V : Type) where
  | call (t : ι) (r : BlockReq β κ)
  /-- The request of client `t` is carried out. -/
  | move (t : ι)
  | ret (t : ι)
  /-- Place `j` of buffer `b` is read, with value `v`. -/
  | load (b : β) (j : J) (v : V)
  | store (b : β) (j : J) (v : V)

section

variable {ι β κ J V : Type} [DecidableEq ι] [DecidableEq β] [DecidableEq κ] [DecidableEq J]

/-- What a client sees of a label. -/
def BlockEvent.visible : BlockEvent ι β κ J V → Option (BlockEvent ι β κ J V)
  | .move _ => none
  | e => some e

namespace BlockStore

/-- Carry out a request: the block as a whole, from the buffer to the sector
or from the sector to the buffer. -/
def transfer (a : BlockStore ι β κ J V) (r : BlockReq β κ) : BlockStore ι β κ J V :=
  if r.write then { a with sectors := Function.update a.sectors r.sector (a.bufs r.buf) }
  else { a with bufs := Function.update a.bufs r.buf (a.sectors r.sector) }

/-- Another state of client `t`. -/
def setClient (a : BlockStore ι β κ J V) (t : ι) (cl : BlockClient β κ) : BlockStore ι β κ J V :=
  { a with client := Function.update a.client t cl }

/-- Store to a place of a buffer. -/
def poke (a : BlockStore ι β κ J V) (b : β) (j : J) (v : V) : BlockStore ι β κ J V :=
  { a with bufs := Function.update a.bufs b (Function.update (a.bufs b) j v) }

/-- A block that is new at the places of `m` and old at the others. -/
def mergeBlock (m : J → Bool) (new old : J → V) (j : J) : V := if m j then new j else old j

/-- The part of a transfer at the places of `m`. -/
def transferPart (a : BlockStore ι β κ J V) (r : BlockReq β κ) (m : J → Bool) :
    BlockStore ι β κ J V :=
  let sector := a.sectors r.sector
  let buf := a.bufs r.buf
  if r.write then
    { a with sectors := Function.update a.sectors r.sector (mergeBlock m buf sector) }
  else { a with bufs := Function.update a.bufs r.buf (mergeBlock m sector buf) }

/-- The transfer of one place. -/
def transferPlace (a : BlockStore ι β κ J V) (r : BlockReq β κ) (j : J) : BlockStore ι β κ J V :=
  let sector := a.sectors r.sector
  let buf := a.bufs r.buf
  if r.write then
    { a with sectors := Function.update a.sectors r.sector (Function.update sector j (buf j)) }
  else { a with bufs := Function.update a.bufs r.buf (Function.update buf j (sector j)) }

omit [DecidableEq J] in
/-- Nothing transferred leaves the old block. -/
theorem mergeBlock_none (new old : J → V) : mergeBlock (fun _ => false) new old = old := rfl

omit [DecidableEq J] in
/-- A whole transfer leaves the new block. -/
theorem mergeBlock_all {m : J → Bool} (hm : ∀ j, m j = true) (new old : J → V) :
    mergeBlock m new old = new := by
  funext j
  rw [mergeBlock, if_pos (hm j)]

/-- One place more, whether it has been there before or not. -/
theorem mergeBlock_update (m : J → Bool) (new old : J → V) (j : J) :
    Function.update (mergeBlock m new old) j (new j) =
      mergeBlock (Function.update m j true) new old := by
  funext i
  unfold mergeBlock
  by_cases hij : i = j
  · rw [hij, Function.update_self, Function.update_self, if_pos rfl]
  · rw [Function.update_of_ne hij, Function.update_of_ne hij]

omit [DecidableEq ι] [DecidableEq J] in
/-- A transfer of nothing changes nothing. -/
theorem transferPart_none (a : BlockStore ι β κ J V) (r : BlockReq β κ) :
    a.transferPart r (fun _ => false) = a := by
  unfold transferPart
  split <;> simp [mergeBlock_none]

omit [DecidableEq ι] [DecidableEq J] in
/-- A transfer leaves every client where it was. -/
theorem transfer_client (a : BlockStore ι β κ J V) (r : BlockReq β κ) :
    (a.transfer r).client = a.client := by
  unfold transfer
  cases r.write <;> rfl

omit [DecidableEq ι] [DecidableEq J] in
/-- A transfer does not look at the clients. -/
theorem transferPart_client (a : BlockStore ι β κ J V) (cl : ι → BlockClient β κ)
    (r : BlockReq β κ) (m : J → Bool) :
    ({ a with client := cl } : BlockStore ι β κ J V).transferPart r m =
      { a.transferPart r m with client := cl } := by
  unfold transferPart
  cases r.write <;> rfl

omit [DecidableEq ι] [DecidableEq J] in
/-- All places together are the transfer. -/
theorem transferPart_all (a : BlockStore ι β κ J V) (r : BlockReq β κ) {m : J → Bool}
    (hm : ∀ j, m j = true) : a.transferPart r m = a.transfer r := by
  unfold transferPart transfer
  simp only [mergeBlock_all hm]

omit [DecidableEq ι] in
/-- A store to another buffer has no part in a transfer. -/
theorem transferPart_poke (a : BlockStore ι β κ J V) {r : BlockReq β κ} (m : J → Bool) {b : β}
    (hb : b ≠ r.buf) (j : J) (v : V) :
    (a.poke b j v).transferPart r m = (a.transferPart r m).poke b j v := by
  unfold transferPart poke
  cases r.write with
  | true => simp [Function.update_of_ne hb.symm]
  | false => simp [Function.update_of_ne hb, Function.update_of_ne hb.symm,
      Function.update_comm hb]

omit [DecidableEq ι] [DecidableEq J] in
/-- The part of a transfer changes no other buffer. -/
theorem transferPart_bufs_of_ne (a : BlockStore ι β κ J V) {r : BlockReq β κ} (m : J → Bool)
    {b : β} (hb : b ≠ r.buf) : (a.transferPart r m).bufs b = a.bufs b := by
  unfold transferPart
  cases r.write with
  | true => rfl
  | false => exact Function.update_of_ne hb ..

omit [DecidableEq ι] in
/-- One place more. The other side of the transfer keeps its contents. -/
theorem transferPart_place (a : BlockStore ι β κ J V) (r : BlockReq β κ) (m : J → Bool) (j : J) :
    (a.transferPart r m).transferPlace r j =
      a.transferPart r (Function.update m j true) := by
  unfold transferPart transferPlace
  cases r.write with
  | true => simp [mergeBlock_update]
  | false => simp [mergeBlock_update]

end BlockStore

/-- One step of the store. -/
def BlockStep (a : BlockStore ι β κ J V) (e : BlockEvent ι β κ J V) (a' : BlockStore ι β κ J V) :
    Prop :=
  match e with
  | .call t r => a.client t = .idle ∧ a' = a.setClient t (.asked r)
  | .move t => ∃ r, a.client t = .asked r ∧ a' = (a.transfer r).setClient t .answered
  | .ret t => a.client t = .answered ∧ a' = a.setClient t .idle
  | .load b j v => v = a.bufs b j ∧ a' = a
  | .store b j v => a' = a.poke b j v

/-- One step of the store, or none. -/
def BlockStep? (a : BlockStore ι β κ J V) (e : Option (BlockEvent ι β κ J V))
    (a' : BlockStore ι β κ J V) : Prop :=
  match e with
  | none => a' = a
  | some e => BlockStep a e a'

/-- The store with given contents, and no request. -/
def blockStore (ι : Type) {β κ J V : Type} [DecidableEq ι] [DecidableEq β] [DecidableEq κ]
    [DecidableEq J] (sectors : κ → J → V) (bufs : β → J → V) :
    System (BlockStore ι β κ J V) (BlockEvent ι β κ J V) where
  init a := a = ⟨sectors, bufs, fun _ => .idle⟩
  step := BlockStep

/-- A step, or no step, is a run with that event or none. -/
theorem BlockStep?.run {a a' : BlockStore ι β κ J V} {e : Option (BlockEvent ι β κ J V)}
    (h : BlockStep? a e a') (sectors : κ → J → V) (bufs : β → J → V) :
    (blockStore ι sectors bufs).Run a e.toList a' := by
  cases e with
  | none =>
      obtain rfl : a' = a := h
      exact System.Run.nil a'
  | some e => exact System.Run.single h

/-! ### One call at a time -/

/-- Plain copying: a call transfers its block at once. `none` is a load with
another value than the buffer has. -/
def plainStep [DecidableEq V] (m : BlockStore ι β κ J V) :
    BlockEvent ι β κ J V → Option (BlockStore ι β κ J V)
  | .call _ r => some (m.transfer r)
  | .move _ => none
  | .ret _ => some m
  | .load b j v => if v = m.bufs b j then some m else none
  | .store b j v => some (m.poke b j v)

/-- Plain copying from given contents on. -/
def plainStore [DecidableEq V] (sectors : κ → J → V) (bufs : β → J → V) :
    System (BlockStore ι β κ J V) (BlockEvent ι β κ J V) :=
  System.ofStep? ⟨sectors, bufs, fun _ => .idle⟩ plainStep

namespace BlockStore

/-- The same contents, whatever the clients do. -/
def SameBlocks (a m : BlockStore ι β κ J V) : Prop := m.sectors = a.sectors ∧ m.bufs = a.bufs

omit [DecidableEq ι] [DecidableEq J] in
/-- A transfer keeps two stores with the same blocks alike. -/
theorem SameBlocks.transfer {a m : BlockStore ι β κ J V} (h : SameBlocks a m)
    (r : BlockReq β κ) : SameBlocks (a.transfer r) (m.transfer r) := by
  obtain ⟨hsectors, hbufs⟩ := h
  unfold BlockStore.transfer SameBlocks
  cases r.write <;> simp [hsectors, hbufs]

omit [DecidableEq J] in
/-- A client's move and a transfer commute. -/
theorem setClient_transfer (a : BlockStore ι β κ J V) (t : ι) (cl : BlockClient β κ)
    (r : BlockReq β κ) : (a.setClient t cl).transfer r = (a.transfer r).setClient t cl := by
  unfold BlockStore.transfer setClient
  cases r.write <;> rfl

/-- `m` is the store with the request under way carried out, if there is
one. There is one at most. -/
def Ahead (a m : BlockStore ι β κ J V) : Prop :=
  (SameBlocks a m ∧ ∀ t r, a.client t ≠ .asked r) ∨
  ∃ t r, a.client t = .asked r ∧ (∀ u q, u ≠ t → a.client u ≠ .asked q) ∧
    SameBlocks (a.transfer r) m

omit [DecidableEq ι] [DecidableEq J] in
/-- With all clients idle there is none. -/
theorem Ahead.same {a m : BlockStore ι β κ J V} (h : Ahead a m) (hidle : ∀ t, a.client t = .idle) :
    SameBlocks a m := by
  rcases h with ⟨hsame, -⟩ | ⟨t, r, hasked, -⟩
  · exact hsame
  · rw [hidle t] at hasked
    cases hasked

/-- Plain copying stays ahead of the store, where a call, a load or a store
comes while all clients are idle. -/
theorem Ahead.step [DecidableEq V] {a a' m : BlockStore ι β κ J V} {e : BlockEvent ι β κ J V}
    (h : Ahead a m) (hstep : BlockStep a e a')
    (hone : (∀ t, e ≠ .move t) → (∀ t, e ≠ .ret t) → ∀ t, a.client t = .idle) :
    ∃ m', e.visible.toList.foldlM plainStep m = some m' ∧ Ahead a' m' := by
  -- One case for each label.
  cases e with
  | call t r =>
      obtain ⟨-, rfl⟩ := hstep
      have hidle := hone (by simp) (by simp)
      refine ⟨m.transfer r, rfl, Or.inr ⟨t, r, Function.update_self .., fun u q hut => ?_, ?_⟩⟩
      · show Function.update a.client t _ u ≠ _
        rw [Function.update_of_ne hut, hidle u]
        simp
      · rw [setClient_transfer]
        exact (h.same hidle).transfer r
  | move t =>
      obtain ⟨r, hasked, rfl⟩ := hstep
      refine ⟨m, rfl, Or.inl ?_⟩
      rcases h with ⟨-, hnone⟩ | ⟨u, q, hu, hsole, hsame⟩
      · exact absurd hasked (hnone t r)
      · obtain rfl : t = u := by
          by_contra hne
          exact hsole t r hne hasked
        obtain rfl : q = r := BlockClient.asked.inj (hu.symm.trans hasked)
        refine ⟨hsame, fun v p => ?_⟩
        show Function.update (a.transfer q).client t _ v ≠ _
        rw [transfer_client]
        by_cases hvt : v = t
        · subst hvt
          simp
        · rw [Function.update_of_ne hvt]
          exact hsole v p hvt
  | ret t =>
      obtain ⟨hans, rfl⟩ := hstep
      -- Its request has been carried out, so one under way is another's.
      have hasked : ∀ u q, (a.setClient t .idle).client u = .asked q ↔ a.client u = .asked q := by
        intro u q
        show Function.update a.client t _ u = _ ↔ _
        by_cases hut : u = t
        · subst hut
          simp [hans]
        · rw [Function.update_of_ne hut]
      refine ⟨m, rfl, ?_⟩
      rcases h with ⟨hsame, hnone⟩ | ⟨u, r, hu, hsole, hsame⟩
      · exact Or.inl ⟨hsame, fun v q hv => hnone v q ((hasked v q).mp hv)⟩
      · refine Or.inr ⟨u, r, (hasked u r).mpr hu,
          fun v q hvu hv => hsole v q hvu ((hasked v q).mp hv), ?_⟩
        rw [setClient_transfer]
        exact hsame
  | load b j v =>
      obtain ⟨rfl, rfl⟩ := hstep
      have hidle := hone (by simp) (by simp)
      have hvalue : a'.bufs b j = m.bufs b j := by rw [(h.same hidle).2]
      refine ⟨m, ?_, h⟩
      show (if a'.bufs b j = m.bufs b j then some m else none) >>= _ = _
      rw [if_pos hvalue]
      rfl
  | store b j v =>
      obtain rfl := hstep
      have hidle := hone (by simp) (by simp)
      obtain ⟨hsectors, hbufs⟩ := h.same hidle
      refine ⟨m.poke b j v, rfl, Or.inl ⟨⟨hsectors, ?_⟩, fun t r => ?_⟩⟩
      · simp [poke, hbufs]
      · rw [show (a.poke b j v).client t = a.client t from rfl, hidle t]
        simp

end BlockStore

end

end MiniRiscvOs.Lib
