import MiniRiscvOs.Proofs.VirtioData

/-!
# `MiniRiscvOs.Proofs.VirtioSequential`: one call at a time

Where a call of `virtio_disk_rw` is made, and `b->data` touched, only while no
call is running, the driver with its device and its handler is plain copying
(`virtioDriver_sequential`): each load finds what it would find if the call
itself had copied the block.

This rests on one simulation, `virtioDriver_copies`. It puts the relation of
the driver to the atomic store (`DataRel`) before that of the store to plain
copying (`BlockStore.Ahead`), which is ahead while a request is under way.
-/

set_option autoImplicit false

namespace MiniRiscvOs.Proofs

open MiniRiscvOs.Lib
open MiniRiscvOs.Kernel

variable {ι β : Type} [DecidableEq ι] [DecidableEq β] {s : DataState ι β} {a : DiskStore ι β}

omit [DecidableEq ι] in
/-- With no call running the clients of the store are idle. -/
theorem DataRel.idle (h : DataRel s a) (hout : ∀ t, s.virtio.task t = .outside) (t : ι) :
    a.client t = .idle := by
  have hclient := h.clients t
  rw [hout t] at hclient
  exact hclient

omit [DecidableEq ι] in
/-- And the contents are those of the store. -/
theorem DataRel.agree_of_outside (h : DataRel s a) (hout : ∀ t, s.virtio.task t = .outside) :
    Agree s a := by
  have hnone : ∀ t, ¬ Driving (s.virtio.task t) := fun t => by
    rw [hout t]
    exact id
  have hquiet := (h.inv.rest hnone).1
  exact h.settled (by simp [hquiet.inFlight])

omit [DecidableEq ι] [DecidableEq β] in
/-- Code that touches `b->data` only while no call is running may do so. -/
theorem untouched_of_oneAtATime {e : DataEvent ι β} (h : OneAtATime s e) : Untouched s e := by
  cases e with
  | load b j | store b j v =>
      intro t c pc ht
      rw [h t] at ht
      cases ht
  | virtio e | moveByte k j => trivial

omit [DecidableEq ι] in
/-- A call, a load or a store comes while the clients are idle. -/
theorem DataRel.idle_of_seen (h : DataRel s a) {e : DataEvent ι β} (hone : OneAtATime s e)
    {f : BlockEvent ι β (BitVec 64) (Fin BSIZE) Byte}
    (hseen : (some f).toList.filterMap BlockEvent.visible = seenData s e)
    (hmove : ∀ t, f ≠ .move t) (hret : ∀ t, f ≠ .ret t) : ∀ t, a.client t = .idle := by
  -- The event shows exactly `f`.
  have hf : seenData s e = [f] := by
    rw [← hseen]
    cases f with
    | move t => exact absurd rfl (hmove t)
    | call t r | ret t | load b j v | store b j v => rfl
  cases e with
  | load b j | store b j v => exact h.idle hone
  | moveByte k j => cases hf
  | virtio e =>
      cases e with
      | call t b write => exact h.idle hone
      | task t =>
          -- A step of a task shows at most its return, which `f` is not.
          simp only [seenData] at hf
          split at hf
          · exact absurd (List.cons.inj hf).1.symm (hret t)
          · cases hf
      | setBlockno b n | isr | device m => cases hf

/-- The driver, its device and its handler copy, as seen by one caller at a
time. -/
def virtioDriver_copies (sectors : BitVec 64 → Fin BSIZE → Byte) (data : β → Fin BSIZE → Byte) :
    WeakSimulation (dataSystem ι β) seenData OneAtATime (plainStore (ι := ι) sectors data)
      some where
  rel s m := ∃ a, DataRel s a ∧ BlockStore.Ahead a m
  step s e s' m := by
    rintro ⟨a, hrel, hahead⟩ hone hstep
    obtain ⟨a', f, hf, hseen, hrel'⟩ := hrel.step (untouched_of_oneAtATime hone) hstep
    cases f with
    | none =>
        obtain rfl : a' = a := hf
        exact ⟨m, [], System.Run.nil m, hseen, a', hrel', hahead⟩
    | some f =>
        obtain ⟨m', hm, hahead'⟩ := hahead.step hf (hrel.idle_of_seen hone hseen)
        refine ⟨m', f.visible.toList, System.ofStep?_run hm, ?_, a', hrel', hahead'⟩
        rw [← hseen]
        cases f <;> rfl

/-- A run with one call at a time is a run of plain copying. -/
theorem exists_copies {s₀ s : DataState ι β} {es : List (DataEvent ι β)}
    {ws : List (BlockEvent ι β (BitVec 64) (Fin BSIZE) Byte)} (hinit : VirtioInit s₀.virtio)
    (hrun : (dataSystem ι β).SeenRun seenData s₀ es ws s)
    (hone : System.Run.Allowed (dataSystem ι β) OneAtATime s₀ es) :
    ∃ m, (plainStore s₀.sectors s₀.data).Run ⟨s₀.sectors, s₀.data, fun _ => .idle⟩ ws m ∧
      ∃ a, DataRel s a ∧ BlockStore.Ahead a m := by
  have hstart : ∃ a, DataRel s₀ a ∧
      BlockStore.Ahead a ⟨s₀.sectors, s₀.data, fun _ => .idle⟩ :=
    ⟨_, dataRel_init hinit, Or.inl ⟨⟨rfl, rfl⟩, by simp⟩⟩
  obtain ⟨m, fs, hplain, hfs, hrel⟩ :=
    (virtioDriver_copies s₀.sectors s₀.data).run hstart hrun hone
  rw [List.filterMap_some] at hfs
  exact ⟨m, hfs ▸ hplain, hrel⟩

/-- `virtio_disk_rw`, `virtio_disk_isr` and the device for callers that make
one call at a time, from any number of tasks. What they see is what they
would see if each call copied its block at once: each load finds the value of
plain copying. With no call running, disk and blocks have its contents. -/
theorem virtioDriver_sequential (s₀ s : DataState ι β) (es : List (DataEvent ι β))
    (ws : List (BlockEvent ι β (BitVec 64) (Fin BSIZE) Byte)) (hinit : VirtioInit s₀.virtio)
    (hrun : (dataSystem ι β).SeenRun seenData s₀ es ws s)
    (hone : System.Run.Allowed (dataSystem ι β) OneAtATime s₀ es) :
    ∃ m, ws.foldlM plainStep ⟨s₀.sectors, s₀.data, fun _ => .idle⟩ = some m ∧
      ((∀ t, s.virtio.task t = .outside) → s.sectors = m.sectors ∧ s.data = m.bufs) := by
  obtain ⟨m, hplain, a, hrel, hahead⟩ := exists_copies hinit hrun hone
  refine ⟨m, System.foldlM_of_ofStep?_run hplain, fun hout => ?_⟩
  obtain ⟨hsectors, hdata⟩ := hrel.agree_of_outside hout
  obtain ⟨hsectors', hbufs⟩ := hahead.same (hrel.idle hout)
  exact ⟨hsectors.trans hsectors'.symm, hdata.trans hbufs.symm⟩

/-- A byte is stored, and then the block written. -/
def writeEvents : List (DataEvent Bool Unit) :=
  [.store () firstByte 7#8, .virtio (.call false () true), .virtio (.task false)]

/-- The events are one call at a time. -/
theorem writeEvents_one :
    System.Run.Allowed (dataSystem Bool Unit) OneAtATime dataReset writeEvents := by
  intro pre e post t hes hrun
  match pre, hes with
  | [], hes =>
      obtain ⟨rfl, -⟩ := List.cons.inj hes
      rw [hrun.eq_of_nil]
      exact fun _ => rfl
  | [f], hes =>
      -- No call is running after the store.
      have hstore : f = .store () firstByte 7#8 := (List.cons.inj hes).1.symm
      have hcall : e = .virtio (.call false () true) :=
        (List.cons.inj (List.cons.inj hes).2).1.symm
      rw [hcall]
      rw [hstore] at hrun
      have hone : (dataSystem Bool Unit).Run dataReset ([] ++ .store () firstByte 7#8 :: []) t :=
        hrun
      obtain ⟨u, u', hnil, ⟨-, rfl⟩, hend⟩ := hone.split_step
      obtain rfl := hnil.eq_of_nil
      obtain rfl := hend.eq_of_nil
      exact fun _ => rfl
  | f :: g :: pre, hes =>
      have hrest : _ = pre ++ e :: post := (List.cons.inj (List.cons.inj hes).2).2
      have hmem : e ∈ pre ++ e :: post := by simp
      rw [← hrest] at hmem
      obtain rfl := List.mem_singleton.mp hmem
      trivial

/-- The main result there. -/
theorem writeEvents_sequential :
    ∃ m, [.store () firstByte 7#8, .call false ⟨(), true, 1#64⟩].foldlM plainStep
      (⟨dataReset.sectors, dataReset.data, fun _ => .idle⟩ : DiskStore Bool Unit) = some m := by
  have hinit : VirtioInit dataReset.virtio :=
    ⟨fun _ _ => rfl, fun _ => rfl, rfl, rfl, rfl, rfl, rfl, rfl, fun _ => rfl, rfl,
      fun _ => rfl, rfl, rfl⟩
  have hstart : (dataSystem Bool Unit).SeenRun seenData dataReset [] [] dataReset := .nil dataReset
  have hstore := hstart.snoc (e := DataEvent.store () firstByte 7#8) ⟨rfl, rfl⟩
  have hcall := hstore.snoc (e := DataEvent.virtio (.call false () true))
    ⟨by simp, _, ⟨rfl, rfl, rfl⟩, rfl⟩
  have hlock := hcall.snoc (e := DataEvent.virtio (.task false))
    ⟨by simp, _, ⟨rfl, ⟨(), true, 1#64, 0⟩, .acquire, rfl, rfl⟩, rfl⟩
  obtain ⟨m, hm, -⟩ := virtioDriver_sequential dataReset _ writeEvents _ hinit hlock writeEvents_one
  exact ⟨m, hm⟩

end MiniRiscvOs.Proofs
